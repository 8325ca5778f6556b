import ColorGraph.Compile.Expand
import ColorGraph.Preview.Evaluate
import ColorGraph.Proofs.Reachability
/-!
The tree that a graph unfolds to from one of its nodes. Main statements: compiling a node and
previewing it are folds of such trees, on every graph, and the steps that are allowed for a walk
are always enough.
-/

set_option autoImplicit false

namespace ColorGraph

/-- What a walk backward from a node finds: where it stops, operations over their inputs, and gaps
with what is to be reported of them. -/
inductive Tree (α : Type) where
  | leaf (a : α)
  | missing (cause : Option Diagnostic)
  | operation (op : Operation) (inputs : List (Tree α))

namespace Tree

variable {α β : Type}

@[elab_as_elim, induction_eliminator]
theorem induction {motive : Tree α → Prop} (leaf : ∀ a, motive (.leaf a))
    (missing : ∀ cause, motive (.missing cause))
    (operation : ∀ op inputs, (∀ t ∈ inputs, motive t) → motive (.operation op inputs)) :
    ∀ t, motive t
  | .leaf a => leaf a
  | .missing cause => missing cause
  | .operation op inputs => operation op inputs fun t _ => induction leaf missing operation t

@[simp]
def fold (leaf : α → β) (missing : β) (operation : Operation → List β → β) : Tree α → β
  | .leaf a => leaf a
  | .missing _ => missing
  | .operation op inputs => operation op (inputs.map (fold leaf missing operation))

@[simp]
def reports : Tree α → List Diagnostic
  | leaf _ => []
  | missing cause => cause.toList
  | operation _ inputs => inputs.flatMap reports

def expression : Tree Css.Expression → Option Css.Expression :=
  fold some none fun op inputs => some (.operation op inputs)

@[simp]
theorem expression_leaf (x : Css.Expression) : (leaf x).expression = some x := by
  simp [expression]

@[simp]
theorem expression_missing (cause : Option Diagnostic) : (missing cause).expression = none := by
  simp [expression]

@[simp]
theorem expression_operation (op : Operation) (inputs : List (Tree Css.Expression)) :
    (operation op inputs).expression = some (.operation op (inputs.map expression)) := by
  simp only [expression, fold]

end Tree

namespace Log

def reportAll (log : Log) (ds : List Diagnostic) : Log :=
  ds.foldl report log

@[simp]
theorem reportAll_nil (log : Log) : log.reportAll [] = log :=
  rfl

@[simp]
theorem reportAll_cons (log : Log) (d : Diagnostic) (ds : List Diagnostic) :
    log.reportAll (d :: ds) = (log.report d).reportAll ds :=
  rfl

theorem reportAll_append (log : Log) (ds es : List Diagnostic) :
    log.reportAll (ds ++ es) = (log.reportAll ds).reportAll es :=
  List.foldl_append

theorem mem_reportAll {log : Log} {ds : List Diagnostic} {d : Diagnostic} :
    d ∈ log.reportAll ds ↔ d ∈ log ∨ d ∈ ds := by
  induction ds generalizing log with
  | nil => simp [reportAll]
  | cons e es ih =>
    have h := @ih (log.report e)
    rw [mem_report] at h
    rw [reportAll_cons, List.mem_cons, ← or_assoc, h]

theorem reportAll_eq_self {log : Log} {ds : List Diagnostic} (h : ∀ d ∈ ds, d ∈ log) :
    log.reportAll ds = log := by
  induction ds with
  | nil => rfl
  | cons e es ih =>
    have he : log.report e = log := if_pos (h e List.mem_cons_self)
    have hs := ih fun d hd => h d (List.mem_cons_of_mem _ hd)
    rw [reportAll_cons, he, hs]

end Log

namespace Node

def literal? (n : Node) : Option String :=
  match n.kind with
  | .inputColor _ color => some (Compile.colorLiteral color)
  | .inputNumber _ value => some (Compile.numberLiteral value)
  | _ => none

def standIn? (name? : NodeId → Option String) (n : Node) : Option Css.Expression :=
  match name? n.id with
  | some name => some (.reference n.id name)
  | none => n.literal?.map .literal

def source? (n : Node) : Option Node :=
  if n.kind.isSource then some n else none

theorem standIn?_named {name? : NodeId → Option String} {n : Node} {name : String}
    (h : name? n.id = some name) : n.standIn? name? = some (.reference n.id name) := by
  simp [standIn?, h]

theorem standIn?_unnamed {name? : NodeId → Option String} {n : Node} (h : name? n.id = none) :
    n.standIn? name? = n.literal?.map .literal := by
  simp [standIn?, h]

theorem standIn?_eq_some_iff {name? : NodeId → Option String} {n : Node} {x : Css.Expression} :
    n.standIn? name? = some x ↔ (∃ name, name? n.id = some name ∧ x = .reference n.id name) ∨
      name? n.id = none ∧ ∃ text, n.literal? = some text ∧ x = .literal text := by
  cases h : name? n.id with
  | some name => simp [standIn?_named h, eq_comm]
  | none => simp [standIn?_unnamed h, eq_comm]

theorem standIn?_eq_none_iff {name? : NodeId → Option String} {n : Node} :
    n.standIn? name? = none ↔ name? n.id = none ∧ n.literal? = none := by
  cases h : name? n.id with
  | some name => simp [standIn?_named h]
  | none => simp [standIn?_unnamed h]

theorem standIn?_source {name? : NodeId → Option String} {n : Node} {text : String}
    (h : name? n.id = none) (hl : n.literal? = some text) :
    n.standIn? name? = some (.literal text) := by
  rw [standIn?_unnamed h, hl, Option.map_some]

theorem standIn?_inner {name? : NodeId → Option String} {n : Node} (h : name? n.id = none)
    (hl : n.literal? = none) : n.standIn? name? = none :=
  standIn?_eq_none_iff.2 ⟨h, hl⟩

end Node

namespace Graph

variable {α β : Type} {g : Graph} {leaf? : Node → Option α} {order : SlotOrder}
  {path : List NodeId} {id : NodeId} {n : Node}

def unvisited (g : Graph) (path : List NodeId) : Nat :=
  g.nodes.countP (fun n => decide (n.id ∉ path))

theorem mem_of_lastNode? (h : g.lastNode? id = some n) : n ∈ g.nodes ∧ n.id = id := by
  have hm := List.mem_of_find?_eq_some h
  have hid := List.find?_some h
  exact ⟨List.mem_reverse.1 hm, beq_iff_eq.1 hid⟩

theorem unvisited_cons_lt (h : g.lastNode? id = some n) (hpath : id ∉ path) :
    g.unvisited (id :: path) < g.unvisited path := by
  obtain ⟨hm, rfl⟩ := mem_of_lastNode? h
  have hle : ∀ ns : List Node, ns.countP (fun m => decide (m.id ∉ n.id :: path)) ≤
      ns.countP (fun m => decide (m.id ∉ path)) := by
    intro ns
    refine List.countP_mono_left fun m _ hp => ?_
    simp only [decide_eq_true_eq, List.mem_cons, not_or] at hp ⊢
    exact hp.2
  obtain ⟨l, r, hnodes⟩ := List.append_of_mem hm
  have hl := hle l
  have hr := hle r
  simp only [unvisited, hnodes, List.countP_append, List.countP_cons, List.mem_cons, true_or,
    not_true_eq_false, decide_false, hpath, not_false_eq_true, decide_true, if_true] at hl hr ⊢
  simp only [Bool.false_eq_true, if_false]
  omega

/-- The tree of a node: a leaf where `leaf?` says so, else its inputs in slot order, or for an output
its first one. Nodes on the `path` are being unfolded already; one of them met again is a gap. -/
def unfold (g : Graph) (leaf? : Node → Option α) (order : SlotOrder) (path : List NodeId)
    (id : NodeId) : Tree α :=
  match _h : g.lastNode? id with
  | none => .missing none
  | some n =>
    match leaf? n with
    | some a => .leaf a
    | none =>
      if _hp : id ∈ path then .missing (some (.cyclicInput id))
      else
        let input (e : Edge) :=
          if (g.lastNode? e.source).isSome then g.unfold leaf? order (id :: path) e.source
          else .missing (some (.missingNode e.id e.source))
        match n.kind.operation? with
        | some op => .operation op ((g.inputEdges order id).map input)
        | none => ((g.producerEdge? id).map input).getD (.missing none)
termination_by g.unvisited path
decreasing_by
  exact unvisited_cons_lt _h _hp

def unfoldEdge (g : Graph) (leaf? : Node → Option α) (order : SlotOrder) (path : List NodeId)
    (e : Edge) : Tree α :=
  if (g.lastNode? e.source).isSome then g.unfold leaf? order path e.source
  else .missing (some (.missingNode e.id e.source))

theorem unfold_absent (h : g.lastNode? id = none) :
    g.unfold leaf? order path id = .missing none := by
  rw [unfold]
  split
  · rfl
  next h' => rw [h] at h'; cases h'

theorem fold_unfoldEdge {e : Edge} {leaf : α → β} {missing : β}
    {operation : Operation → List β → β} :
    (g.unfoldEdge leaf? order path e).fold leaf missing operation =
      (g.unfold leaf? order path e.source).fold leaf missing operation := by
  unfold unfoldEdge
  split
  · rfl
  next hn => rw [unfold_absent (Option.not_isSome_iff_eq_none.1 hn), Tree.fold, Tree.fold]

theorem expression_unfoldEdge {leaf? : Node → Option Css.Expression} (e : Edge) :
    (g.unfoldEdge leaf? order path e).expression =
      (g.unfold leaf? order path e.source).expression :=
  fold_unfoldEdge

theorem unfold_present (h : g.lastNode? id = some n) : g.unfold leaf? order path id =
    match leaf? n with
    | some a => .leaf a
    | none =>
      if id ∈ path then .missing (some (.cyclicInput id))
      else
        match n.kind.operation? with
        | some op => .operation op
          ((g.inputEdges order id).map (g.unfoldEdge leaf? order (id :: path)))
        | none => ((g.producerEdge? id).map (g.unfoldEdge leaf? order (id :: path))).getD
          (.missing none) := by
  rw [unfold]
  split
  next h' => rw [h] at h'; cases h'
  next m h' =>
    obtain rfl : n = m := Option.some.inj (h.symm.trans h')
    rfl

theorem unfold_leaf {a : α} (h : g.lastNode? id = some n) (ha : leaf? n = some a) :
    g.unfold leaf? order path id = .leaf a := by
  rw [unfold_present h, ha]

theorem unfold_cyclic (h : g.lastNode? id = some n) (ha : leaf? n = none) (hp : id ∈ path) :
    g.unfold leaf? order path id = .missing (some (.cyclicInput id)) := by
  rw [unfold_present h, ha]
  exact if_pos hp

theorem unfold_operation {op : Operation} (h : g.lastNode? id = some n) (ha : leaf? n = none)
    (hp : id ∉ path) (ho : n.kind.operation? = some op) : g.unfold leaf? order path id =
      .operation op ((g.inputEdges order id).map (g.unfoldEdge leaf? order (id :: path))) := by
  rw [unfold_present h, ha]
  simp only [hp, if_false, ho]

theorem unfold_output (h : g.lastNode? id = some n) (ha : leaf? n = none) (hp : id ∉ path)
    (ho : n.kind.operation? = none) : g.unfold leaf? order path id =
      ((g.producerEdge? id).map (g.unfoldEdge leaf? order (id :: path))).getD (.missing none) := by
  rw [unfold_present h, ha]
  simp only [hp, if_false, ho]

@[elab_as_elim]
theorem unfold_induction (g : Graph) (leaf? : Node → Option α)
    {motive : List NodeId → NodeId → Prop}
    (absent : ∀ path id, g.lastNode? id = none → motive path id)
    (leaf : ∀ path n a, g.lastNode? n.id = some n → leaf? n = some a → motive path n.id)
    (cyclic : ∀ path n, g.lastNode? n.id = some n → leaf? n = none → n.id ∈ path →
      motive path n.id)
    (operation : ∀ path n op, g.lastNode? n.id = some n → leaf? n = none → n.id ∉ path →
      n.kind.operation? = some op → (∀ e : Edge, motive (n.id :: path) e.source) →
        motive path n.id)
    (output : ∀ path n, g.lastNode? n.id = some n → leaf? n = none → n.id ∉ path →
      n.kind.operation? = none → (∀ e : Edge, motive (n.id :: path) e.source) → motive path n.id)
    (path : List NodeId) (id : NodeId) : motive path id := by
  induction path, id using unfold.induct g leaf? .lexicographic with
  | case1 path id hn => exact absent path id hn
  | case2 path id n hn a ha =>
    obtain ⟨_, rfl⟩ := mem_of_lastNode? hn
    exact leaf path n a hn ha
  | case3 path id n hn ha hp =>
    obtain ⟨_, rfl⟩ := mem_of_lastNode? hn
    exact cyclic path n hn ha hp
  | case4 path id n hn ha hp op ho ih =>
    obtain ⟨_, rfl⟩ := mem_of_lastNode? hn
    exact operation path n op hn ha hp ho ih
  | case5 path id n hn ha hp ho ih =>
    obtain ⟨_, rfl⟩ := mem_of_lastNode? hn
    exact output path n hn ha hp ho ih

theorem fold_unfold_congr {γ : Type} {leaf₁? : Node → Option α} {leaf₂? : Node → Option β}
    {f₁ : α → γ} {f₂ : β → γ} {missing : γ} {operation : Operation → List γ → γ}
    (h : ∀ n, g.lastNode? n.id = some n → (leaf₁? n).map f₁ = (leaf₂? n).map f₂) :
    (g.unfold leaf₁? order path id).fold f₁ missing operation =
      (g.unfold leaf₂? order path id).fold f₂ missing operation := by
  induction path, id using g.unfold_induction leaf₁? with
  | absent path id hn => simp only [unfold_absent hn, Tree.fold]
  | leaf path n a hn ha =>
    have hl := h n hn
    rw [ha, Option.map_some] at hl
    obtain ⟨b, hb, hab⟩ := Option.map_eq_some_iff.1 hl.symm
    simp only [unfold_leaf hn ha, unfold_leaf hn hb, Tree.fold, hab]
  | cyclic path n hn ha hp =>
    have hl := h n hn
    rw [ha, Option.map_none] at hl
    simp only [unfold_cyclic hn ha hp, unfold_cyclic hn (Option.map_eq_none_iff.1 hl.symm) hp,
      Tree.fold]
  | operation path n op hn ha hp ho ih =>
    have hl := h n hn
    rw [ha, Option.map_none] at hl
    rw [unfold_operation hn ha hp ho,
      unfold_operation hn (Option.map_eq_none_iff.1 hl.symm) hp ho]
    simp only [Tree.fold, List.map_map]
    congr 1
    refine List.map_congr_left fun e _ => ?_
    simp only [Function.comp_apply, unfoldEdge]
    split
    · exact ih e
    · simp only [Tree.fold]
  | output path n hn ha hp ho ih =>
    have hl := h n hn
    rw [ha, Option.map_none] at hl
    rw [unfold_output hn ha hp ho, unfold_output hn (Option.map_eq_none_iff.1 hl.symm) hp ho]
    cases g.producerEdge? n.id with
    | none => simp only [Option.map_none, Option.getD_none, Tree.fold]
    | some e =>
      simp only [Option.map_some, Option.getD_some, unfoldEdge]
      split
      · exact ih e
      · simp only [Tree.fold]

end Graph

namespace Compile

variable {g : Graph} {order : SlotOrder} {b : Bindings}

def Expands (f : Log → Option Css.Expression × Log) (t : Tree Css.Expression) : Prop :=
  ∀ log, f log = (t.expression, log.reportAll t.reports)

theorem followAll_eq {expansion : Expansion} {tree : Edge → Tree Css.Expression} {es : List Edge}
    (h : ∀ e, Expands (follow (Index.of g) expansion e) (tree e)) (log : Log) :
    followAll (Index.of g) expansion es log =
      ((es.map tree).map Tree.expression, log.reportAll ((es.map tree).flatMap Tree.reports)) := by
  induction es generalizing log with
  | nil => rfl
  | cons e es ih =>
    simp only [followAll, h e log, ih, List.map_cons, List.flatMap_cons, Log.reportAll_append]

theorem follow_eq {expansion : Expansion} {path : List NodeId}
    (h : ∀ n, g.lastNode? n.id = some n →
      Expands (expansion n) (g.unfold (Node.standIn? b.name?) order path n.id)) (e : Edge) :
    Expands (follow (Index.of g) expansion e)
      (g.unfoldEdge (Node.standIn? b.name?) order path e) := by
  intro log
  cases hn : g.lastNode? e.source with
  | none => simp [follow, Graph.unfoldEdge, Index.node?_of, hn]
  | some n =>
    obtain ⟨_, hid⟩ := Graph.mem_of_lastNode? hn
    have hx := h n (hid ▸ hn) log
    simp [follow, Graph.unfoldEdge, Index.node?_of, hn, hx, hid]

/-- A walk that may go one step further than there are nodes off the path is never cut short. -/
theorem expand_eq {depth : Nat} {path : List NodeId} {n : Node}
    (hdepth : g.unvisited path < depth) (hn : g.lastNode? n.id = some n) :
    Expands (expand ⟨Index.of g, order, b⟩ depth path n)
      (g.unfold (Node.standIn? b.name?) order path n.id) := by
  induction depth generalizing path n with
  | zero => omega
  | succ depth ih =>
    intro log
    -- an edge that is followed puts the node on the path, so one fewer is off it
    have hstep : n.id ∉ path → ∀ e,
        Expands (follow (Index.of g) (expand ⟨Index.of g, order, b⟩ depth (n.id :: path)) e)
          (g.unfoldEdge (Node.standIn? b.name?) order (n.id :: path) e) := by
      intro hp
      have hlt := Graph.unvisited_cons_lt hn hp
      exact follow_eq fun m hm => ih (by omega) hm
    unfold expand expandCall
    cases hb : b.name? n.id with
    | some name =>
      simp [Graph.unfold_leaf hn (Node.standIn?_named hb)]
    | none =>
      have hs := Node.standIn?_unnamed hb
      cases hk : n.kind with
      | inputColor _ color =>
        rw [Node.literal?, hk] at hs
        simp [Graph.unfold_leaf hn hs]
      | inputNumber _ value =>
        rw [Node.literal?, hk] at hs
        simp [Graph.unfold_leaf hn hs]
      | operation op =>
        have ho : n.kind.operation? = some op := by rw [hk]; rfl
        rw [Node.literal?, hk] at hs
        by_cases hp : n.id ∈ path
        · simp [Graph.unfold_cyclic hn hs hp, hp]
        · simp only [Graph.unfold_operation hn hs hp ho, hp, if_false, Index.inputEdges_of,
            followAll_eq (hstep hp), Tree.expression_operation, Tree.reports]
      | output name =>
        have ho : n.kind.operation? = none := by rw [hk]; rfl
        rw [Node.literal?, hk] at hs
        by_cases hp : n.id ∈ path
        · simp [Graph.unfold_cyclic hn hs hp, hp]
        · rw [Graph.unfold_output hn hs hp ho]
          simp only [hp, if_false, Index.producerEdge?_of]
          cases g.producerEdge? n.id with
          | none => simp
          | some e => exact hstep hp e log

theorem follow_expand_eq (e : Edge) :
    Expands (follow (Index.of g) (expand ⟨Index.of g, order, b⟩ (depthFor g) []) e)
      (g.unfoldEdge (Node.standIn? b.name?) order [] e) := by
  have hdepth : g.unvisited [] < depthFor g := Nat.lt_succ_of_le List.countP_le_length
  exact follow_eq (fun n hn => expand_eq hdepth hn) e

end Compile

namespace Preview

variable {g : Graph} {order : SlotOrder}

def ofSource (n : Node) : Except SplitCharacter (Option Preview) :=
  match n.kind with
  | .inputColor _ c => pure (some (color (if c = "" then defaultColor else c)))
  | .inputNumber _ value => pure (some (number value))
  | _ => pure none

def applyAll (op : Operation) (inputs : List (Except SplitCharacter (Option Preview))) :
    Except SplitCharacter (Option Preview) := do
  apply op (← inputs.mapM id)

def ofTree : Tree Node → Except SplitCharacter (Option Preview) :=
  Tree.fold ofSource (pure none) applyAll

theorem followAll_eq {evaluation : Evaluation} {tree : Edge → Tree Node} {es : List Edge}
    (h : ∀ e, follow (Index.of g) evaluation e = ofTree (tree e)) :
    followAll (Index.of g) evaluation es = (es.map fun e => ofTree (tree e)).mapM id := by
  induction es with
  | nil => rfl
  | cons e es ih => rw [followAll, ih, h, List.map_cons, List.mapM_cons]; rfl

theorem follow_eq {evaluation : Evaluation} {path : List NodeId}
    (h : ∀ n, g.lastNode? n.id = some n →
      evaluation n = ofTree (g.unfold Node.source? order path n.id)) (e : Edge) :
    follow (Index.of g) evaluation e = ofTree (g.unfoldEdge Node.source? order path e) := by
  cases hn : g.lastNode? e.source with
  | none => simp [follow, Graph.unfoldEdge, Index.node?_of, hn, ofTree]
  | some n =>
    obtain ⟨_, hid⟩ := Graph.mem_of_lastNode? hn
    have hx := h n (hid ▸ hn)
    simp [follow, Graph.unfoldEdge, Index.node?_of, hn, hx, hid]

theorem evaluateNode_eq {depth : Nat} {path : List NodeId} {n : Node}
    (hdepth : g.unvisited path < depth) (hn : g.lastNode? n.id = some n) :
    evaluateNode (Index.of g) order depth path n =
      ofTree (g.unfold Node.source? order path n.id) := by
  induction depth generalizing path n with
  | zero => omega
  | succ depth ih =>
    have hstep : n.id ∉ path → ∀ e,
        follow (Index.of g) (evaluateNode (Index.of g) order depth (n.id :: path)) e =
          ofTree (g.unfoldEdge Node.source? order (n.id :: path) e) := by
      intro hp
      have hlt := Graph.unvisited_cons_lt hn hp
      exact follow_eq fun m hm => ih (by omega) hm
    unfold evaluateNode evaluateCall
    cases hk : n.kind with
    | inputColor _ c =>
      have hs : n.source? = some n := by simp [Node.source?, hk, Node.Kind.isSource]
      simp [Graph.unfold_leaf hn hs, ofTree, ofSource, hk]
    | inputNumber _ value =>
      have hs : n.source? = some n := by simp [Node.source?, hk, Node.Kind.isSource]
      simp [Graph.unfold_leaf hn hs, ofTree, ofSource, hk]
    | operation op =>
      have hs : n.source? = none := by simp [Node.source?, hk, Node.Kind.isSource]
      have ho : n.kind.operation? = some op := by rw [hk]; rfl
      by_cases hp : n.id ∈ path
      · simp [Graph.unfold_cyclic hn hs hp, hp, ofTree]
      · simp only [Graph.unfold_operation hn hs hp ho, hp, if_false, Index.inputEdges_of,
          followAll_eq (hstep hp), ofTree, Tree.fold, List.map_map, Function.comp_def, applyAll]
    | output name =>
      have hs : n.source? = none := by simp [Node.source?, hk, Node.Kind.isSource]
      have ho : n.kind.operation? = none := by rw [hk]; rfl
      by_cases hp : n.id ∈ path
      · simp [Graph.unfold_cyclic hn hs hp, hp, ofTree]
      · rw [Graph.unfold_output hn hs hp ho]
        simp only [hp, if_false, Index.producerEdge?_of]
        cases g.producerEdge? n.id with
        | none => simp [ofTree]
        | some e => exact hstep hp e

theorem evaluate_eq (id : NodeId) :
    evaluate (Index.of g) order id = ofTree (g.unfold Node.source? order [] id) := by
  unfold evaluate
  rw [Index.node?_of]
  cases hn : g.lastNode? id with
  | none => simp [Graph.unfold_absent hn, ofTree]
  | some n =>
    obtain ⟨_, rfl⟩ := Graph.mem_of_lastNode? hn
    exact evaluateNode_eq (Nat.lt_succ_of_le List.countP_le_length) hn

end Preview
end ColorGraph
