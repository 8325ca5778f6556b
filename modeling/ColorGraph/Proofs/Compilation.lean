import ColorGraph.Compile.Report
import ColorGraph.Proofs.Traversals
import ColorGraph.Proofs.Unfolding
/-!
A compilation step by step, each step told by the tree it unfolds. Main statements: the sources
leave their definitions and names behind, and each output adds its definition, its name for its
producer and its reports to what was there.
-/

set_option autoImplicit false

namespace ColorGraph

open Compile

namespace Node

def sourceName? (o : Options) (n : Node) : Option String :=
  match n.kind with
  | .inputColor name _ | .inputNumber name _ => if name = "" then none else some (o.exportName name)
  | _ => none

def outputName? (o : Options) (n : Node) : Option String :=
  match n.kind with
  | .output name => if name = "" then none else some (o.exportName name)
  | _ => none

theorem isOutput_of_outputName? {o : Options} {n : Node} {name : String}
    (h : n.outputName? o = some name) : n.kind.isOutput = true := by
  unfold outputName? at h
  split at h
  next hk => rw [hk]; rfl
  · cases h

def sourceDefinition? (o : Options) (n : Node) : Option Definition :=
  match n.sourceName? o, n.literal? with
  | some name, some text => some ⟨n.id, name, .literal text⟩
  | _, _ => none

theorem sourceDefinition?_name (o : Options) (n : Node) :
    (n.sourceDefinition? o).map (·.name) = n.sourceName? o := by
  unfold sourceDefinition? sourceName? literal?
  cases n.kind with
  | inputColor name color => by_cases h : name = "" <;> simp [h]
  | inputNumber name value => by_cases h : name = "" <;> simp [h]
  | _ => simp

theorem eq_some_of_sourceDefinition? {o : Options} {n : Node} {d : Definition}
    (h : n.sourceDefinition? o = some d) : d.node = n.id ∧ n.sourceName? o = some d.name ∧
      ∃ text, n.literal? = some text ∧ d.value = .literal text := by
  unfold sourceDefinition? at h
  split at h
  next hname hliteral =>
    cases h
    exact ⟨rfl, hname, _, hliteral, rfl⟩
  · cases h

theorem exists_literal_of_sourceName? {o : Options} {n : Node} {name : String}
    (h : n.sourceName? o = some name) : ∃ text, n.literal? = some text := by
  obtain ⟨d, hd, _⟩ := Option.map_eq_some_iff.1 ((sourceDefinition?_name o n).trans h)
  obtain ⟨_, _, text, htext, _⟩ := eq_some_of_sourceDefinition? hd
  exact ⟨text, htext⟩

def sourceReports (n : Node) : List Diagnostic :=
  match n.kind with
  | .inputColor name _ | .inputNumber name _ => if name = "" then [.unnamedNode n.id] else []
  | _ => []

end Node

namespace Graph

def UniqueIds (g : Graph) : Prop :=
  (g.nodes.map (·.id)).Nodup

instance (g : Graph) : Decidable g.UniqueIds :=
  inferInstanceAs (Decidable (List.Nodup _))

theorem lastNode?_of_mem {g : Graph} (h : g.UniqueIds) {n : Node} (hn : n ∈ g.nodes) :
    g.lastNode? n.id = some n := by
  have hrev : (g.nodes.reverse.map (·.id)).Nodup := by
    rw [List.map_reverse, List.nodup_reverse]
    exact h
  exact find?_of_nodup_map hrev (List.mem_reverse.2 hn)

def sourceName? (g : Graph) (o : Options) (id : NodeId) : Option String :=
  (g.lastNode? id).bind (Node.sourceName? o)

def sourceDefinitions (g : Graph) (o : Options) : List Definition :=
  g.nodes.filterMap (Node.sourceDefinition? o)

theorem sourceDefinitions_map_name (g : Graph) (o : Options) :
    (g.sourceDefinitions o).map (·.name) = g.nodes.filterMap (·.sourceName? o) := by
  rw [sourceDefinitions, List.map_filterMap]
  simp only [Node.sourceDefinition?_name]

def outputTree (g : Graph) (name? : NodeId → Option String) (order : SlotOrder) (n : Node) :
    Tree Css.Expression :=
  match n.kind with
  | .output name =>
    if name = "" then .missing (some (.unnamedNode n.id))
    else
      match g.producerEdge? n.id with
      | none => .missing (some (.disconnectedOutput n.id))
      | some e => g.unfoldEdge (Node.standIn? name?) order [] e
  | _ => .missing none

theorem outputTree_of_name {g : Graph} {o : Options} {name? : NodeId → Option String}
    {order : SlotOrder} {n : Node} {name : String} {e : Edge} (h : n.outputName? o = some name)
    (he : g.producerEdge? n.id = some e) :
    g.outputTree name? order n = g.unfoldEdge (Node.standIn? name?) order [] e := by
  unfold Node.outputName? at h
  unfold outputTree
  split at h
  · split at h
    · cases h
    next hne => simp only [hne, if_false, he]
  · cases h

def outputDefinition? (g : Graph) (o : Options) (name? : NodeId → Option String) (n : Node) :
    Option Definition := do
  let name ← n.outputName? o
  let producer ← g.producer? n.id
  let value ← (g.outputTree name? o.slotOrder n).expression
  some ⟨producer, name, value⟩

theorem eq_some_of_outputDefinition? {g : Graph} {o : Options} {name? : NodeId → Option String}
    {n : Node} {d : Definition} (h : g.outputDefinition? o name? n = some d) :
    n.outputName? o = some d.name ∧ g.producer? n.id = some d.node ∧
      (g.outputTree name? o.slotOrder n).expression = some d.value := by
  simp only [outputDefinition?, Option.bind_eq_bind, Option.bind_eq_some_iff] at h
  obtain ⟨name, hname, p, hp, value, hvalue, hd⟩ := h
  cases hd
  exact ⟨hname, hp, hvalue⟩

theorem expression_of_outputDefinition? {g : Graph} {o : Options} {name? : NodeId → Option String}
    {n : Node} {d : Definition} (h : g.outputDefinition? o name? n = some d) :
    (g.unfold (Node.standIn? name?) o.slotOrder [] d.node).expression = some d.value := by
  obtain ⟨hname, hproducer, hvalue⟩ := eq_some_of_outputDefinition? h
  obtain ⟨e, he, hsource⟩ := Option.map_eq_some_iff.1 hproducer
  rwa [outputTree_of_name hname he, expression_unfoldEdge, hsource] at hvalue

def definitions (g : Graph) (o : Options) : List Definition :=
  (progress (Index.of g) o (Index.of g).outputOrder.order).definitions

theorem compile_variables (g : Graph) (o : Options) :
    (g.compile o).variables = (g.definitions o).map Definition.toVariable :=
  rfl

end Graph

namespace Compile.Progress

variable {g : Graph} {o : Options}

theorem addSource_eq (p : Progress) (n : Node) : p.addSource o n =
    ⟨p.definitions ++ (n.sourceDefinition? o).toList,
      (n.sourceName? o).elim p.bindings (p.bindings.set n.id),
      p.log.reportAll n.sourceReports⟩ := by
  unfold addSource addNamedSource Node.sourceDefinition? Node.sourceName? Node.literal?
    Node.sourceReports
  cases n.kind with
  | inputColor name color =>
    by_cases h : name = "" <;> simp [h, report, define]
  | inputNumber name value =>
    by_cases h : name = "" <;> simp [h, report, define]
  | output name => simp
  | operation op => simp

theorem addOutput_eq (p : Progress) (n : Node) : p.addOutput (Index.of g) o n =
    ⟨p.definitions ++ (g.outputDefinition? o p.bindings.name? n).toList,
      (g.outputDefinition? o p.bindings.name? n).elim p.bindings
        fun d => if o.reuseBindings then p.bindings.setNew d.node d.name else p.bindings,
      p.log.reportAll (g.outputTree p.bindings.name? o.slotOrder n).reports⟩ := by
  unfold addOutput Graph.outputDefinition? Node.outputName? Graph.outputTree
  cases n.kind with
  | output name =>
    by_cases h : name = ""
    · simp [h, report]
    · simp only [h, if_false, Index.producerEdge?_of, Graph.producer?]
      cases g.producerEdge? n.id with
      | none => simp [report]
      | some e =>
        have hf := @follow_expand_eq g o.slotOrder p.bindings e p.log
        have hgraph : (Index.of g).graph = g := rfl
        simp only [follow, Index.node?_of] at hf
        simp only [Index.node?_of, Option.map_some, hgraph]
        generalize g.unfoldEdge (Node.standIn? p.bindings.name?) o.slotOrder [] e = t at hf ⊢
        cases hm : g.lastNode? e.source with
        | none =>
          simp only [hm, Prod.mk.injEq] at hf
          simp [report, ← hf.1, ← hf.2]
        | some m =>
          obtain ⟨_, hid⟩ := Graph.mem_of_lastNode? hm
          simp only [hm] at hf
          simp only [hf, hid]
          cases t.expression with
          | none => simp
          | some value => simp [define]
  | _ => simp

theorem name?_addOutput (p : Progress) (n : Node) (id : NodeId) :
    (p.addOutput (Index.of g) o n).bindings.name? id = (p.bindings.name? id).or
      ((g.outputDefinition? o p.bindings.name? n).bind fun d =>
        if o.reuseBindings = true ∧ id = d.node then some d.name else none) := by
  rw [addOutput_eq]
  cases g.outputDefinition? o p.bindings.name? n with
  | none => rw [Option.elim_none, Option.bind_none, Option.or_none]
  | some d => rw [Option.elim_some, Bindings.name?_setNew_if, Option.bind_some]

theorem exists_of_name?_addOutput {p : Progress} {n : Node} {id : NodeId} {name : String}
    (h : (p.addOutput (Index.of g) o n).bindings.name? id = some name) :
    p.bindings.name? id = some name ∨
      ∃ d, g.outputDefinition? o p.bindings.name? n = some d ∧ d.node = id := by
  rw [name?_addOutput, Option.or_eq_some_iff] at h
  obtain h | ⟨_, h⟩ := h
  · exact .inl h
  · obtain ⟨d, hd, hname⟩ := Option.bind_eq_some_iff.1 h
    split at hname
    next hnew => exact .inr ⟨d, hd, hnew.2.symm⟩
    · cases hname

theorem name?_addOutput_of_ne (p : Progress) {n : Node} {id : NodeId}
    (h : ∀ q, g.producer? n.id = some q → id ≠ q) :
    (p.addOutput (Index.of g) o n).bindings.name? id = p.bindings.name? id := by
  rw [name?_addOutput]
  cases hd : g.outputDefinition? o p.bindings.name? n with
  | none => exact Option.or_none
  | some d =>
    have hne := h d.node (Graph.eq_some_of_outputDefinition? hd).2.1
    simp [hne]

theorem addSources_eq (p : Progress) (ns : List Node) :
    (ns.foldl (addSource o) p).definitions = p.definitions ++ ns.filterMap (·.sourceDefinition? o) ∧
      (ns.foldl (addSource o) p).log = p.log.reportAll (ns.flatMap Node.sourceReports) := by
  induction ns generalizing p with
  | nil => simp
  | cons n ns ih =>
    obtain ⟨hd, hl⟩ := ih (p.addSource o n)
    rw [List.foldl_cons, hd, hl, addSource_eq, List.flatMap_cons, Log.reportAll_append]
    refine ⟨?_, rfl⟩
    cases hs : n.sourceDefinition? o with
    | none => simp [hs]
    | some d => simp [hs]

theorem name?_addSources (p : Progress) (ns : List Node) (id : NodeId) :
    (ns.foldl (addSource o) p).bindings.name? id =
      (ns.reverse.findSome? fun n => if n.id = id then n.sourceName? o else none).or
        (p.bindings.name? id) := by
  induction ns using List.reverseRecOn with
  | nil => rfl
  | append_singleton ns n ih =>
    rw [List.foldl_append, List.foldl_cons, List.foldl_nil, addSource_eq, List.reverse_append,
      List.reverse_singleton, List.singleton_append, List.findSome?_cons]
    cases hs : n.sourceName? o with
    | none => simp [ih]
    | some name =>
      by_cases hid : n.id = id
      · simp [hid, Bindings.name?_set]
      · simp [hid, Ne.symm hid, Bindings.name?_set, ih]

end Compile.Progress

namespace Graph

variable {g : Graph} {o : Options}

def sourceProgress (g : Graph) (o : Options) : Progress :=
  g.nodes.foldl (Progress.addSource o) {}

def progressOf (g : Graph) (o : Options) (outputs : List Node) : Progress :=
  outputs.foldl (Progress.addOutput (Index.of g) o) (g.sourceProgress o)

theorem sourceProgress_definitions : (g.sourceProgress o).definitions = g.sourceDefinitions o := by
  have h := (Progress.addSources_eq {} g.nodes (o := o)).1
  rw [List.nil_append] at h
  exact h

def boundName? (g : Graph) (o : Options) (id : NodeId) : Option String :=
  g.nodes.reverse.findSome? fun n => if n.id = id then n.sourceName? o else none

theorem boundName?_eq_sourceName? {id : NodeId}
    (h : ∀ n ∈ g.nodes, n.id = id → (n.sourceName? o).isSome → (g.sourceName? o id).isSome) :
    g.boundName? o id = g.sourceName? o id := by
  cases hs : g.sourceName? o id with
  | none =>
    refine List.findSome?_eq_none_iff.2 fun n hn => ?_
    split
    next hid =>
      have hnone := h n (List.mem_reverse.1 hn) hid
      rw [hs, Option.isSome_none] at hnone
      exact Option.not_isSome_iff_eq_none.1 fun hsome => Bool.false_ne_true (hnone hsome)
    · rfl
  | some name =>
    obtain ⟨n, hn, hname⟩ := Option.bind_eq_some_iff.1 hs
    obtain ⟨hid, later, earlier, hnodes, hlater⟩ := List.find?_eq_some_iff_append.1 hn
    have hskip : (later.findSome? fun m => if m.id = id then m.sourceName? o else none) = none :=
      List.findSome?_eq_none_iff.2 fun m hm => if_neg (by simpa using hlater m hm)
    rw [boundName?, hnodes, List.findSome?_append, hskip, Option.none_or, List.findSome?_cons,
      if_pos (beq_iff_eq.1 hid), hname]

theorem sourceProgress_boundName? : (g.sourceProgress o).bindings.name? = g.boundName? o := by
  funext id
  rw [sourceProgress, Progress.name?_addSources, boundName?, Bindings.name?]
  exact Option.or_none

theorem sourceProgress_name? (hid : g.UniqueIds) :
    (g.sourceProgress o).bindings.name? = g.sourceName? o := by
  funext id
  rw [sourceProgress_boundName?]
  refine boundName?_eq_sourceName? fun n hn hnid hname => ?_
  rwa [← hnid, sourceName?, lastNode?_of_mem hid hn]

theorem progressOf_nil : g.progressOf o [] = g.sourceProgress o :=
  rfl

theorem progressOf_append (outputs : List Node) (n : Node) : g.progressOf o (outputs ++ [n]) =
    (g.progressOf o outputs).addOutput (Index.of g) o n := by
  simp [progressOf]

/-- What holds of the definitions and names of the sources, and is kept by every output that is
defined, holds after any outputs. -/
@[elab_as_elim]
theorem progressOf_induction {P : List Definition → (NodeId → Option String) → Prop}
    (sources : P (g.sourceDefinitions o) (g.sourceProgress o).bindings.name?)
    (output : ∀ outputs n d, P (g.progressOf o outputs).definitions
        (g.progressOf o outputs).bindings.name? →
      g.outputDefinition? o (g.progressOf o outputs).bindings.name? n = some d →
      P ((g.progressOf o outputs).definitions ++ [d]) fun q =>
        ((g.progressOf o outputs).bindings.name? q).or
          (if o.reuseBindings = true ∧ q = d.node then some d.name else none))
    (outputs : List Node) :
    P (g.progressOf o outputs).definitions (g.progressOf o outputs).bindings.name? := by
  induction outputs using List.reverseRecOn with
  | nil => rwa [progressOf_nil, sourceProgress_definitions]
  | append_singleton outputs n ih =>
    rw [progressOf_append, Progress.addOutput_eq]
    cases hd : g.outputDefinition? o (g.progressOf o outputs).bindings.name? n with
    | none => simpa using ih
    | some d => simpa [Bindings.name?_setNew_if] using output outputs n d ih hd

theorem definitions_eq : g.definitions o =
    (g.progressOf o (Index.of g).outputOrder.order).definitions :=
  rfl

theorem prefix_progressOf_append (before after : List Node) :
    (g.progressOf o before).definitions <+: (g.progressOf o (before ++ after)).definitions := by
  induction after using List.reverseRecOn with
  | nil => rw [List.append_nil]
  | append_singleton after n ih =>
    rw [← List.append_assoc, progressOf_append, Progress.addOutput_eq]
    exact ih.trans (List.prefix_append _ _)

theorem prefix_progressOf (outputs : List Node) :
    g.sourceDefinitions o <+: (g.progressOf o outputs).definitions := by
  have h := prefix_progressOf_append (g := g) (o := o) [] outputs
  rwa [progressOf_nil, sourceProgress_definitions] at h

def outputDefinitions (g : Graph) (o : Options) : List Definition :=
  (g.definitions o).drop (g.sourceDefinitions o).length

theorem definitions_eq_append : g.definitions o = g.sourceDefinitions o ++ g.outputDefinitions o :=
  (List.prefix_iff_eq_append.1 (prefix_progressOf _)).symm

/-- Without reuse no output changes what the later ones refer to. -/
theorem progressOf_of_not_reuse (hid : g.UniqueIds) (hre : o.reuseBindings = false)
    (outputs : List Node) :
    (g.progressOf o outputs).bindings.name? = g.sourceName? o ∧
      (g.progressOf o outputs).definitions = g.sourceDefinitions o ++
        outputs.filterMap (g.outputDefinition? o (g.sourceName? o)) ∧
      (g.progressOf o outputs).log = (g.sourceProgress o).log.reportAll
        (outputs.flatMap fun n => (g.outputTree (g.sourceName? o) o.slotOrder n).reports) := by
  induction outputs using List.reverseRecOn with
  | nil =>
    refine ⟨sourceProgress_name? hid, ?_, rfl⟩
    rw [List.filterMap_nil, List.append_nil]
    exact sourceProgress_definitions
  | append_singleton outputs n ih =>
    obtain ⟨hb, hd, hl⟩ := ih
    rw [progressOf_append, Progress.addOutput_eq, hb, hd, hl, List.filterMap_append,
      List.flatMap_append, Log.reportAll_append, List.append_assoc]
    refine ⟨?_, ?_, ?_⟩
    · cases g.outputDefinition? o (g.sourceName? o) n with
      | none => exact hb
      | some d => simpa [hre] using hb
    · cases hx : g.outputDefinition? o (g.sourceName? o) n with
      | none => simp [hx]
      | some d => simp [hx]
    · simp

end Graph
end ColorGraph
