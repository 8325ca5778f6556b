import ColorGraph.Proofs.BoundedWalks
import ColorGraph.Proofs.Compilation
import Mathlib.Data.Finset.Insert
/-!
Expansion as steps on one state that all of a compilation shares. Main statement: the expansion of a
node leaves this state as it was but for new diagnostics, an output adds one variable at most, and
so each output begins with no node in progress.
-/

set_option autoImplicit false

namespace ColorGraph

namespace Compile

structure Generator where
  bindings : Bindings := []
  inProgress : Finset NodeId := ∅
  log : Log := []

/-- A step on the shared state, without a result where its calls nest too deep. -/
abbrev Generation := StateT Generator Option

namespace Generation

def report (d : Diagnostic) : Generation Unit :=
  modify fun s => { s with log := s.log.report d }

def within {α : Type} (id : NodeId) (x : Generation α) : Generation α := do
  modify fun s => { s with inProgress := insert id s.inProgress }
  let a ← x
  modify fun s => { s with inProgress := s.inProgress.erase id }
  return a

def bindNew (id : NodeId) (name : String) : Generation Unit :=
  modify fun s => { s with bindings := s.bindings.setNew id name }

def sourceNode (ix : Index) (e : Edge) : Generation (Option Node) := do
  match ix.node? e.source with
  | some n => return some n
  | none =>
    report (.missingNode e.id e.source)
    return none

def inputExpression (ix : Index) (inner : Node → Generation (Option Css.Expression)) (e : Edge) :
    Generation (Option Css.Expression) := do
  match ← sourceNode ix e with
  | some n => inner n
  | none => return none

def fromInputs (ix : Index) (order : SlotOrder)
    (inner : Node → Generation (Option Css.Expression)) (n : Node) :
    Generation (Option Css.Expression) := do
  match n.kind.operation? with
  | some op =>
    let inputs ← (ix.inputEdges order n.id).mapM (inputExpression ix inner)
    return some (.operation op inputs)
  | none =>
    match ix.producerEdge? n.id with
    | some e => inputExpression ix inner e
    | none => return none

def generateCall (ix : Index) (order : SlotOrder)
    (inner : Node → Generation (Option Css.Expression)) (n : Node) :
    Generation (Option Css.Expression) := do
  let s ← get
  match s.bindings.name? n.id, n.literal? with
  | some name, _ => return some (.reference n.id name)
  | none, some text => return some (.literal text)
  | none, none =>
    if n.id ∈ s.inProgress then
      report (.cyclicInput n.id)
      return none
    else
      within n.id (fromInputs ix order inner n)

def generate (ix : Index) (order : SlotOrder) :
    Nat → Node → Generation (Option Css.Expression)
  | 0, _ => failure
  | depth + 1, n => generateCall ix order (generate ix order depth) n

def emitOutput (ix : Index) (o : Options) (depth : Nat) (n : Node) :
    Generation (Option Definition) := do
  let .output name := n.kind | return none
  if name = "" then
    report (.unnamedNode n.id)
    return none
  let some e := ix.producerEdge? n.id |
    report (.disconnectedOutput n.id)
    return none
  let some producer ← sourceNode ix e | return none
  let some value ← generate ix o.slotOrder depth producer | return none
  let name := o.exportName name
  if o.reuseBindings then
    bindNew producer.id name
  return some ⟨producer.id, name, value⟩

end Generation

structure Generator.Extends (s t : Generator) : Prop where
  bindings : t.bindings = s.bindings
  inProgress : t.inProgress = s.inProgress
  earlier : s.log <+: t.log
  nodup : s.log.Nodup → t.log.Nodup

namespace Generator.Extends

variable {s t u : Generator}

theorem refl (s : Generator) : s.Extends s :=
  ⟨rfl, rfl, List.prefix_refl _, id⟩

theorem trans (hst : s.Extends t) (htu : t.Extends u) : s.Extends u where
  bindings := htu.bindings.trans hst.bindings
  inProgress := htu.inProgress.trans hst.inProgress
  earlier := hst.earlier.trans htu.earlier
  nodup h := htu.nodup (hst.nodup h)

theorem report (s : Generator) (d : Diagnostic) :
    s.Extends { s with log := s.log.report d } :=
  ⟨rfl, rfl, Log.prefix_report _ _, fun h => Log.nodup_report h d⟩

end Generator.Extends

namespace Generation

variable {α β : Type} {ix : Index} {order : SlotOrder} {n : Node} {s t : Generator}
  {inner : Node → Generation (Option Css.Expression)}

def Keeps (x : Generation α) : Prop :=
  ∀ s a t, x s = some (a, t) → s.Extends t

theorem keeps_pure (a : α) : Keeps (pure a) := by
  intro s b t h
  cases h
  exact .refl s

theorem bind_eq_some {x : Generation α} {f : α → Generation β} {b : β} :
    (x >>= f) s = some (b, t) ↔ ∃ a u, x s = some (a, u) ∧ f a u = some (b, t) := by
  show (x s >>= fun p => f p.1 p.2) = _ ↔ _
  rw [Option.bind_eq_bind, Option.bind_eq_some_iff]
  exact Prod.exists

theorem Keeps.bind {x : Generation α} {f : α → Generation β} (hx : Keeps x)
    (hf : ∀ a, Keeps (f a)) : Keeps (x >>= f) := by
  intro s b t h
  obtain ⟨a, u, ha, hb⟩ := bind_eq_some.1 h
  exact (hx s a u ha).trans (hf a u b t hb)

theorem keeps_report (d : Diagnostic) : Keeps (report d) := by
  intro s a t h
  cases h
  exact .report s d

theorem Keeps.mapM {f : α → Generation β} (hf : ∀ a, Keeps (f a)) (as : List α) :
    Keeps (as.mapM f) := by
  induction as with
  | nil => exact keeps_pure []
  | cons a as ih =>
    rw [List.mapM_cons]
    exact (hf a).bind fun b => ih.bind fun bs => keeps_pure (b :: bs)

theorem keeps_sourceNode (ix : Index) (e : Edge) : Keeps (sourceNode ix e) := by
  unfold sourceNode
  split
  next n _ => exact keeps_pure (some n)
  next => exact (keeps_report _).bind fun _ => keeps_pure none

theorem keeps_inputExpression (hinner : ∀ m, Keeps (inner m)) (e : Edge) :
    Keeps (inputExpression ix inner e) := by
  refine (keeps_sourceNode ix e).bind fun m? => ?_
  cases m? with
  | none => exact keeps_pure none
  | some m => exact hinner m

theorem keeps_fromInputs (hinner : ∀ m, Keeps (inner m)) (n : Node) :
    Keeps (fromInputs ix order inner n) := by
  unfold fromInputs
  split
  next op _ =>
    exact (Keeps.mapM (keeps_inputExpression hinner) _).bind fun inputs => keeps_pure _
  next =>
    split
    next e _ => exact keeps_inputExpression hinner e
    next => exact keeps_pure none

theorem within_apply (id : NodeId) (x : Generation α) (s : Generator) :
    within id x s = (x { s with inProgress := insert id s.inProgress }).map
      fun r => (r.1, { r.2 with inProgress := r.2.inProgress.erase id }) := by
  show (x { s with inProgress := insert id s.inProgress } >>= _) = _
  cases x { s with inProgress := insert id s.inProgress } <;> rfl

theorem Keeps.within {x : Generation α} (hx : Keeps x) {id : NodeId} (hid : id ∉ s.inProgress)
    {a : α} (h : within id x s = some (a, t)) : s.Extends t := by
  rw [within_apply] at h
  obtain ⟨⟨_, u⟩, hu, e⟩ := Option.map_eq_some_iff.1 h
  cases e
  have hext := hx _ _ _ hu
  exact ⟨hext.bindings, by rw [hext.inProgress, Finset.erase_insert hid], hext.earlier, hext.nodup⟩

theorem generateCall_apply (ix : Index) (order : SlotOrder)
    (inner : Node → Generation (Option Css.Expression)) (n : Node) (s : Generator) :
    generateCall ix order inner n s =
      match s.bindings.name? n.id, n.literal? with
      | some name, _ => some (some (.reference n.id name), s)
      | none, some text => some (some (.literal text), s)
      | none, none =>
        if n.id ∈ s.inProgress then
          some (none, { s with log := s.log.report (.cyclicInput n.id) })
        else within n.id (fromInputs ix order inner n) s := by
  unfold generateCall
  show (match s.bindings.name? n.id, n.literal? with
    | some name, _ => _
    | none, some text => _
    | none, none => _ : Generation (Option Css.Expression)) s = _
  cases s.bindings.name? n.id with
  | some name => rfl
  | none =>
    cases n.literal? with
    | some text => rfl
    | none =>
      by_cases hid : n.id ∈ s.inProgress
      · simp only [hid, if_true]
        rfl
      · simp only [hid, if_false]

theorem keeps_generateCall (hinner : ∀ m, Keeps (inner m)) (n : Node) :
    Keeps (generateCall ix order inner n) := by
  intro s a t h
  rw [generateCall_apply] at h
  split at h
  next => cases h; exact .refl s
  next => cases h; exact .refl s
  next =>
    split at h
    next => cases h; exact .report s _
    next hid => exact (keeps_fromInputs hinner n).within hid h

theorem keeps_generate (ix : Index) (order : SlotOrder) (depth : Nat) (n : Node) :
    Keeps (generate ix order depth n) := by
  induction depth generalizing n with
  | zero => intro s a t h; cases h
  | succ depth ih => exact keeps_generateCall ih n

/-- With these variables, and these nodes in progress, a step does what an expansion does. -/
def Runs (b : Bindings) (p : Finset NodeId) (x : Generation α) (y : Log → α × Log) : Prop :=
  ∀ log, x ⟨b, p, log⟩ = some ((y log).1, ⟨b, p, (y log).2⟩)

variable {g : Graph} {b : Bindings} {p : Finset NodeId} {path : List NodeId}
  {y : Expansion} {depth : Nat}

theorem runs_inputExpression (h : ∀ m ∈ g.nodes, Runs b p (inner m) (y m)) (e : Edge) :
    Runs b p (inputExpression (Index.of g) inner e) (follow (Index.of g) y e) := by
  intro log
  refine bind_eq_some.2 ?_
  unfold sourceNode follow
  rw [Index.node?_of]
  cases hm : g.lastNode? e.source with
  | none => exact ⟨none, _, rfl, rfl⟩
  | some m => exact ⟨some m, _, rfl, h m (Graph.mem_of_lastNode? hm).1 log⟩

theorem runs_mapM (h : ∀ m ∈ g.nodes, Runs b p (inner m) (y m)) (es : List Edge) :
    Runs b p (es.mapM (inputExpression (Index.of g) inner)) (followAll (Index.of g) y es) := by
  induction es with
  | nil => intro log; rfl
  | cons e es ih =>
    intro log
    rw [List.mapM_cons]
    refine bind_eq_some.2 ⟨_, _, runs_inputExpression h e log, ?_⟩
    exact bind_eq_some.2 ⟨_, _, ih _, rfl⟩

theorem Runs.within {x : Generation α} {y : Log → α × Log} {id : NodeId} (hid : id ∉ p)
    (h : Runs b (insert id p) x y) : Runs b p (within id x) y := by
  intro log
  rw [within_apply, h log, Option.map_some, Finset.erase_insert hid]

theorem runs_generateCall {y : List NodeId → Expansion} (hp : ∀ id, id ∈ path ↔ id ∈ p)
    (h : n.kind.isSource = false → n.id ∉ path →
      ∀ m ∈ g.nodes, Runs b (insert n.id p) (inner m) (y (n.id :: path) m)) :
    Runs b p (generateCall (Index.of g) order inner n)
      (expandCall ⟨Index.of g, order, b⟩ y path n) := by
  intro log
  rw [generateCall_apply]
  unfold expandCall
  cases b.name? n.id with
  | some name => rfl
  | none =>
    cases hk : n.kind with
    | inputColor name color => simp only [Node.literal?, hk]
    | inputNumber name value => simp only [Node.literal?, hk]
    | operation op =>
      simp only [Node.literal?, hk, hp]
      by_cases hid : n.id ∈ p
      · simp only [hid, if_true]
      · simp only [hid, if_false]
        have hcalls := h (by rw [hk]; rfl) (mt (hp n.id).1 hid)
        let inputs := followAll (Index.of g) (y (n.id :: path)) ((Index.of g).inputEdges order n.id)
        have hruns : Runs b (insert n.id p) (fromInputs (Index.of g) order inner n) fun log =>
            (some (.operation op (inputs log).1), (inputs log).2) := by
          intro log
          simp only [fromInputs, hk, Node.Kind.operation?]
          exact bind_eq_some.2 ⟨_, _, runs_mapM hcalls _ log, rfl⟩
        exact hruns.within hid log
    | output name =>
      simp only [Node.literal?, hk, hp]
      by_cases hid : n.id ∈ p
      · simp only [hid, if_true]
      · simp only [hid, if_false]
        have hcalls := h (by rw [hk]; rfl) (mt (hp n.id).1 hid)
        simp only [fromInputs, hk, Node.Kind.operation?]
        cases (Index.of g).producerEdge? n.id with
        | none =>
          have hruns : Runs b (insert n.id p) (pure none) fun log =>
            ((none : Option Css.Expression), log) := fun log => rfl
          exact hruns.within hid log
        | some e => exact (runs_inputExpression hcalls e).within hid log

theorem mem_cons_iff_insert (hp : ∀ id, id ∈ path ↔ id ∈ p) (id : NodeId) (x : NodeId) :
    x ∈ id :: path ↔ x ∈ insert id p := by
  rw [List.mem_cons, Finset.mem_insert, hp]

/-- Where a walk can end, expansion on the shared state is expansion along a path. -/
theorem runs_generate (hn : n ∈ g.nodes) (hp : ∀ id, id ∈ path ↔ id ∈ p)
    (hdepth : (g.unopened path).length < depth) :
    Runs b p (generate (Index.of g) order depth n)
      (expand ⟨Index.of g, order, b⟩ depth path n) := by
  induction depth generalizing n p path with
  | zero => omega
  | succ depth ih =>
    refine runs_generateCall hp fun hs hpath m hm => ih hm (mem_cons_iff_insert hp n.id) ?_
    have hlt := Graph.length_unopened_cons_lt (Graph.mem_innerIds hn hs) hpath
    omega

theorem runs_generate_succ (n : Node) (hp : ∀ id, id ∈ path ↔ id ∈ p)
    (hdepth : g.maxNesting ≤ depth) :
    Runs b p (generate (Index.of g) order (depth + 1) n)
      (expand ⟨Index.of g, order, b⟩ (depth + 1) path n) := by
  refine runs_generateCall hp fun _ _ m hm => ?_
  exact runs_generate hm (mem_cons_iff_insert hp n.id)
    ((g.length_unopened_lt _).trans_le hdepth)

theorem emitOutput_apply (ix : Index) (o : Options) (depth : Nat) (n : Node) (s : Generator) :
    emitOutput ix o depth n s =
      match n.kind with
      | .output name =>
        if name = "" then some (none, { s with log := s.log.report (.unnamedNode n.id) })
        else
          match ix.producerEdge? n.id with
          | none => some (none, { s with log := s.log.report (.disconnectedOutput n.id) })
          | some e =>
            match ix.node? e.source with
            | none => some (none, { s with log := s.log.report (.missingNode e.id e.source) })
            | some producer =>
              (generate ix o.slotOrder depth producer s).map fun
                | (none, t) => (none, t)
                | (some value, t) => (some ⟨producer.id, o.exportName name, value⟩,
                    { t with bindings := if o.reuseBindings
                      then t.bindings.setNew producer.id (o.exportName name) else t.bindings })
      | _ => some (none, s) := by
  unfold emitOutput
  cases n.kind with
  | output name =>
    by_cases hname : name = ""
    · simp only [hname, if_true]
      rfl
    simp only [hname, if_false]
    cases ix.producerEdge? n.id with
    | none => rfl
    | some e =>
      show (sourceNode ix e >>= _) s = _
      unfold sourceNode
      cases hm : ix.node? e.source with
      | none => simp only [hm]; rfl
      | some producer =>
        simp only [hm]
        show (generate ix o.slotOrder depth producer s >>= _) = _
        cases generate ix o.slotOrder depth producer s with
        | none => rfl
        | some r =>
          obtain ⟨_ | value, t⟩ := r
          · rfl
          · cases o.reuseBindings <;> rfl
  | _ => rfl

/-- The one entry that an output may add is for its producer, which had none, and stands for what
is emitted. -/
def BindsProducer (ix : Index) (n : Node) (s t : Generator) (d? : Option Definition) : Prop :=
  ∃ e producer d, ix.producerEdge? n.id = some e ∧ ix.node? e.source = some producer ∧
    d? = some d ∧ d.node = producer.id ∧ s.bindings.name? producer.id = none ∧
    t.bindings = s.bindings.set producer.id d.name

theorem extends_of_emitOutput {o : Options} {d? : Option Definition}
    (h : emitOutput ix o depth n s = some (d?, t)) :
    s.Extends { t with bindings := s.bindings } ∧
      (t.bindings = s.bindings ∨ BindsProducer ix n s t d?) := by
  rw [emitOutput_apply] at h
  split at h
  next name hk =>
    split at h
    next => cases h; exact ⟨.report s _, .inl rfl⟩
    split at h
    next => cases h; exact ⟨.report s _, .inl rfl⟩
    next e he =>
      split at h
      next => cases h; exact ⟨.report s _, .inl rfl⟩
      next producer hm =>
        obtain ⟨⟨_ | value, u⟩, hu, e'⟩ := Option.map_eq_some_iff.1 h
        · cases e'
          have hext := keeps_generate _ _ _ _ _ _ _ hu
          exact ⟨⟨rfl, hext.inProgress, hext.earlier, hext.nodup⟩, .inl hext.bindings⟩
        · cases e'
          have hext := keeps_generate _ _ _ _ _ _ _ hu
          refine ⟨⟨rfl, hext.inProgress, hext.earlier, hext.nodup⟩, ?_⟩
          simp only [hext.bindings]
          cases hreuse : o.reuseBindings with
          | false => exact .inl rfl
          | true =>
            simp only [if_true, Bindings.setNew]
            cases hnew : s.bindings.name? producer.id with
            | some name => exact .inl rfl
            | none => exact .inr ⟨e, producer, _, he, hm, rfl, rfl, hnew, rfl⟩
  next => cases h; exact ⟨.refl s, .inl rfl⟩

theorem exists_emitOutput (o : Options) (hdepth : g.maxNesting ≤ depth) (n : Node)
    (s : Generator) : ∃ d? t, emitOutput (Index.of g) o depth n s = some (d?, t) := by
  rw [emitOutput_apply]
  split
  next =>
    split
    next => exact ⟨_, _, rfl⟩
    split
    next => exact ⟨_, _, rfl⟩
    split
    next => exact ⟨_, _, rfl⟩
    next producer hm =>
      rw [Index.node?_of] at hm
      have hruns : Runs s.bindings s.inProgress (generate (Index.of g) o.slotOrder depth producer)
          (expand ⟨Index.of g, o.slotOrder, s.bindings⟩ depth s.inProgress.toList producer) :=
        runs_generate (Graph.mem_of_lastNode? hm).1 (fun id => Finset.mem_toList)
          ((g.length_unopened_lt _).trans_le hdepth)
      rw [hruns s.log, Option.map_some]
      exact ⟨_, _, rfl⟩
  next => exact ⟨_, _, rfl⟩

end Generation

def Generator.between (p : Progress) : Generator :=
  ⟨p.bindings, ∅, p.log⟩

namespace Generation

theorem emitOutput_between (g : Graph) (o : Options) (n : Node) (p : Progress) :
    ∃ d?, emitOutput (Index.of g) o (depthFor g) n (.between p) =
        some (d?, .between (p.addOutput (Index.of g) o n)) ∧
      (p.addOutput (Index.of g) o n).definitions = p.definitions ++ d?.toList := by
  rw [emitOutput_apply]
  unfold Progress.addOutput
  cases n.kind with
  | output name =>
    by_cases hname : name = ""
    · simp only [hname, if_true]
      exact ⟨none, rfl, (List.append_nil _).symm⟩
    simp only [hname, if_false]
    cases (Index.of g).producerEdge? n.id with
    | none => exact ⟨none, rfl, (List.append_nil _).symm⟩
    | some e =>
      cases hm : (Index.of g).node? e.source with
      | none => simp only [hm]; exact ⟨none, rfl, (List.append_nil _).symm⟩
      | some producer =>
        simp only [hm]
        rw [Index.node?_of] at hm
        have hruns : Runs p.bindings ∅ (generate (Index.of g) o.slotOrder (depthFor g) producer)
            (expand ⟨Index.of g, o.slotOrder, p.bindings⟩ (depthFor g) [] producer) :=
          runs_generate (Graph.mem_of_lastNode? hm).1 (by simp)
            ((g.length_unopened_lt _).trans_le g.maxNesting_le_depthFor)
        rw [Generator.between, hruns p.log, Option.map_some, show (Index.of g).graph = g from rfl]
        obtain ⟨_ | value, log⟩ := expand ⟨Index.of g, o.slotOrder, p.bindings⟩ (depthFor g) []
          producer p.log
        · exact ⟨none, rfl, (List.append_nil _).symm⟩
        · exact ⟨_, rfl, rfl⟩
  | _ => exact ⟨none, rfl, (List.append_nil _).symm⟩

def emitOutputs (ix : Index) (o : Options) (depth : Nat) (outputs : List Node) :
    Generation (List Definition) := do
  let emitted ← outputs.mapM (emitOutput ix o depth)
  return emitted.reduceOption

theorem emitOutputs_between (g : Graph) (o : Options) (outputs : List Node) (p : Progress) :
    ∃ ds, emitOutputs (Index.of g) o (depthFor g) outputs (.between p) =
        some (ds, .between (outputs.foldl (Progress.addOutput (Index.of g) o) p)) ∧
      (outputs.foldl (Progress.addOutput (Index.of g) o) p).definitions = p.definitions ++ ds := by
  induction outputs generalizing p with
  | nil => exact ⟨[], rfl, (List.append_nil _).symm⟩
  | cons n outputs ih =>
    obtain ⟨d?, hn, hd⟩ := emitOutput_between g o n p
    obtain ⟨ds, hrest, hds⟩ := ih (p.addOutput (Index.of g) o n)
    obtain ⟨emitted, _, hemitted, hresult⟩ := bind_eq_some.1 hrest
    cases hresult
    have hreduce : (d? :: emitted).reduceOption = d?.toList ++ emitted.reduceOption := by
      cases d? <;> rfl
    have hall : (n :: outputs).mapM (emitOutput (Index.of g) o (depthFor g)) (.between p) =
        some (d? :: emitted,
          .between ((n :: outputs).foldl (Progress.addOutput (Index.of g) o) p)) := by
      rw [List.mapM_cons]
      exact bind_eq_some.2 ⟨_, _, hn, bind_eq_some.2 ⟨_, _, hemitted, rfl⟩⟩
    refine ⟨d?.toList ++ emitted.reduceOption, ?_, ?_⟩
    · exact hreduce ▸ bind_eq_some.2 ⟨_, _, hall, rfl⟩
    · rw [List.foldl_cons, hds, hd, List.append_assoc]

end Generation
end Compile

namespace Graph

open Compile Generation

/-- The expansion of a node leaves the variables and the nodes in progress as they were, also where
other nodes are in progress already. An output adds no variable but its own, for a producer without
one, and finds no node in progress whatever outputs come before it. -/
theorem expansion_restores_state (g : Graph) (o : Options) (n : Node) (s : Generator) :
    (∀ depth x t, generate (Index.of g) o.slotOrder depth n s = some (x, t) →
      t.inProgress = s.inProgress ∧ t.bindings = s.bindings ∧ s.log <+: t.log ∧
        (s.log.Nodup → t.log.Nodup)) ∧
    (∀ depth, g.maxNesting < depth →
      ∃ x t, generate (Index.of g) o.slotOrder depth n s = some (x, t) ∧
        ∀ path, path.toFinset = s.inProgress →
          expand ⟨Index.of g, o.slotOrder, s.bindings⟩ depth path n s.log = (x, t.log)) ∧
    (∀ depth d? t, emitOutput (Index.of g) o depth n s = some (d?, t) →
      t.inProgress = s.inProgress ∧ s.log <+: t.log ∧ (s.log.Nodup → t.log.Nodup) ∧
        (t.bindings = s.bindings ∨ BindsProducer (Index.of g) n s t d?)) ∧
    (∀ depth, g.maxNesting ≤ depth →
      ∃ d? t, emitOutput (Index.of g) o depth n s = some (d?, t)) ∧
    ∀ before, ∃ ds,
      emitOutputs (Index.of g) o (depthFor g) before (.between (g.sourceProgress o)) =
          some (ds, .between (g.progressOf o before)) ∧
        (g.progressOf o before).definitions = (g.sourceProgress o).definitions ++ ds := by
  refine ⟨fun depth x t h => ?_, fun depth hdepth => ?_, fun depth d? t h => ?_,
    fun depth hdepth => exists_emitOutput o hdepth n s,
    fun before => emitOutputs_between g o before (g.sourceProgress o)⟩
  · have hext := keeps_generate _ _ _ _ _ _ _ h
    exact ⟨hext.inProgress, hext.bindings, hext.earlier, hext.nodup⟩
  · obtain ⟨depth, rfl⟩ := Nat.exists_eq_succ_of_ne_zero (show depth ≠ 0 by omega)
    have hruns : ∀ path : List NodeId, path.toFinset = s.inProgress →
        generate (Index.of g) o.slotOrder (depth + 1) n s =
          some ((expand ⟨Index.of g, o.slotOrder, s.bindings⟩ (depth + 1) path n s.log).1,
            ⟨s.bindings, s.inProgress,
              (expand ⟨Index.of g, o.slotOrder, s.bindings⟩ (depth + 1) path n s.log).2⟩) :=
      fun path hpath => runs_generate_succ n (fun id => by rw [← hpath, List.mem_toFinset])
        (Nat.le_of_lt_succ hdepth) s.log
    refine ⟨_, _, hruns s.inProgress.toList s.inProgress.toList_toFinset, fun path hpath => ?_⟩
    have heq := (hruns path hpath).symm.trans (hruns _ s.inProgress.toList_toFinset)
    simp only [Option.some.injEq, Prod.mk.injEq, Generator.mk.injEq, true_and] at heq
    exact Prod.ext heq.1 heq.2
  · obtain ⟨hext, hbindings⟩ := extends_of_emitOutput h
    exact ⟨hext.inProgress, hext.earlier, hext.nodup, hbindings⟩

def midRotation : Generator :=
  ⟨[("x", "base")], {"r"}, [.unnamedNode "z"]⟩

def mixExpanded : Generator :=
  ⟨[("x", "base")], {"r"},
    [.unnamedNode "z", .cyclicInput "r", .missingNode "edge-ghost-m-b" "ghost"]⟩

theorem expansion_restores_state_ringRoad :
    generate (Index.of ringRoad) .lexicographic 5 ⟨"m", .operation .mix, [], []⟩ midRotation =
        some (some (.operation .mix [none, none]), mixExpanded) ∧
      mixExpanded.inProgress = midRotation.inProgress ∧
      midRotation.log <+: mixExpanded.log ∧ mixExpanded.log.Nodup ∧
      expand ⟨Index.of ringRoad, .lexicographic, midRotation.bindings⟩ 5 ["r"]
          ⟨"m", .operation .mix, [], []⟩ midRotation.log =
        (some (.operation .mix [none, none]), mixExpanded.log) ∧
      emitOutput (Index.of ringRoad) {} 5 ⟨"o", .output "mixed", [], []⟩ midRotation =
        some (some ⟨"m", "mixed", .operation .mix [none, none]⟩,
          { mixExpanded with bindings := [("m", "mixed"), ("x", "base")] }) ∧
      BindsProducer (Index.of ringRoad) ⟨"o", .output "mixed", [], []⟩ midRotation
        { mixExpanded with bindings := [("m", "mixed"), ("x", "base")] }
        (some ⟨"m", "mixed", .operation .mix [none, none]⟩) ∧
      ∃ ds, emitOutputs (Index.of ringRoad) {} (depthFor ringRoad)
          [⟨"o", .output "mixed", [], []⟩] (.between (ringRoad.sourceProgress {})) =
        some (ds, .between (ringRoad.progressOf {} [⟨"o", .output "mixed", [], []⟩])) := by
  obtain ⟨hkeeps, hreturns, _⟩ :=
    expansion_restores_state ringRoad {} ⟨"m", .operation .mix, [], []⟩ midRotation
  obtain ⟨_, _, hemits, _, hruns⟩ :=
    expansion_restores_state ringRoad {} ⟨"o", .output "mixed", [], []⟩ midRotation
  have hmix : generate (Index.of ringRoad) .lexicographic 5 ⟨"m", .operation .mix, [], []⟩
      midRotation = some (some (.operation .mix [none, none]), mixExpanded) := rfl
  have houtput : emitOutput (Index.of ringRoad) {} 5 ⟨"o", .output "mixed", [], []⟩ midRotation =
      some (some ⟨"m", "mixed", .operation .mix [none, none]⟩,
        { mixExpanded with bindings := [("m", "mixed"), ("x", "base")] }) := rfl
  obtain ⟨hprogress, _, hlog, hnodup⟩ := hkeeps 5 _ _ hmix
  obtain ⟨x, t, hx, hexpand⟩ := hreturns 5 (by decide)
  obtain ⟨rfl, rfl⟩ := Prod.mk.inj (Option.some.inj (hx.symm.trans hmix))
  obtain ⟨_, _, _, hbinds⟩ := hemits 5 _ _ houtput
  obtain ⟨ds, hds, _⟩ := hruns [⟨"o", .output "mixed", [], []⟩]
  exact ⟨hmix, hprogress, hlog, hnodup (by decide), hexpand ["r"] rfl, houtput,
    hbinds.resolve_left (by decide), ds, hds⟩

end Graph
end ColorGraph
