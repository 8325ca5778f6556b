import ColorGraph.Proofs.Expansion
import ColorGraph.Proofs.OutputOrder
import ColorGraph.Proofs.References
/-!
Compilation in closed form. Main statement: in a graph without cycles the values of the outputs are
expansions, with references to all that is exported, whichever output comes first.
-/

set_option autoImplicit false

namespace ColorGraph.Graph

open Compile

variable {g : Graph} {o : Options} {n : Node} {outputs : List Node} {id : NodeId}

/-- The exported name of a node when these outputs are exported: that of a named source, else that
of the first output it produces. -/
def exportedName? (g : Graph) (o : Options) (outputs : List Node) (id : NodeId) : Option String :=
  (g.sourceName? o id).or
    (outputs.findSome? fun n => if g.producer? n.id = some id then n.outputName? o else none)

theorem exportedName?_nil : g.exportedName? o [] = g.sourceName? o := by
  funext id
  simp [exportedName?]

theorem exportedName?_concat : g.exportedName? o (outputs ++ [n]) id =
    (g.exportedName? o outputs id).or
      (if g.producer? n.id = some id then n.outputName? o else none) := by
  rw [exportedName?, exportedName?, List.findSome?_append, Option.or_assoc]
  congr 2
  simp only [List.findSome?_cons, List.findSome?_nil]
  cases if g.producer? n.id = some id then n.outputName? o else none <;> rfl

def knownName? (g : Graph) (o : Options) (outputs : List Node) : NodeId → Option String :=
  g.exportedName? o (if o.reuseBindings then outputs else [])

theorem knownName?_concat : g.knownName? o (outputs ++ [n]) id =
    (g.knownName? o outputs id).or
      (if o.reuseBindings = true ∧ g.producer? n.id = some id then n.outputName? o else none) := by
  unfold knownName?
  cases o.reuseBindings with
  | true => simp [exportedName?_concat]
  | false => simp

def definitionOf? (g : Graph) (o : Options) (value? : NodeId → Option Css.Expression) (n : Node) :
    Option Definition := do
  let name ← n.outputName? o
  let producer ← g.producer? n.id
  let value ← value? producer
  some ⟨producer, name, value⟩

theorem eq_some_of_definitionOf? {value? : NodeId → Option Css.Expression} {d : Definition}
    (h : g.definitionOf? o value? n = some d) : n.outputName? o = some d.name ∧
      g.producer? n.id = some d.node ∧ value? d.node = some d.value := by
  simp only [definitionOf?, Option.bind_eq_bind, Option.bind_eq_some_iff] at h
  obtain ⟨name, hname, p, hp, value, hvalue, hd⟩ := h
  cases hd
  exact ⟨hname, hp, hvalue⟩

namespace Acyclic

def exports (h : g.Acyclic) (o : Options) (n : Node) : Bool :=
  (n.outputName? o).isSome &&
    ((g.producer? n.id).bind (h.expansion o.slotOrder fun _ => none)).isSome

def exporters (h : g.Acyclic) (o : Options) : List Node :=
  (Index.of g).outputOrder.order.filter (h.exports o)

theorem exports_iff {h : g.Acyclic} : h.exports o n = true ↔ ∃ name p,
    n.outputName? o = some name ∧ g.producer? n.id = some p ∧ h.Expandable o.slotOrder p := by
  unfold exports Expandable
  cases n.outputName? o <;> cases g.producer? n.id <;> simp

theorem expandable_of_sourceName? {h : g.Acyclic} {name : String}
    (hname : g.sourceName? o id = some name) : h.Expandable o.slotOrder id := by
  obtain ⟨n, hn, hn'⟩ := Option.bind_eq_some_iff.1 hname
  obtain ⟨text, hl⟩ := Node.exists_literal_of_sourceName? hn'
  simp [Expandable, h.expansion_source hn hl]

theorem expandable_of_exportedName? {h : g.Acyclic} (houtputs : ∀ n ∈ outputs, h.exports o n)
    (x : NodeId) (name : String) (hname : g.exportedName? o outputs x = some name) :
    h.Expandable o.slotOrder x := by
  obtain hs | ⟨_, hs⟩ := Option.or_eq_some_iff.1 hname
  · exact expandable_of_sourceName? hs
  · obtain ⟨n, hn, hx⟩ := List.exists_of_findSome?_eq_some hs
    obtain ⟨_, p, _, hp, hexp⟩ := exports_iff.1 (houtputs n hn)
    split at hx
    next hpx =>
      obtain rfl : p = x := Option.some.inj (hp.symm.trans hpx)
      exact hexp
    · cases hx

variable {name? : NodeId → Option String}

theorem outputDefinition?_eq (h : g.Acyclic)
    (hnames : ∀ x name, name? x = some name → h.Expandable o.slotOrder x) :
    g.outputDefinition? o name? n = g.definitionOf? o (h.written o.slotOrder name?) n := by
  unfold outputDefinition? definitionOf? outputTree producer?
  cases hk : n.kind with
  | output name =>
    by_cases hname : name = ""
    · simp [Node.outputName?, hk, hname]
    · cases g.producerEdge? n.id with
      | none => simp
      | some e =>
        have he := h.expression_unfold hnames e.source
        simp [hname, expression_unfoldEdge, he]
  | _ => simp [Node.outputName?, hk]

theorem isSome_outputDefinition? (h : g.Acyclic)
    (hnames : ∀ x name, name? x = some name → h.Expandable o.slotOrder x) :
    (g.outputDefinition? o name? n).isSome = h.exports o n := by
  rw [h.outputDefinition?_eq hnames, definitionOf?, exports]
  cases n.outputName? o with
  | none => rfl
  | some name =>
    cases g.producer? n.id with
    | none => rfl
    | some p =>
      have hp := @isSome_written _ _ p _ h hnames
      rw [Expandable] at hp
      cases hw : h.written o.slotOrder name? p <;> simp_all

theorem expandable_of_knownName? {h : g.Acyclic} (houtputs : ∀ n ∈ outputs, h.exports o n)
    (x : NodeId) (name : String) (hname : g.knownName? o outputs x = some name) :
    h.Expandable o.slotOrder x := by
  refine expandable_of_exportedName? (fun n hn => houtputs n ?_) x name hname
  split at hn
  · exact hn
  · cases hn

/-- Of the outputs given so far those that export something are defined, each with the names known
by then. -/
theorem progressOf_eq (h : g.Acyclic) (hid : g.UniqueIds) (outputs : List Node) :
    (g.progressOf o outputs).bindings.name? = g.knownName? o (outputs.filter (h.exports o)) ∧
      (g.progressOf o outputs).definitions.map some = (g.sourceDefinitions o).map some ++
        (outputs.filter (h.exports o)).mapIdx fun i n =>
          g.outputDefinition? o (g.knownName? o ((outputs.filter (h.exports o)).take i)) n := by
  induction outputs using List.reverseRecOn with
  | nil =>
    constructor
    · rw [progressOf_nil, sourceProgress_name? hid, List.filter_nil, knownName?,
        ite_self, exportedName?_nil]
    · rw [progressOf_nil, sourceProgress_definitions]
      simp
  | append_singleton outputs n ih =>
    obtain ⟨hb, hd⟩ := ih
    have hall : ∀ m ∈ outputs.filter (h.exports o), h.exports o m := fun m hm =>
      (List.mem_filter.1 hm).2
    have hnames := expandable_of_knownName? hall
    have hsome := h.isSome_outputDefinition? (n := n) hnames
    rw [progressOf_append, Progress.addOutput_eq, hb, List.filter_append]
    generalize outputs.filter (h.exports o) = emitted at hb hd hnames hsome ⊢
    cases hx : g.outputDefinition? o (g.knownName? o emitted) n with
    | none =>
      rw [hx, Option.isSome_none] at hsome
      simp [← hsome, hb, hd]
    | some d =>
      rw [hx, Option.isSome_some] at hsome
      obtain ⟨hname, hproducer, _⟩ := eq_some_of_outputDefinition? hx
      have hfilter : [n].filter (h.exports o) = [n] := by simp [← hsome]
      rw [hfilter]
      constructor
      · funext id
        rw [knownName?_concat, hname, hproducer]
        cases hre : o.reuseBindings with
        | false => simp [hb]
        | true => simp [Bindings.name?_setNew, hb, eq_comm]
      · have hstart : emitted.mapIdx (fun i m =>
            g.outputDefinition? o (g.knownName? o ((emitted ++ [n]).take i)) m) =
              emitted.mapIdx fun i m =>
                g.outputDefinition? o (g.knownName? o (emitted.take i)) m := by
          refine List.mapIdx_eq_mapIdx_iff.2 fun i hi => ?_
          rw [List.take_append_of_le_length (Nat.le_of_lt hi)]
        rw [List.mapIdx_concat, hstart, List.take_left, hx]
        simp [hd]

theorem exports_of_mem_exporters {h : g.Acyclic} (hn : n ∈ h.exporters o) : h.exports o n = true :=
  (List.mem_filter.1 hn).2

theorem exporters_pairwise (h : g.Acyclic) :
    (h.exporters o).Pairwise (fun a b => ¬ g.DependsOn a b) :=
  h.order_pairwise.sublist List.filter_sublist

theorem exportedName?_take (h : g.Acyclic) {i : Nat} (hi : i < (h.exporters o).length)
    {p x : NodeId} (hp : g.producer? (h.exporters o)[i].id = some p) (hx : g.Upstream x p) :
    g.exportedName? o ((h.exporters o).take i) x = g.exportedName? o (h.exporters o) x := by
  -- the output at `i` depends on every output of `x`, so none of these is left from there on
  have hrest : ∀ m ∈ (h.exporters o).drop i, g.producer? m.id ≠ some x := by
    intro m hm hmx
    have hne : (h.exporters o)[i].id ≠ m.id := by
      intro heq
      rw [heq, hmx, Option.some.injEq] at hp
      exact h p (hp ▸ hx)
    have hpair := (h.exporters_pairwise (o := o)).sublist (List.drop_sublist i _)
    rw [List.drop_eq_getElem_cons hi] at hm hpair
    obtain rfl | hm := List.mem_cons.1 hm
    · exact hne rfl
    · exact (List.pairwise_cons.1 hpair).1 m hm ⟨hne, p, x, hp, hmx, hx⟩
  have hnone : ((h.exporters o).drop i).findSome?
      (fun m => if g.producer? m.id = some x then m.outputName? o else none) = none :=
    List.findSome?_eq_none_iff.2 fun m hm => if_neg (hrest m hm)
  conv_rhs => rw [exportedName?, ← List.take_append_drop i (h.exporters o), List.findSome?_append,
    hnone, Option.or_none]
  rfl

def exportedValue? (h : g.Acyclic) (o : Options) (before : Nat) (producer : NodeId) :
    Option Css.Expression :=
  match g.exportedName? o ((h.exporters o).take before) producer with
  | some name => some (.reference producer name)
  | none => h.expansion o.slotOrder (g.exportedName? o (h.exporters o)) producer

theorem outputDefinition?_take (h : g.Acyclic) {i : Nat} (hi : i < (h.exporters o).length) :
    g.outputDefinition? o (g.exportedName? o ((h.exporters o).take i)) (h.exporters o)[i] =
      g.definitionOf? o (h.exportedValue? o i) (h.exporters o)[i] := by
  have hnames : ∀ x name, g.exportedName? o ((h.exporters o).take i) x = some name →
      h.Expandable o.slotOrder x := expandable_of_exportedName? fun n hn =>
    exports_of_mem_exporters (List.mem_of_mem_take hn)
  rw [h.outputDefinition?_eq hnames, definitionOf?, definitionOf?]
  cases hp : g.producer? (h.exporters o)[i].id with
  | none => rfl
  | some p =>
    have hvalue : h.written o.slotOrder (g.exportedName? o ((h.exporters o).take i)) p =
        h.exportedValue? o i p := by
      have hexpansion : h.expansion o.slotOrder (g.exportedName? o ((h.exporters o).take i)) p =
          h.expansion o.slotOrder (g.exportedName? o (h.exporters o)) p :=
        h.expansion_congr fun x hx => h.exportedName?_take hi hp hx
      cases hname : g.exportedName? o ((h.exporters o).take i) p with
      | some name => rw [h.written_of_named hname, exportedValue?, hname]
      | none => rw [h.written_of_unnamed hname, hexpansion, exportedValue?, hname]
    simp [hvalue]

theorem outputDefinitions_eq (h : g.Acyclic) (hid : g.UniqueIds) :
    (g.outputDefinitions o).map some = (h.exporters o).mapIdx fun i n =>
      g.outputDefinition? o (g.knownName? o ((h.exporters o).take i)) n := by
  have hdefs : (g.definitions o).map some = (g.sourceDefinitions o).map some ++
      (h.exporters o).mapIdx fun i n =>
        g.outputDefinition? o (g.knownName? o ((h.exporters o).take i)) n :=
    (h.progressOf_eq hid (Index.of g).outputOrder.order).2
  rw [definitions_eq_append, List.map_append] at hdefs
  exact List.append_cancel_left hdefs

theorem outputDefinitions_of_reuse (h : g.Acyclic) (hid : g.UniqueIds)
    (hre : o.reuseBindings = true) :
    (g.outputDefinitions o).map some =
      (h.exporters o).mapIdx fun i n => g.definitionOf? o (h.exportedValue? o i) n := by
  rw [h.outputDefinitions_eq hid]
  refine List.mapIdx_eq_mapIdx_iff.2 fun i hi => ?_
  rw [← h.outputDefinition?_take hi, knownName?, if_pos hre]

end Acyclic

/-- Every output that exports something has a reference where its producer has a name by then, and
else an expansion that refers to all that has a name further upstream. What has been defined is only
referred to from then on. -/
theorem compile_variables_of_reuse (hid : g.UniqueIds) (h : g.Acyclic)
    (hre : o.reuseBindings = true) :
    (g.compile o).variables.map some =
        ((g.sourceDefinitions o).map Definition.toVariable).map some ++
          (h.exporters o).mapIdx
            (fun i n => (g.definitionOf? o (h.exportedValue? o i) n).map Definition.toVariable) ∧
      (g.definitions o).Pairwise
        (fun d e => d.node = e.node → ∃ name, e.value = .reference e.node name) := by
  refine ⟨?_, definitions_pairwise hid hre⟩
  have hdefs := congrArg (List.map (Option.map Definition.toVariable))
    (h.outputDefinitions_of_reuse hid hre)
  have hmap : ((h.exporters o).mapIdx fun i n => g.definitionOf? o (h.exportedValue? o i) n).map
      (Option.map Definition.toVariable) = (h.exporters o).mapIdx
        fun i n => (g.definitionOf? o (h.exportedValue? o i) n).map Definition.toVariable :=
    List.ext_getElem? fun i => by simp [Function.comp_def]
  rw [hmap] at hdefs
  rw [compile_variables, definitions_eq_append, List.map_append, List.map_append, ← hdefs]
  simp [Function.comp_def]

def mixedTwice : Graph where
  nodes := [{ id := "c", kind := .inputColor "base" "red" },
    { id := "u", kind := .inputColor "" "blue" }, { id := "m", kind := .operation .mix },
    { id := "i", kind := .operation .invert }, { id := "t", kind := .output "inverted" },
    { id := "o", kind := .output "mixed" }, { id := "p", kind := .output "again" }]
  edges := [connection "c" "m" (some "a"), connection "u" "m" (some "b"), connection "m" "o" none,
    connection "o" "i" (some "a"), connection "ghost" "i" (some "b"), connection "i" "t" none,
    connection "m" "p" none]

theorem compile_variables_of_reuse_mixedTwice :
    mixedTwice.UniqueIds ∧ (mixedTwice.compile {}).variables =
      [⟨"--base", "red"⟩, ⟨"--mixed", "color-mix(in oklch, var(--base), blue)"⟩,
        ⟨"--again", "var(--mixed)"⟩, ⟨"--inverted", "oklch(from var(--mixed) calc(1 - l) c h)"⟩] ∧
      ∃ h : mixedTwice.Acyclic, (mixedTwice.compile {}).variables.map some =
        ((mixedTwice.sourceDefinitions {}).map Definition.toVariable).map some ++
          (h.exporters {}).mapIdx
            (fun i n => (mixedTwice.definitionOf? {} (h.exportedValue? {} i) n).map
              Definition.toVariable) := by
  have hid : mixedTwice.UniqueIds := by decide
  have h : mixedTwice.Acyclic := by decide
  exact ⟨hid, by decide, h, (compile_variables_of_reuse hid h rfl).1⟩

end ColorGraph.Graph
