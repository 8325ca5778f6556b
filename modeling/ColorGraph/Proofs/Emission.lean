import ColorGraph.Proofs.Compilation
/-!
Which variables a compilation declares. Main statement: on every graph these are the named sources,
and the named outputs whose first edges lead back through outputs to a node that is none.
-/

set_option autoImplicit false

namespace ColorGraph

open Compile

namespace Node

theorem isOutput_iff {n : Node} :
    n.kind.isOutput = true ↔ n.literal? = none ∧ n.kind.operation? = none := by
  unfold literal?
  cases n.kind <;> simp [Kind.isOutput, Kind.operation?]

theorem isOutput_of_standIn? {name? : NodeId → Option String} {n : Node}
    (h : n.standIn? name? = none) (ho : n.kind.operation? = none) : n.kind.isOutput = true :=
  isOutput_iff.2 ⟨(standIn?_eq_none_iff.1 h).2, ho⟩

theorem isOutput_eq_false {n : Node} {text : String} (h : n.literal? = some text) :
    n.kind.isOutput = false := by
  refine Bool.eq_false_iff.2 fun ho => ?_
  rw [(isOutput_iff.1 ho).1] at h
  cases h

end Node

namespace Graph

variable {g : Graph} {o : Options} {order : SlotOrder} {path : List NodeId} {id p : NodeId}
  {n : Node} {name? : NodeId → Option String}

def Shows (g : Graph) (a b : NodeId) : Prop :=
  (∃ n, g.lastNode? a = some n ∧ n.kind.isOutput) ∧ g.producer? a = some b

/-- Going backward from output to output ends at a node of another kind. -/
def HasOrigin (g : Graph) (id : NodeId) : Prop :=
  ∃ x n, Relation.ReflTransGen g.Shows id x ∧ g.lastNode? x = some n ∧ n.kind.isOutput = false

theorem Shows.eq {a b c : NodeId} (hb : g.Shows a b) (hc : g.Shows a c) : b = c :=
  Option.some.inj (hb.2.symm.trans hc.2)

theorem shows_iff (hn : g.lastNode? id = some n) (ho : n.kind.isOutput = true) :
    g.Shows id p ↔ g.producer? id = some p :=
  ⟨And.right, fun h => ⟨⟨n, hn, ho⟩, h⟩⟩

theorem not_shows (hn : g.lastNode? id = some n) (ho : n.kind.isOutput = false) :
    ¬ g.Shows id p := by
  rintro ⟨⟨m, hm, hmo⟩, -⟩
  obtain rfl := Option.some.inj (hn.symm.trans hm)
  rw [ho] at hmo
  cases hmo

theorem hasOrigin_of_kind (hn : g.lastNode? id = some n) (ho : n.kind.isOutput = false) :
    g.HasOrigin id :=
  ⟨id, n, .refl, hn, ho⟩

theorem HasOrigin.lastNode? (h : g.HasOrigin id) : ∃ n, g.lastNode? id = some n := by
  obtain ⟨x, n, hx, hn, _⟩ := h
  obtain rfl | ⟨_, ⟨⟨m, hm, _⟩, _⟩, _⟩ := hx.cases_head
  · exact ⟨n, hn⟩
  · exact ⟨m, hm⟩

theorem hasOrigin_output_iff (hn : g.lastNode? id = some n) (ho : n.kind.isOutput = true) :
    g.HasOrigin id ↔ ∃ p, g.producer? id = some p ∧ g.HasOrigin p := by
  constructor
  · rintro ⟨x, m, hx, hm, hmo⟩
    obtain rfl | ⟨p, hp, hpx⟩ := hx.cases_head
    · obtain rfl := Option.some.inj (hn.symm.trans hm)
      rw [ho] at hmo
      cases hmo
    · exact ⟨p, hp.2, x, m, hpx, hm, hmo⟩
  · rintro ⟨p, hp, x, m, hpx, hm, hmo⟩
    exact ⟨x, m, .head ((shows_iff hn ho).2 hp) hpx, hm, hmo⟩

/-- Outputs in a circle show nothing. -/
theorem not_hasOrigin_of_cycle (h : Relation.TransGen g.Shows id id) : ¬ g.HasOrigin id := by
  rintro ⟨x, n, hx, hn, ho⟩
  have hcircle : Relation.TransGen g.Shows x x := by
    clear hn
    induction hx with
    | refl => exact h
    | tail _ hstep ih =>
      obtain ⟨_, hnext, hback⟩ := Relation.TransGen.head'_iff.1 ih
      obtain rfl := hstep.eq hnext
      exact Relation.TransGen.tail' hback hstep
  obtain ⟨_, hstep, _⟩ := Relation.TransGen.head'_iff.1 hcircle
  exact not_shows hn ho hstep

theorem hasOrigin_of_standIn? {x : Css.Expression}
    (hnames : ∀ x name, name? x = some name → g.HasOrigin x) (hn : g.lastNode? n.id = some n)
    (hx : n.standIn? name? = some x) : g.HasOrigin n.id := by
  obtain ⟨name, hname, _⟩ | ⟨_, text, hl, _⟩ := Node.standIn?_eq_some_iff.1 hx
  · exact hnames n.id name hname
  · exact hasOrigin_of_kind hn (Node.isOutput_eq_false hl)

/-- A walk along outputs only, with names where there is an origin, finds an expression just where
there is an origin. -/
theorem isSome_expression_unfold (hnames : ∀ x name, name? x = some name → g.HasOrigin x)
    (hpath : ∀ x ∈ path, Relation.TransGen g.Shows x id) :
    (g.unfold (Node.standIn? name?) order path id).expression.isSome ↔ g.HasOrigin id := by
  induction path, id using g.unfold_induction (Node.standIn? name?) with
  | absent path id hn =>
    have hnone : ¬ g.HasOrigin id := by
      intro h
      obtain ⟨n, hn'⟩ := h.lastNode?
      rw [hn] at hn'
      cases hn'
    simp [unfold_absent hn, hnone]
  | leaf path n x hn hx => simp [unfold_leaf hn hx, hasOrigin_of_standIn? hnames hn hx]
  | cyclic path n hn hx hp =>
    simp [unfold_cyclic hn hx hp, not_hasOrigin_of_cycle (hpath n.id hp)]
  | operation path n op hn hx hp ho _ =>
    have hkind : n.kind.isOutput = false := by
      refine Bool.eq_false_iff.2 fun h => ?_
      rw [(Node.isOutput_iff.1 h).2] at ho
      cases ho
    simp [unfold_operation hn hx hp ho, hasOrigin_of_kind hn hkind]
  | output path n hn hx hp ho ih =>
    have hkind := Node.isOutput_of_standIn? hx ho
    rw [unfold_output hn hx hp ho, hasOrigin_output_iff hn hkind, producer?]
    cases hpe : g.producerEdge? n.id with
    | none => simp
    | some e =>
      have hstep : g.Shows n.id e.source := (shows_iff hn hkind).2 (producer?_of_edge hpe)
      have hpath' : ∀ x ∈ n.id :: path, Relation.TransGen g.Shows x e.source := by
        intro x hx
        obtain rfl | hx := List.mem_cons.1 hx
        · exact .single hstep
        · exact (hpath x hx).tail hstep
      have hedge := ih e hpath'
      rw [← expression_unfoldEdge] at hedge
      simp [hedge]

theorem isSome_expression (order : SlotOrder) (id : NodeId)
    (hnames : ∀ x name, name? x = some name → g.HasOrigin x) :
    (g.unfold (Node.standIn? name?) order [] id).expression.isSome ↔ g.HasOrigin id :=
  isSome_expression_unfold hnames (List.forall_mem_nil _)

instance (g : Graph) (id : NodeId) : Decidable (g.HasOrigin id) :=
  match hn : g.lastNode? id with
  | none => isFalse fun h => by
    obtain ⟨n, hn'⟩ := h.lastNode?
    rw [hn] at hn'
    cases hn'
  | some n =>
    decidable_of_iff ((expand ⟨Index.of g, .lexicographic, []⟩ (depthFor g) [] n []).1.isSome) <| by
      obtain ⟨_, rfl⟩ := mem_of_lastNode? hn
      have hdepth : g.unvisited [] < depthFor g := Nat.lt_succ_of_le List.countP_le_length
      rw [expand_eq hdepth hn, isSome_expression _ _ (by simp [Bindings.name?])]

def shownName? (g : Graph) (o : Options) (n : Node) : Option String :=
  if g.HasOrigin n.id then n.outputName? o else none

theorem outputDefinition?_name (hn : g.lastNode? n.id = some n)
    (hnames : ∀ x name, name? x = some name → g.HasOrigin x) :
    (g.outputDefinition? o name? n).map (·.name) = g.shownName? o n := by
  unfold outputDefinition? shownName?
  cases hname : n.outputName? o with
  | none => simp
  | some name =>
    have horigin := hasOrigin_output_iff hn (Node.isOutput_of_outputName? hname)
    cases hpe : g.producerEdge? n.id with
    | none =>
      have hp := producer?_of_no_edge hpe
      have hnone : ¬ g.HasOrigin n.id := by
        rw [horigin, hp]
        simp
      simp [hp, hnone]
    | some e =>
      have hp := producer?_of_edge hpe
      have he := isSome_expression o.slotOrder e.source hnames
      have hiff : g.HasOrigin n.id ↔ g.HasOrigin e.source := by
        rw [horigin, hp]
        simp
      simp only [outputTree_of_name hname hpe, expression_unfoldEdge, hp, hiff, ← he,
        Option.bind_eq_bind, Option.bind_some]
      cases (g.unfold (Node.standIn? name?) o.slotOrder [] e.source).expression <;> simp

theorem hasOrigin_of_outputDefinition? {d : Definition}
    (hnames : ∀ x name, name? x = some name → g.HasOrigin x)
    (hd : g.outputDefinition? o name? n = some d) : g.HasOrigin d.node := by
  rw [← isSome_expression o.slotOrder d.node hnames, expression_of_outputDefinition? hd,
    Option.isSome_some]

theorem hasOrigin_of_sourceName? {name : String} (h : g.sourceName? o id = some name) :
    g.HasOrigin id := by
  obtain ⟨n, hn, hname⟩ := Option.bind_eq_some_iff.1 h
  obtain ⟨text, hl⟩ := Node.exists_literal_of_sourceName? hname
  exact hasOrigin_of_kind hn (Node.isOutput_eq_false hl)

/-- Whatever outputs come first, nodes that have names have origins, and so no name decides which
outputs are defined. -/
theorem progressOf_names (hid : g.UniqueIds) (outputs : List Node)
    (houtputs : ∀ n ∈ outputs, n ∈ g.nodes) :
    (∀ x name, (g.progressOf o outputs).bindings.name? x = some name → g.HasOrigin x) ∧
      (g.progressOf o outputs).definitions.map (·.name) =
        g.nodes.filterMap (·.sourceName? o) ++ outputs.filterMap (g.shownName? o) := by
  induction outputs using List.reverseRecOn with
  | nil =>
    rw [progressOf_nil, sourceProgress_name? hid, sourceProgress_definitions,
      sourceDefinitions_map_name]
    exact ⟨fun x name => hasOrigin_of_sourceName?, by simp⟩
  | append_singleton outputs n ih =>
    obtain ⟨hnames, hdefs⟩ := ih fun m hm => houtputs m (List.mem_append_left _ hm)
    have hn := lastNode?_of_mem hid (houtputs n (by simp))
    have hname := outputDefinition?_name (o := o) hn hnames
    rw [progressOf_append]
    constructor
    · intro x name hx
      obtain hx | ⟨d, hd, rfl⟩ := Progress.exists_of_name?_addOutput hx
      · exact hnames x name hx
      · exact hasOrigin_of_outputDefinition? hnames hd
    · rw [Progress.addOutput_eq, List.filterMap_append, ← List.append_assoc, ← hdefs]
      cases hd : g.outputDefinition? o (g.progressOf o outputs).bindings.name? n with
      | none => simp [← hname, hd]
      | some d => simp [← hname, hd]

theorem mem_of_mem_order (h : n ∈ (Index.of g).outputOrder.order) : n ∈ g.nodes :=
  List.mem_of_mem_filter ((Index.outputOrder_perm (Index.of g)).mem_iff.1 h)

theorem exists_definition (hid : g.UniqueIds) (hn : n ∈ g.nodes) {name : String}
    (hname : n.outputName? o = some name) (horigin : g.HasOrigin n.id) :
    ∃ d ∈ g.definitions o, d.name = name ∧ g.producer? n.id = some d.node := by
  have hmem : n ∈ (Index.of g).outputOrder.order :=
    (Index.outputOrder_perm (Index.of g)).mem_iff.2
      (List.mem_filter.2 ⟨hn, Node.isOutput_of_outputName? hname⟩)
  obtain ⟨before, after, horder⟩ := List.append_of_mem hmem
  have hbefore : ∀ m ∈ before, m ∈ g.nodes :=
    fun m hm => mem_of_mem_order (by rw [horder]; exact List.mem_append_left _ hm)
  have hdefined := outputDefinition?_name (o := o) (lastNode?_of_mem hid hn)
    (progressOf_names (o := o) hid before hbefore).1
  rw [shownName?, if_pos horigin, hname] at hdefined
  obtain ⟨d, hd, hdname⟩ := Option.map_eq_some_iff.1 hdefined
  refine ⟨d, ?_, hdname, (eq_some_of_outputDefinition? hd).2.1⟩
  have hstart := prefix_progressOf_append (g := g) (o := o) (before ++ [n]) after
  rw [List.append_assoc, List.singleton_append, ← horder, progressOf_append,
    Progress.addOutput_eq, hd] at hstart
  exact hstart.subset (by simp)

/-- The variables are those of the named sources, in the order of the graph, and after them those of
the named outputs with an origin, in the order of the outputs. So neither reuse nor the order of
slots decides which there are. -/
theorem compile_variables_name (hid : g.UniqueIds) :
    (g.compile o).variables.map (·.name) =
        (g.nodes.filterMap (·.sourceName? o) ++
          (Index.of g).outputOrder.order.filterMap (g.shownName? o)).map ("--" ++ ·) ∧
      ∀ reuse order, (g.compile { o with reuseBindings := reuse, slotOrder := order }).variables.map
        (·.name) = (g.compile o).variables.map (·.name) := by
  have hnames : ∀ o : Options, (g.compile o).variables.map (·.name) =
      (g.nodes.filterMap (·.sourceName? o) ++
        (Index.of g).outputOrder.order.filterMap (g.shownName? o)).map ("--" ++ ·) := by
    intro o
    have h := (progressOf_names (o := o) hid _ fun n => mem_of_mem_order).2
    rw [compile_variables, definitions_eq, ← h, List.map_map, List.map_map]
    rfl
  refine ⟨hnames o, fun reuse order => ?_⟩
  rw [hnames, hnames]
  rfl

def passedOn : Graph where
  nodes := [{ id := "y", kind := .output "right" }, { id := "x", kind := .output "left" },
    { id := "b", kind := .output "second" }, { id := "a", kind := .output "first" },
    { id := "d", kind := .output "loose" }, { id := "m", kind := .operation .mix },
    { id := "c", kind := .inputColor "base" "red" }, { id := "u", kind := .inputNumber "" 1.0 }]
  edges := [connection "c" "m" none, connection "m" "m" none, connection "m" "a" none,
    connection "a" "b" none, connection "x" "y" none, connection "y" "x" none,
    connection "ghost" "d" none]

theorem compile_variables_name_passedOn :
    passedOn.UniqueIds ∧ ¬ passedOn.Acyclic ∧
      (passedOn.compile {}).variables.map (·.name) = ["--base", "--first", "--second"] ∧
      (passedOn.compile {}).variables.map (·.name) =
        (passedOn.nodes.filterMap (·.sourceName? {}) ++
          (Index.of passedOn).outputOrder.order.filterMap (passedOn.shownName? {})).map
            ("--" ++ ·) := by
  have hid : passedOn.UniqueIds := by decide
  exact ⟨hid, by decide, by decide, (compile_variables_name hid).1⟩

end Graph
end ColorGraph
