import ColorGraph.Proofs.Reporting
/-!
Outputs that no variable comes from. Main statement: a diagnostic is about each of them, or about an
output that it shows through outputs only; it need not be about the output itself.
-/

set_option autoImplicit false

namespace ColorGraph

open Compile Relation

namespace Graph

variable {g : Graph} {o : Options} {order : SlotOrder} {path : List NodeId} {id : NodeId} {n : Node}
  {name? : NodeId → Option String}

/-- Compiling the output, when its turn comes, adds no variable. -/
def IsInert (g : Graph) (o : Options) (n : Node) : Prop :=
  ∀ before after, (Index.of g).outputOrder.order = before ++ n :: after →
    (progress (Index.of g) o (before ++ [n])).definitions =
      (progress (Index.of g) o before).definitions

/-- The diagnostic is about the node, or about an edge into it. -/
def Blames (g : Graph) (d : Diagnostic) (id : NodeId) : Prop :=
  d = .unnamedNode id ∨ d = .disconnectedOutput id ∨ d = .cyclicInput id ∨
    ∃ e ∈ g.edges, e.target = id ∧ ∃ node, d = .missingNode e.id node

def ShowsOutput (g : Graph) (a b : NodeId) : Prop :=
  g.Shows a b ∧ ∃ n, g.lastNode? b = some n ∧ n.kind.isOutput = true

theorem exists_order_split (hn : n ∈ g.nodes) (hk : n.kind.isOutput = true) :
    ∃ before after, (Index.of g).outputOrder.order = before ++ n :: after :=
  List.append_of_mem (mem_order_iff.2 ⟨hn, hk⟩)

theorem mem_of_order_split {before after : List Node}
    (h : (Index.of g).outputOrder.order = before ++ n :: after) : ∀ m ∈ before, m ∈ g.nodes :=
  fun _ hm => mem_of_mem_order (h ▸ List.mem_append_left _ hm)

theorem isInert_iff (hid : g.UniqueIds) (hn : n ∈ g.nodes) (hk : n.kind.isOutput = true) :
    g.IsInert o n ↔ g.shownName? o n = none := by
  have hstep : ∀ before after, (Index.of g).outputOrder.order = before ++ n :: after →
      ((g.progressOf o (before ++ [n])).definitions = (g.progressOf o before).definitions ↔
        g.shownName? o n = none) := by
    intro before after horder
    have hnames := (progressOf_names (o := o) hid before (mem_of_order_split horder)).1
    rw [progressOf_append, Progress.addOutput_eq,
      ← outputDefinition?_name (lastNode?_of_mem hid hn) hnames, List.append_right_eq_self,
      Option.toList_eq_nil_iff, Option.map_eq_none_iff]
  constructor
  · intro h
    obtain ⟨before, after, horder⟩ := exists_order_split hn hk
    exact (hstep before after horder).1 (h before after horder)
  · exact fun h before after horder => (hstep before after horder).2 h

theorem exists_names_of_output (hid : g.UniqueIds) (hn : n ∈ g.nodes)
    (hk : n.kind.isOutput = true) : ∃ name? : NodeId → Option String,
      (∀ x name, name? x = some name → g.HasOrigin x) ∧
        ∀ d ∈ (g.outputTree name? o.slotOrder n).reports, d ∈ (g.compile o).diagnostics := by
  obtain ⟨before, after, horder⟩ := exists_order_split hn hk
  have hbefore := mem_of_order_split horder
  refine ⟨_, (progressOf_names (o := o) hid before hbefore).1, fun d hd => ?_⟩
  refine mem_diagnostics_iff.2 (.inr ?_)
  have hafter : g.findings o = (g.progressOf o ((before ++ [n]) ++ after)).log := by
    rw [findings, horder, List.append_assoc, List.singleton_append]
  rw [hafter]
  refine log_subset_append ?_
  rw [log_progressOf_append]
  exact Log.mem_reportAll.2 (.inr hd)

theorem exists_blame_of_unnamed (hid : g.UniqueIds) (hn : n ∈ g.nodes)
    (hk : n.kind.isOutput = true) (hname : ¬ n.IsNamedOutput) :
    ∃ d ∈ (g.compile o).diagnostics, g.Blames d n.id := by
  obtain ⟨name?, -, hreports⟩ := exists_names_of_output (o := o) hid hn hk
  have hkind : n.kind = .output "" := by
    unfold Node.IsNamedOutput at hname
    cases hkind : n.kind <;> simp_all [Node.Kind.isOutput]
  exact ⟨_, hreports _ ((mem_reports_outputTree hk).2 (.inl ⟨hkind, rfl⟩)), .inl rfl⟩

theorem exists_blame_of_no_edge (hid : g.UniqueIds) (hn : n ∈ g.nodes)
    (hk : n.kind.isOutput = true) (he : g.producerEdge? n.id = none) :
    ∃ d ∈ (g.compile o).diagnostics, g.Blames d n.id := by
  by_cases hname : n.IsNamedOutput
  · obtain ⟨name?, -, hreports⟩ := exists_names_of_output (o := o) hid hn hk
    exact ⟨_, hreports _ ((mem_reports_outputTree hk).2 (.inr ⟨hname, .inl ⟨he, rfl⟩⟩)),
      .inr (.inl rfl)⟩
  · exact exists_blame_of_unnamed hid hn hk hname

theorem showsOutput_of_not_hasOrigin {e : Edge} {m : Node} (hn : g.lastNode? n.id = some n)
    (hk : n.kind.isOutput = true) (horigin : ¬ g.HasOrigin n.id)
    (hpe : g.producerEdge? n.id = some e) (hm : g.lastNode? e.source = some m) :
    g.ShowsOutput n.id e.source ∧ ¬ g.HasOrigin e.source := by
  have hno : ¬ g.HasOrigin e.source := fun h =>
    horigin ((hasOrigin_output_iff hn hk).2 ⟨_, producer?_of_edge hpe, h⟩)
  refine ⟨⟨(shows_iff hn hk).2 (producer?_of_edge hpe), m, hm, ?_⟩, hno⟩
  by_contra h
  exact hno (hasOrigin_of_kind hm (Bool.eq_false_iff.2 h))

/-- Without an origin, a walk from output to output ends at one that no edge goes into, or in a gap
that is reported of the last of them. -/
theorem exists_blame_of_not_hasOrigin (hnames : ∀ x name, name? x = some name → g.HasOrigin x)
    (hn : ∃ n, g.lastNode? id = some n ∧ n.kind.isOutput = true) (horigin : ¬ g.HasOrigin id) :
    ∃ z, ReflTransGen g.ShowsOutput id z ∧ (g.producerEdge? z = none ∨
      ∃ d ∈ (g.unfold (Node.standIn? name?) order path id).reports, g.Blames d z) := by
  induction path, id using g.walk_induction name? with
  | absent path id hnone =>
    obtain ⟨n, hn, _⟩ := hn
    rw [hnone] at hn
    cases hn
  | leaf path n x hn' hx =>
    obtain ⟨m, hm, hk⟩ := hn
    obtain rfl := Option.some.inj (hn'.symm.trans hm)
    cases hname : name? n.id with
    -- The walk ends at names, but only what has an origin has got one.
    | some name => exact absurd (hnames n.id name hname) horigin
    | none =>
      rw [Node.standIn?_unnamed hname, (Node.isOutput_iff.1 hk).1] at hx
      cases hx
  | cyclic path n hn' hx hp =>
    refine ⟨n.id, .refl, .inr ⟨_, ?_, .inr (.inr (.inl rfl))⟩⟩
    simp [unfold_cyclic hn' hx hp]
  | inner path n hn' hx hp ih =>
    obtain ⟨m, hm, hk⟩ := hn
    obtain rfl := Option.some.inj (hn'.symm.trans hm)
    cases hpe : g.producerEdge? n.id with
    | none => exact ⟨n.id, .refl, .inl hpe⟩
    | some e =>
      obtain ⟨he, ht⟩ := follows_of_producerEdge? hn' hk hpe
      have hreports : ∀ d,
          d ∈ (g.unfoldEdge (Node.standIn? name?) order (n.id :: path) e).reports →
            d ∈ (g.unfold (Node.standIn? name?) order path n.id).reports := fun d hd =>
        (mem_reports_unfold hn' hx hp).2 ⟨e, (mem_followedEdges hn').2 ⟨he, ht⟩, hd⟩
      cases hs : g.lastNode? e.source with
      | none =>
        refine ⟨n.id, .refl, .inr ⟨_, hreports _ (mem_reports_unfoldEdge.2 (.inr ⟨hs, rfl⟩)), ?_⟩⟩
        exact .inr (.inr (.inr ⟨e, he.1, ht, _, rfl⟩))
      | some m =>
        obtain ⟨hstep, hno⟩ := showsOutput_of_not_hasOrigin hn' hk horigin hpe hs
        obtain ⟨z, hz, hblame⟩ := ih e hstep.2 hno
        refine ⟨z, .head hstep hz, hblame.imp_right ?_⟩
        rintro ⟨d, hd, hdz⟩
        exact ⟨d, hreports d (mem_reports_unfoldEdge.2 (.inl hd)), hdz⟩

theorem isOutput_of_showsOutput {a z : NodeId} (h : ReflTransGen g.ShowsOutput a z)
    (ha : ∃ n, g.lastNode? a = some n ∧ n.kind.isOutput = true) :
    ∃ n, g.lastNode? z = some n ∧ n.kind.isOutput = true := by
  cases h.cases_tail with
  | inl heq => exact heq ▸ ha
  | inr hstep =>
    obtain ⟨_, _, _, hz⟩ := hstep
    exact hz

theorem exists_blame_of_isNamedOutput (hid : g.UniqueIds) (hn : n ∈ g.nodes)
    (hname : n.IsNamedOutput) (horigin : ¬ g.HasOrigin n.id) :
    ∃ z, ReflTransGen g.ShowsOutput n.id z ∧ (g.producerEdge? z = none ∨
      ∃ d ∈ (g.compile o).diagnostics, g.Blames d z) := by
  have hk := hname.isOutput
  have hlast := lastNode?_of_mem hid hn
  obtain ⟨name?, hnames, hreports⟩ := exists_names_of_output (o := o) hid hn hk
  cases hpe : g.producerEdge? n.id with
  | none => exact ⟨n.id, .refl, .inl hpe⟩
  | some e =>
    have hedge : ∀ d ∈ (g.unfoldEdge (Node.standIn? name?) o.slotOrder [] e).reports,
        d ∈ (g.compile o).diagnostics := fun d hd =>
      hreports d ((mem_reports_outputTree hk).2 (.inr ⟨hname, .inr ⟨e, hpe, hd⟩⟩))
    obtain ⟨hfollows, ht⟩ := follows_of_producerEdge? hlast hk hpe
    cases hs : g.lastNode? e.source with
    | none =>
      exact ⟨n.id, .refl, .inr ⟨_, hedge _ (mem_reports_unfoldEdge.2 (.inr ⟨hs, rfl⟩)),
        .inr (.inr (.inr ⟨e, hfollows.1, ht, _, rfl⟩))⟩⟩
    | some m =>
      obtain ⟨hstep, hno⟩ := showsOutput_of_not_hasOrigin hlast hk horigin hpe hs
      have hsource : ∃ z, ReflTransGen g.ShowsOutput e.source z ∧ (g.producerEdge? z = none ∨
          ∃ d ∈ (g.unfold (Node.standIn? name?) o.slotOrder [] e.source).reports, g.Blames d z) :=
        exists_blame_of_not_hasOrigin hnames hstep.2 hno
      obtain ⟨z, hz, hblame⟩ := hsource
      refine ⟨z, .head hstep hz, hblame.imp_right ?_⟩
      rintro ⟨d, hd, hdz⟩
      exact ⟨d, hedge d (mem_reports_unfoldEdge.2 (.inl hd)), hdz⟩

/-- Every output that no variable comes from, or another output that its value is to come from
through outputs only, is one that a diagnostic is about. -/
theorem exists_blame_of_isInert (hid : g.UniqueIds) (hn : n ∈ g.nodes)
    (hk : n.kind.isOutput = true) (h : g.IsInert o n) :
    ∃ z, ReflTransGen g.ShowsOutput n.id z ∧ ∃ d ∈ (g.compile o).diagnostics, g.Blames d z := by
  by_cases hname : n.IsNamedOutput
  · have horigin : ¬ g.HasOrigin n.id := by
      intro horigin
      obtain ⟨name, hshown⟩ := Node.isNamedOutput_iff.1 hname
      have hnone := (isInert_iff hid hn hk).1 h
      rw [shownName?, if_pos horigin, hshown] at hnone
      cases hnone
    obtain ⟨z, hz, hnoEdge | hblame⟩ := exists_blame_of_isNamedOutput (o := o) hid hn hname horigin
    · obtain ⟨m, hm, hmk⟩ := isOutput_of_showsOutput hz ⟨n, lastNode?_of_mem hid hn, hk⟩
      obtain ⟨hmem, rfl⟩ := mem_of_lastNode? hm
      exact ⟨m.id, hz, exists_blame_of_no_edge hid hmem hmk hnoEdge⟩
    · exact ⟨z, hz, hblame⟩
  · exact ⟨n.id, .refl, exists_blame_of_unnamed hid hn hk hname⟩

def echo : Graph where
  nodes := [{ id := "z", kind := .output "third" }, { id := "x", kind := .output "left" },
    { id := "y", kind := .output "right" }, { id := "c", kind := .inputColor "base" "red" },
    { id := "s", kind := .output "shown" }]
  edges := [connection "x" "z" none, connection "y" "x" none, connection "x" "y" none,
    connection "c" "s" none]

theorem exists_blame_of_isInert_echo :
    echo.UniqueIds ∧ ∃ n ∈ echo.nodes, n.id = "z" ∧ n.kind.isOutput = true ∧ echo.IsInert {} n ∧
      (echo.compile {}).variables ≠ [] ∧
      ∃ z, ReflTransGen echo.ShowsOutput "z" z ∧
        ∃ d ∈ (echo.compile {}).diagnostics, echo.Blames d z := by
  have hid : echo.UniqueIds := by decide
  have hn : { id := "z", kind := .output "third" } ∈ echo.nodes := .head _
  have hinert := (isInert_iff (o := {}) hid hn rfl).2 (by decide)
  exact ⟨hid, _, hn, rfl, rfl, hinert, by decide, exists_blame_of_isInert hid hn rfl hinert⟩

def relay : Graph where
  nodes := [{ id := "a", kind := .output "first" }, { id := "b", kind := .output "second" }]
  edges := [connection "b" "a" none]

/-- Only the output that nothing feeds is reported. -/
theorem not_blames_relay :
    relay.UniqueIds ∧ ∃ n ∈ relay.nodes, n.kind.isOutput = true ∧ relay.IsInert {} n ∧
      ∀ d ∈ (relay.compile {}).diagnostics, ¬ relay.Blames d n.id := by
  have hid : relay.UniqueIds := by decide
  have hn : { id := "a", kind := .output "first" } ∈ relay.nodes := .head _
  have hdiag : (relay.compile {}).diagnostics = [.disconnectedOutput "b"] := by decide
  refine ⟨hid, _, hn, rfl, (isInert_iff hid hn rfl).2 (by decide), ?_⟩
  rw [hdiag, List.forall_mem_singleton]
  simp [Blames]

end Graph
end ColorGraph
