import ColorGraph.Proofs.OutputOrder
/-!
Outputs of one producer. Main statement: they wait for each other just when the producer is upstream
of itself; where no output has another producer, the order of the graph is kept unless this happens,
and if it does, the outputs without a producer come first.
-/

set_option autoImplicit false

namespace ColorGraph

namespace OutputOrder

variable {α : Type} {dependsOn : α → α → Bool} {pending others : List α} {steps : Nat}
  {waits : α → Bool} {a : α}

theorem filter_free_of_firstReady (hfree : ∀ a b, waits a = false → dependsOn a b = false)
    (h : firstReady dependsOn pending pending = some (a, others)) (ha : waits a = false) :
    pending.filter (!waits ·) = a :: others.filter (!waits ·) := by
  obtain ⟨before, after, rfl, rfl, hbefore, _⟩ := firstReady_eq_some_iff.1 h
  have hnone : before.filter (!waits ·) = [] := by
    refine List.filter_eq_nil_iff.2 fun c hc hwait => ?_
    obtain ⟨b, _, hcb⟩ := hbefore c hc
    rw [hfree c b (by simpa using hwait)] at hcb
    cases hcb
  simp [hnone, ha]

/-- Where some wait for one another and the others wait for nothing, the others are taken out as
they come, and those that wait are left. -/
theorem arrange_partition (hsteps : pending.length ≤ steps)
    (hfree : ∀ a b, waits a = false → dependsOn a b = false)
    (hwaits : ∀ a ∈ pending, waits a = true →
      ∃ b ∈ pending, waits b = true ∧ dependsOn a b = true) :
    arrange dependsOn steps pending = (pending.filter (!waits ·), pending.filter waits) := by
  revert hwaits
  refine arrange_induction ?stuck ?ready hsteps
  case stuck =>
    intro pending hstuck _
    have hall : ∀ a ∈ pending, waits a = true := by
      intro a ha
      obtain ⟨b, _, hab⟩ := hstuck a ha
      by_contra hwait
      rw [hfree a b (Bool.eq_false_iff.2 hwait)] at hab
      cases hab
    rw [List.filter_eq_self.2 hall, List.filter_eq_nil_iff.2 fun a ha => by simp [hall a ha]]
  case ready =>
    intro pending a others ordered left hready ih hwaits
    have hperm := perm_of_firstReady hready
    have ha : waits a = false := by
      refine Bool.eq_false_iff.2 fun hwait => ?_
      obtain ⟨b, hb, _, hab⟩ := hwaits a (hperm.mem_iff.1 List.mem_cons_self) hwait
      rw [not_depends_of_firstReady hready b hb] at hab
      cases hab
    have hothers : ∀ c ∈ others, waits c = true →
        ∃ b ∈ others, waits b = true ∧ dependsOn c b = true := by
      intro c hc hwait
      obtain ⟨b, hb, hbwait, hcb⟩ :=
        hwaits c (hperm.mem_iff.1 (List.mem_cons_of_mem _ hc)) hwait
      obtain rfl | hb := List.mem_cons.1 (hperm.mem_iff.2 hb)
      · rw [ha] at hbwait
        cases hbwait
      · exact ⟨b, hb, hbwait, hcb⟩
    obtain ⟨rfl, rfl⟩ := Prod.mk.inj (ih hothers)
    rw [filter_free_of_firstReady hfree hready ha, filter_of_firstReady hready ha]

theorem arrange_of_free (hsteps : pending.length ≤ steps)
    (hfree : ∀ a ∈ pending, ∀ b ∈ pending, dependsOn a b = false) :
    arrange dependsOn steps pending = (pending, []) := by
  have hnone : arrange (fun _ _ : α => false) steps pending =
      (pending.filter fun _ => true, pending.filter fun _ => false) :=
    @arrange_partition α _ pending steps (fun _ => false) hsteps (fun _ _ _ => rfl)
      fun _ _ h => by cases h
  rw [arrange_congr hfree, hnone, List.filter_true, List.filter_false]

end OutputOrder

namespace Graph

variable {g : Graph} {p : NodeId} {a b n : Node}

def isConnected (g : Graph) (n : Node) : Bool :=
  (g.producer? n.id).isSome

/-- The producer is upstream of itself and has two outputs, under different ids. -/
def Entwines (g : Graph) (p : NodeId) : Prop :=
  g.Upstream p p ∧ ∃ a ∈ (Index.of g).outputs, ∃ b ∈ (Index.of g).outputs,
    g.producer? a.id = some p ∧ g.producer? b.id = some p ∧ a.id ≠ b.id

instance (g : Graph) (p : NodeId) : Decidable (g.Entwines p) :=
  inferInstanceAs (Decidable (_ ∧ _))

def IsOnlyProducer (g : Graph) (p : NodeId) : Prop :=
  ∀ n ∈ (Index.of g).outputs, ∀ q ∈ g.producer? n.id, q = p

instance (g : Graph) (p : NodeId) : Decidable (g.IsOnlyProducer p) :=
  inferInstanceAs (Decidable (∀ _, _))

theorem dependsOn_iff_of_producer (ha : g.producer? a.id = some p)
    (hb : g.producer? b.id = some p) : g.DependsOn a b ↔ a.id ≠ b.id ∧ g.Upstream p p := by
  simp [DependsOn, ha, hb]

theorem IsOnlyProducer.not_waitsFor (h : g.IsOnlyProducer p) (hp : ¬ g.Entwines p)
    (ha : a ∈ (Index.of g).outputs) (hb : b ∈ (Index.of g).outputs) :
    g.waitsFor a b = false := by
  refine Bool.eq_false_iff.2 fun hwaits => hp ?_
  obtain ⟨hne, q, r, hq, hr, hup⟩ := waitsFor_iff.1 hwaits
  obtain rfl := h a ha q hq
  obtain rfl := h b hb r hr
  exact ⟨hup, a, ha, b, hb, hq, hr, hne⟩

theorem not_waitsFor_of_not_isConnected (ha : g.isConnected a = false) :
    g.waitsFor a b = false := by
  refine Bool.eq_false_iff.2 fun hwaits => ?_
  obtain ⟨_, q, _, hq, _⟩ := waitsFor_iff.1 hwaits
  rw [isConnected, hq] at ha
  cases ha

theorem IsOnlyProducer.exists_waitsFor (h : g.IsOnlyProducer p) (hp : g.Entwines p)
    (hn : n ∈ (Index.of g).outputs) (hc : g.isConnected n = true) :
    ∃ m ∈ (Index.of g).outputs, g.isConnected m = true ∧ g.waitsFor n m = true := by
  obtain ⟨hup, a, ha, b, hb, hap, hbp, hne⟩ := hp
  obtain ⟨q, hq⟩ := Option.isSome_iff_exists.1 hc
  obtain rfl := h n hn q hq
  have hwaits : ∀ m : Node, g.producer? m.id = some q → n.id ≠ m.id → g.waitsFor n m = true :=
    fun m hm hnm => waitsFor_iff.2 ((dependsOn_iff_of_producer hq hm).2 ⟨hnm, hup⟩)
  by_cases hna : n.id = a.id
  · exact ⟨b, hb, by rw [isConnected, hbp]; rfl, hwaits b hbp (hna ▸ hne)⟩
  · exact ⟨a, ha, by rw [isConnected, hap]; rfl, hwaits a hap hna⟩

/-- Two outputs of one producer wait for each other just when the producer is upstream of itself. So
where no output has another producer, the order of the graph is kept and no cycle is told, unless
outputs of a producer upstream of itself differ in their ids: these then come last, as a cycle. -/
theorem outputOrder_of_producer (g : Graph) (p : NodeId) :
    (∀ a b : Node, g.producer? a.id = some p → g.producer? b.id = some p →
      (g.waitsFor a b = true ↔ a.id ≠ b.id ∧ g.Upstream p p)) ∧
    (g.IsOnlyProducer p →
      (¬ g.Entwines p → (Index.of g).outputOrder = ⟨(Index.of g).outputs, []⟩) ∧
      (g.Entwines p → (Index.of g).outputOrder =
        ⟨(Index.of g).outputs.filter (!g.isConnected ·) ++
            (Index.of g).outputs.filter g.isConnected,
          ((Index.of g).outputs.filter g.isConnected).map (·.id)⟩)) := by
  refine ⟨fun a b ha hb => waitsFor_iff.trans (dependsOn_iff_of_producer ha hb), fun h => ⟨?_, ?_⟩⟩
  · intro hp
    have harranged : g.arrangedOutputs = ((Index.of g).outputs, []) :=
      OutputOrder.arrange_of_free (Nat.le_refl _) fun a ha b hb => h.not_waitsFor hp ha hb
    rw [outputOrder_eq, harranged, List.append_nil, List.map_nil]
  · intro hp
    have harranged : g.arrangedOutputs = ((Index.of g).outputs.filter (!g.isConnected ·),
        (Index.of g).outputs.filter g.isConnected) :=
      OutputOrder.arrange_partition (Nat.le_refl _)
        (fun _ _ hc => not_waitsFor_of_not_isConnected hc) fun _ hn hc => h.exists_waitsFor hp hn hc
    rw [outputOrder_eq, harranged]

def fountain : Graph where
  nodes := [{ id := "m", kind := .operation .mix }, { id := "a", kind := .output "first" },
    { id := "u", kind := .output "loose" }, { id := "b", kind := .output "second" }]
  edges := [connection "m" "m" none, connection "m" "a" none, connection "m" "b" none]

theorem outputOrder_of_producer_fountain :
    fountain.IsOnlyProducer "m" ∧ fountain.Entwines "m" ∧
      (Index.of fountain).outputs.map (·.id) = ["a", "u", "b"] ∧
      (Index.of fountain).outputOrder.order.map (·.id) = ["u", "a", "b"] ∧
      (Index.of fountain).outputOrder.cycle = ["a", "b"] := by
  have honly : fountain.IsOnlyProducer "m" := by decide
  have hp : fountain.Entwines "m" := by decide
  have h := ((outputOrder_of_producer fountain "m").2 honly).2 hp
  refine ⟨honly, hp, by decide, ?_, ?_⟩
  · rw [h]
    decide
  · rw [h]
    decide

end Graph
end ColorGraph
