import ColorGraph.Proofs.OutputOrder
import Mathlib.Data.List.Lex
import Mathlib.Data.List.Sort
import Mathlib.Order.Bounds.Basic
/-!
How far the order of outputs departs from that of the graph. Main statement: where no outputs wait
for one another, it is the first of all orders that have each output after those it depends on, when
orders are compared by the places that the graph has its outputs in.
-/

set_option autoImplicit false

namespace ColorGraph

namespace OutputOrder

variable {α : Type} {dependsOn : α → α → Bool} {pending candidates others order : List α} {a b : α}

structure Extends (depends : α → α → Prop) (pending order : List α) : Prop where
  perm : order.Perm pending
  after : order.Pairwise fun a b => ¬ depends a b

theorem Extends.of_cons (hself : ∀ c, dependsOn c c = false)
    (h : Extends (fun a b => dependsOn a b = true) pending (b :: order)) :
    (∀ c ∈ pending, dependsOn b c = false) ∧
      ∀ others, (b :: others).Perm pending →
        Extends (fun a b => dependsOn a b = true) others order := by
  obtain ⟨hb, hrest⟩ := List.pairwise_cons.1 h.after
  constructor
  · intro c hc
    obtain rfl | hc := List.mem_cons.1 (h.perm.mem_iff.2 hc)
    · exact hself c
    · exact Bool.eq_false_iff.2 (hb c hc)
  · intro others hothers
    exact ⟨(h.perm.trans hothers.symm).cons_inv, hrest⟩

theorem le_of_firstReady [LinearOrder α] (hsorted : candidates.Pairwise (· < ·))
    (h : firstReady dependsOn pending candidates = some (a, others)) (hb : b ∈ candidates)
    (hready : ∀ c ∈ pending, dependsOn b c = false) : a ≤ b := by
  obtain ⟨before, after, rfl, rfl, hwait, _⟩ := firstReady_eq_some_iff.1 h
  obtain hb | hb := List.mem_append.1 hb
  · obtain ⟨d, hd, hbd⟩ := hwait b hb
    rw [hready d hd] at hbd
    cases hbd
  · obtain rfl | hb := List.mem_cons.1 hb
    · exact le_refl _
    · exact ((List.pairwise_cons.1 (List.pairwise_append.1 hsorted).2.1).1 b hb).le

/-- Taking the first that is ready each time is ahead of every other order: at the first place where
two orders part, the other one takes something that is ready as well. -/
theorem arrange_le [LinearOrder α] (hself : ∀ c, dependsOn c c = false) {steps : Nat}
    (hsorted : pending.Pairwise (· < ·))
    (h : Extends (fun a b => dependsOn a b = true) pending order) :
    (arrange dependsOn steps pending).1 ≤ order := by
  have hnil : ∀ order : List α, [] ≤ order := fun order => not_lt.1 (List.not_lt_nil order)
  induction steps generalizing pending order with
  | zero => exact hnil order
  | succ steps ih =>
    cases hready : firstReady dependsOn pending pending with
    | none =>
      rw [arrange_of_none_ready _ hready]
      exact hnil order
    | some result =>
      obtain ⟨a, others⟩ := result
      have hperm := perm_of_firstReady hready
      rw [arrange_of_ready steps hready]
      cases order with
      | nil => cases hperm.length_eq.trans h.perm.symm.length_eq
      | cons b order =>
        obtain ⟨hfree, hrest⟩ := h.of_cons hself
        have hb : b ∈ pending := h.perm.mem_iff.1 List.mem_cons_self
        obtain hlt | rfl := (le_of_firstReady hsorted hready hb hfree).lt_or_eq
        · exact le_of_lt (.rel hlt)
        · have hothers := hsorted.sublist (sublist_of_firstReady hready)
          exact List.cons_le_cons a (ih hothers (hrest others hperm))

end OutputOrder

namespace Graph

variable {g : Graph}

abbrev Place (g : Graph) : Type :=
  Fin (Index.of g).outputs.length

def outputAt (g : Graph) (i : g.Place) : Node :=
  (Index.of g).outputs.get i

/-- An order of the outputs, told by their places: all of them, each after those it depends on. -/
def IsOrder (g : Graph) : List g.Place → Prop :=
  OutputOrder.Extends (fun i j => g.DependsOn (g.outputAt i) (g.outputAt j)) (List.finRange _)

def arrangedPlaces (g : Graph) : List g.Place × List g.Place :=
  OutputOrder.arrange (fun i j => g.waitsFor (g.outputAt i) (g.outputAt j))
    (Index.of g).outputs.length (List.finRange _)

theorem waitsFor_self (g : Graph) (n : Node) : g.waitsFor n n = false :=
  Bool.eq_false_iff.2 fun h => (waitsFor_iff.1 h).1 rfl

theorem arrangedOutputs_eq : g.arrangedOutputs =
    (g.arrangedPlaces.1.map g.outputAt, g.arrangedPlaces.2.map g.outputAt) := by
  have houtputs : (Index.of g).outputs = (List.finRange _).map g.outputAt :=
    (List.map_get_finRange _).symm
  rw [arrangedOutputs]
  conv_lhs => rw [houtputs]
  rw [List.length_map, List.length_finRange, OutputOrder.arrange_map]
  rfl

theorem isOrder_iff {order : List g.Place} : g.IsOrder order ↔ OutputOrder.Extends
    (fun i j => g.waitsFor (g.outputAt i) (g.outputAt j) = true) (List.finRange _) order := by
  simp only [IsOrder, waitsFor_iff]

theorem isOrder_arrangedPlaces (h : g.arrangedPlaces.2 = []) : g.IsOrder g.arrangedPlaces.1 := by
  refine isOrder_iff.2 ⟨?_, ?_⟩
  · have hperm := OutputOrder.arrange_perm (fun i j => g.waitsFor (g.outputAt i) (g.outputAt j))
      (Index.of g).outputs.length (List.finRange _)
    rwa [← arrangedPlaces, h, List.append_nil] at hperm
  · exact (OutputOrder.arrange_pairwise _ _).1.imp fun hab => Bool.eq_false_iff.1 hab

/-- When no outputs are left to wait for one another, the order of the outputs is the least of all
orders that have each output after those it depends on. -/
theorem outputOrder_isLeast (h : (Index.of g).outputOrder.cycle = []) :
    ∃ order : List g.Place, (Index.of g).outputOrder.order = order.map g.outputAt ∧
      IsLeast {order | g.IsOrder order} order := by
  rw [outputOrder_eq, arrangedOutputs_eq] at h ⊢
  have hleft : g.arrangedPlaces.2 = [] := List.map_eq_nil_iff.1 (List.map_eq_nil_iff.1 h)
  have hself : ∀ i : g.Place, g.waitsFor (g.outputAt i) (g.outputAt i) = false :=
    fun i => g.waitsFor_self _
  refine ⟨g.arrangedPlaces.1, by simp [hleft], isOrder_arrangedPlaces hleft, fun order horder => ?_⟩
  exact OutputOrder.arrange_le hself (List.sortedLT_finRange _).pairwise (isOrder_iff.1 horder)

def stairs : Graph where
  nodes := [{ id := "c", kind := .inputColor "" "red" }, { id := "l", kind := .operation .lighten },
    { id := "s", kind := .operation .saturate }, { id := "top", kind := .output "bright" },
    { id := "u", kind := .output "loose" }, { id := "mid", kind := .output "light" },
    { id := "mid", kind := .output "pale" }, { id := "low", kind := .output "plain" }]
  edges := [connection "c" "l" none, connection "l" "s" none, connection "s" "top" none,
    connection "l" "mid" none, connection "c" "low" none]

theorem outputOrder_isLeast_stairs :
    ¬ (stairs.nodes.map (·.id)).Nodup ∧ (Index.of stairs).outputOrder.cycle = [] ∧
      (Index.of stairs).outputOrder.order.map (·.kind.exportName?) =
        [some "loose", some "plain", some "light", some "pale", some "bright"] ∧
      ∃ order : List stairs.Place,
        (Index.of stairs).outputOrder.order = order.map stairs.outputAt ∧
          IsLeast {order | stairs.IsOrder order} order := by
  have h : (Index.of stairs).outputOrder.cycle = [] := by decide
  exact ⟨by decide, h, by decide, outputOrder_isLeast h⟩

end Graph
end ColorGraph
