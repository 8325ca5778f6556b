import ColorGraph.Graph.SlotOrder
import Mathlib.Data.List.Nodup
/-!
Handles in order. Main statements: in both slot orders handles compare by a total order in which
only equal texts are equal; edges of one handle are left in the order they come in; and edges with
different handles are sorted in one way only, whatever order they come in.
-/

set_option autoImplicit false

namespace ColorGraph

def Edge.slot (e : Edge) : String :=
  e.targetHandle.getD ""

namespace SlotOrder

variable {order : SlotOrder} {a b : Option String} {e f : Edge} {es fs : List Edge}

theorem compare_lexicographic :
    lexicographic.compare = compareOn fun handle => handle.getD "" :=
  rfl

theorem compare_numeric : numeric.compare =
    compareLex (compareOn fun handle => slotIndex? (handle.getD ""))
      (compareOn fun handle => handle.getD "") :=
  rfl

instance (order : SlotOrder) : Std.TransCmp order.compare :=
  match order with
  | lexicographic => inferInstanceAs (Std.TransCmp (compareOn _))
  | numeric => inferInstanceAs (Std.TransCmp (compareLex (compareOn _) (compareOn _)))

theorem compare_eq_eq_iff : order.compare a b = .eq ↔ a.getD "" = b.getD "" := by
  cases order with
  | lexicographic =>
    rw [compare_lexicographic, compareOn, Std.LawfulEqOrd.compare_eq_iff_eq]
  | numeric =>
    simp only [compare_numeric, compareLex, compareOn, Ordering.then_eq_eq,
      Std.LawfulEqOrd.compare_eq_iff_eq]
    exact ⟨And.right, fun h => ⟨congrArg slotIndex? h, h⟩⟩

theorem precedes_of_not_precedes (h : ¬ order.precedes e f = true) :
    order.precedes f e = true := by
  have hswap : order.compare f.targetHandle e.targetHandle =
      (order.compare e.targetHandle f.targetHandle).swap := Std.OrientedCmp.eq_swap
  unfold precedes at h ⊢
  rw [hswap]
  cases hcompare : order.compare e.targetHandle f.targetHandle with
  | gt => rfl
  | lt | eq => exact absurd (hcompare ▸ rfl) h

theorem precedes_trans {d : Edge} (hde : order.precedes d e = true)
    (hef : order.precedes e f = true) : order.precedes d f = true :=
  Std.TransCmp.isLE_trans hde hef

theorem slot_eq_of_precedes (hef : order.precedes e f = true) (hfe : order.precedes f e = true) :
    e.slot = f.slot :=
  compare_eq_eq_iff.1 (Std.OrientedCmp.isLE_antisymm hef hfe)

theorem place_pairwise (e : Edge) (h : es.Pairwise (order.precedes · · = true)) :
    (order.place e es).Pairwise (order.precedes · · = true) := by
  induction es with
  | nil => exact List.pairwise_singleton _ _
  | cons f rest ih =>
    obtain ⟨hf, hrest⟩ := List.pairwise_cons.1 h
    unfold place
    split
    next hef =>
      refine List.pairwise_cons.2 ⟨?_, h⟩
      exact List.forall_mem_cons.2 ⟨hef, fun d hd => precedes_trans hef (hf d hd)⟩
    next hef =>
      refine List.pairwise_cons.2 ⟨fun d hd => ?_, ih hrest⟩
      obtain rfl | hd := List.mem_cons.1 ((place_perm order e rest).mem_iff.1 hd)
      · exact precedes_of_not_precedes hef
      · exact hf d hd

theorem sort_pairwise (order : SlotOrder) (es : List Edge) :
    (order.sort es).Pairwise (order.precedes · · = true) := by
  induction es with
  | nil => exact List.Pairwise.nil
  | cons e rest ih => exact place_pairwise e ih

theorem slot_ne_of_not_precedes (h : ¬ order.precedes e f = true) : e.slot ≠ f.slot := by
  intro hslot
  have hcompare : order.compare e.targetHandle f.targetHandle = .eq := compare_eq_eq_iff.2 hslot
  simp [precedes, hcompare] at h

theorem filter_place (order : SlotOrder) (slot : String) (e : Edge) (es : List Edge) :
    (order.place e es).filter (·.slot == slot) = (e :: es).filter (·.slot == slot) := by
  induction es with
  | nil => rfl
  | cons f rest ih =>
    unfold place
    split
    · rfl
    next hef =>
      have hne := slot_ne_of_not_precedes hef
      rw [List.filter_cons, ih]
      by_cases hf : f.slot = slot
      · have he : e.slot ≠ slot := fun he => hne (he.trans hf.symm)
        simp [he, hf]
      · simp [List.filter_cons, hf]

theorem filter_sort (order : SlotOrder) (slot : String) (es : List Edge) :
    (order.sort es).filter (·.slot == slot) = es.filter (·.slot == slot) := by
  induction es with
  | nil => rfl
  | cons e rest ih =>
    have hstep : order.sort (e :: rest) = order.place e (order.sort rest) := rfl
    rw [hstep, filter_place, List.filter_cons, List.filter_cons, ih]

/-- Edges with different slots have one order. -/
theorem sort_eq_of_perm (hperm : es.Perm fs) (hslots : (fs.map Edge.slot).Nodup) :
    order.sort es = order.sort fs := by
  have hsorted : (order.sort es).Perm (order.sort fs) :=
    (sort_perm order es).trans (hperm.trans (sort_perm order fs).symm)
  refine hsorted.eq_of_pairwise (fun e f he hf hef hfe => ?_) (sort_pairwise order es)
    (sort_pairwise order fs)
  have he' := (sort_perm order fs).mem_iff.1 (hsorted.mem_iff.1 he)
  have hf' := (sort_perm order fs).mem_iff.1 hf
  exact List.inj_on_of_nodup_map hslots he' hf' (slot_eq_of_precedes hef hfe)

end SlotOrder
end ColorGraph
