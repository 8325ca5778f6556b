import ColorGraph.Json.Basic
import Mathlib.Data.String.Basic
/-!
Members in the order of their keys. Main statements: members that are inserted one after the other
come to stand in order, are found again, and do not change the others.
-/

set_option autoImplicit false

namespace ColorGraph.Json

namespace Members

variable {ms ns : Members} {k k' : String} {v : Json} {m : String × Json}

def Ordered (ms : Members) : Prop :=
  ms.Pairwise fun a b => a.1 < b.1

theorem Ordered.nodup_keys (h : Ordered ms) : (ms.map (·.1)).Nodup :=
  List.pairwise_map.2 (h.imp fun h => h.ne)

theorem Ordered.eq_of_perm (h : Ordered ms) (h' : Ordered ns) (hperm : ms.Perm ns) : ms = ns :=
  hperm.eq_of_pairwise (fun _ _ _ _ hlt hgt => absurd hgt (lt_asymm hlt)) h h'

theorem mem_insert (h : m ∈ ms.insert k v) : m = (k, v) ∨ m ∈ ms := by
  induction ms with
  | nil => exact .inl (List.mem_singleton.1 h)
  | cons n ms ih =>
    rw [insert] at h
    split at h
    · exact List.mem_cons.1 h
    split at h
    · obtain h | h := List.mem_cons.1 h
      · exact .inl h
      · exact .inr (.tail _ h)
    · obtain rfl | h := List.mem_cons.1 h
      · exact .inr (.head _)
      · exact (ih h).imp_right (.tail _)

theorem Ordered.insert (h : Ordered ms) (k : String) (v : Json) : Ordered (ms.insert k v) := by
  induction ms with
  | nil => exact List.pairwise_singleton _ _
  | cons n ms ih =>
    obtain ⟨hn, hms⟩ := List.pairwise_cons.1 h
    rw [Members.insert]
    split
    next hlt =>
      refine List.pairwise_cons.2 ⟨fun m hm => ?_, h⟩
      obtain rfl | hm := List.mem_cons.1 hm
      · exact hlt
      · exact lt_trans hlt (hn m hm)
    next hlt =>
      split
      next heq => exact List.pairwise_cons.2 ⟨fun m hm => heq ▸ hn m hm, hms⟩
      next hne =>
        refine List.pairwise_cons.2 ⟨fun m hm => ?_, ih hms⟩
        obtain rfl | hm := mem_insert hm
        · exact lt_of_le_of_ne (not_lt.1 hlt) (Ne.symm hne)
        · exact hn m hm

theorem insert_of_forall_lt (h : ∀ m ∈ ms, m.1 < k) : ms.insert k v = ms ++ [(k, v)] := by
  induction ms with
  | nil => rfl
  | cons n ms ih =>
    have hn := h n (.head _)
    rw [insert, if_neg (lt_asymm hn), if_neg hn.ne', ih fun m hm => h m (.tail _ hm)]
    rfl

theorem insert_perm (h : ∀ m ∈ ms, m.1 ≠ k) : (ms.insert k v).Perm ((k, v) :: ms) := by
  induction ms with
  | nil => exact .refl _
  | cons n ms ih =>
    rw [insert]
    split
    · exact .refl _
    · rw [if_neg (h n (.head _)).symm]
      exact ((ih fun m hm => h m (.tail _ hm)).cons n).trans (.swap _ _ _)

theorem insert_insert_of_lt {k k' : String} (h : k < k') (v v' : Json) (ms : Members) :
    (ms.insert k v).insert k' v' = (ms.insert k' v').insert k v := by
  induction ms with
  | nil => simp [insert, h, lt_asymm h, h.ne']
  | cons m ms ih =>
    obtain ⟨key, value⟩ := m
    obtain hlt | rfl | hgt := lt_trichotomy k key
    · obtain hlt' | rfl | hgt' := lt_trichotomy k' key
      · simp [insert, h, lt_asymm h, h.ne', hlt, hlt']
      · simp [insert, h, lt_asymm h, h.ne']
      · simp [insert, lt_asymm h, h.ne', hlt, lt_asymm hgt', hgt'.ne']
    · simp [insert, lt_asymm h, h.ne']
    · have hgt' := hgt.trans h
      simp [insert, lt_asymm hgt, hgt.ne', lt_asymm hgt', hgt'.ne', ih]

theorem insert_comm {k k' : String} (h : k ≠ k') (v v' : Json) (ms : Members) :
    (ms.insert k v).insert k' v' = (ms.insert k' v').insert k v := by
  obtain hlt | hgt := lt_or_gt_of_ne h
  · exact insert_insert_of_lt hlt v v' ms
  · exact (insert_insert_of_lt hgt v' v ms).symm

def insertAll (ms ns : Members) : Members :=
  ns.foldl (fun ms m => ms.insert m.1 m.2) ms

theorem insertAll_eq_append (h : Ordered (ms ++ ns)) : ms.insertAll ns = ms ++ ns := by
  induction ns generalizing ms with
  | nil => exact (List.append_nil ms).symm
  | cons n ns ih =>
    have hlast : ∀ m ∈ ms, m.1 < n.1 := fun m hm => (List.pairwise_append.1 h).2.2 m hm n (.head _)
    rw [List.append_cons] at h ⊢
    rw [insertAll, List.foldl_cons, insert_of_forall_lt hlast]
    exact ih h

theorem insertAll_nil_of_ordered (h : Ordered ns) : insertAll [] ns = ns :=
  insertAll_eq_append h

theorem insertAll_perm (h : ((ms ++ ns).map (·.1)).Nodup) : (ms.insertAll ns).Perm (ms ++ ns) := by
  induction ns generalizing ms with
  | nil => rw [List.append_nil]; exact .refl _
  | cons n ns ih =>
    have hmiddle : (ms ++ n :: ns).Perm (n :: (ms ++ ns)) := List.perm_middle
    have hnew : ∀ m ∈ ms, m.1 ≠ n.1 := by
      intro m hm heq
      have hnodup := (hmiddle.map (·.1)).nodup_iff.1 h
      exact (List.nodup_cons.1 hnodup).1
        (List.mem_map.2 ⟨m, List.mem_append_left ns hm, heq⟩)
    have hstep : (ms.insert n.1 n.2 ++ ns).Perm (ms ++ n :: ns) :=
      ((insert_perm hnew).append_right ns).trans hmiddle.symm
    exact (ih ((hstep.map (·.1)).nodup_iff.2 h)).trans hstep

theorem get?_cons (m : String × Json) (ms : Members) (key : String) :
    Members.get? key (m :: ms) = if m.1 = key then some m.2 else ms.get? key := by
  by_cases h : m.1 = key
  · simp [get?, h]
  · have hne : (m.1 == key) = false := beq_eq_false_iff_ne.2 h
    simp [get?, hne, h]

theorem get?_insert_self (ms : Members) (k : String) (v : Json) :
    (ms.insert k v).get? k = some v := by
  induction ms with
  | nil => rw [insert, get?_cons, if_pos rfl]
  | cons m ms ih =>
    rw [insert]
    split
    · rw [get?_cons, if_pos rfl]
    next hlt =>
      split
      · rw [get?_cons, if_pos rfl]
      next hne => rw [get?_cons, if_neg (Ne.symm hne), ih]

theorem get?_insert_of_ne (h : k' ≠ k) (ms : Members) (v : Json) :
    (ms.insert k v).get? k' = ms.get? k' := by
  induction ms with
  | nil => rw [insert, get?_cons, if_neg h.symm]
  | cons m ms ih =>
    rw [insert]
    split
    · rw [get?_cons, if_neg h.symm]
    next hlt =>
      split
      next heq => rw [get?_cons, get?_cons, if_neg h.symm, if_neg (heq ▸ h.symm)]
      next hne => rw [get?_cons, get?_cons, ih]

theorem get?_insertAll_of_notMem (h : k ∉ ns.map (·.1)) (ms : Members) :
    (ms.insertAll ns).get? k = ms.get? k := by
  induction ns generalizing ms with
  | nil => rfl
  | cons n ns ih =>
    rw [List.map_cons, List.mem_cons, not_or] at h
    rw [insertAll, List.foldl_cons]
    exact (ih h.2 _).trans (get?_insert_of_ne h.1 ms n.2)

theorem get?_append (ms ns : Members) (key : String) :
    Members.get? key (ms ++ ns) = (ms.get? key).or (ns.get? key) := by
  rw [get?, get?, get?, List.find?_append]
  cases ms.find? (·.1 == key) <;> rfl

theorem get?_eq_none_of_notMem (h : k ∉ ms.map (·.1)) : ms.get? k = none := by
  induction ms with
  | nil => rfl
  | cons m ms ih =>
    rw [List.map_cons, List.mem_cons, not_or] at h
    rw [get?_cons, if_neg (Ne.symm h.1), ih h.2]

theorem get?_insertAll_of_mem (hkeys : (ns.map (·.1)).Nodup) (h : m ∈ ns) (ms : Members) :
    (ms.insertAll ns).get? m.1 = some m.2 := by
  induction ns generalizing ms with
  | nil => cases h
  | cons n ns ih =>
    obtain ⟨hn, hkeys⟩ := List.nodup_cons.1 hkeys
    rw [insertAll, List.foldl_cons]
    obtain rfl | h := List.mem_cons.1 h
    · exact (get?_insertAll_of_notMem hn _).trans (get?_insert_self ms m.1 m.2)
    · exact ih hkeys h _

theorem filter_insert {p : String → Bool} (h : p k = false) (ms : Members) (v : Json) :
    (ms.insert k v).filter (fun m => p m.1) = ms.filter fun m => p m.1 := by
  induction ms with
  | nil => rw [insert, List.filter_cons_of_neg (by simp [h])]
  | cons m ms ih =>
    rw [insert]
    split
    · rw [List.filter_cons_of_neg (by simp [h])]
    next hlt =>
      split
      next heq =>
        rw [List.filter_cons_of_neg (by simp [h]), List.filter_cons_of_neg (by simp [← heq, h])]
      next hne => rw [List.filter_cons, List.filter_cons, ih]

theorem filter_insertAll {p : String → Bool} (h : ∀ n ∈ ns, p n.1 = false) (ms : Members) :
    (ms.insertAll ns).filter (fun m => p m.1) = ms.filter fun m => p m.1 := by
  induction ns generalizing ms with
  | nil => rfl
  | cons n ns ih =>
    rw [insertAll, List.foldl_cons]
    exact (ih (fun m hm => h m (.tail _ hm)) _).trans (filter_insert (h n (.head _)) ms n.2)

end Members

end ColorGraph.Json
