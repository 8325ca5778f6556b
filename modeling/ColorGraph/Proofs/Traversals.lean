import Mathlib.Data.List.Nodup
import Mathlib.Data.List.Forall2
/-!
Searches, positions and traversals. Main statements: an element whose key no other has is what a
search for its key finds, and a traversal that succeeds gives a result for each element.
-/

set_option autoImplicit false

namespace Except

variable {ε ε' α β : Type} {x : Except ε α}

theorem bind_eq_ok {f : α → Except ε β} {b : β} :
    x >>= f = .ok b ↔ ∃ a, x = .ok a ∧ f a = .ok b := by
  cases x with
  | error e => simp [bind, Except.bind]
  | ok a => simp [bind, Except.bind]

theorem map_eq_ok {f : α → β} {b : β} : f <$> x = .ok b ↔ ∃ a, x = .ok a ∧ f a = b := by
  cases x with
  | error e => simp [Functor.map, Except.map]
  | ok a => simp [Functor.map, Except.map]

theorem mapError_eq_ok {f : ε → ε'} {a : α} : x.mapError f = .ok a ↔ x = .ok a := by
  cases x <;> simp [Except.mapError]

end Except

namespace ColorGraph

theorem find?_of_nodup_map {α β : Type} [DecidableEq β] {f : α → β} {as : List α} {a : α}
    (h : (as.map f).Nodup) (ha : a ∈ as) : as.find? (f · == f a) = some a := by
  have hsome : (as.find? (f · == f a)).isSome := by
    rw [List.find?_isSome]
    exact ⟨a, ha, beq_self_eq_true _⟩
  obtain ⟨b, hb⟩ := Option.isSome_iff_exists.1 hsome
  have hmem := List.mem_of_find?_eq_some hb
  have heq := List.find?_some hb
  rw [hb, List.inj_on_of_nodup_map h hmem ha (beq_iff_eq.1 heq)]

theorem getElem?_concat_cases {α : Type} {as : List α} {a b : α} {i : Nat}
    (h : (as ++ [a])[i]? = some b) : as[i]? = some b ∨ i = as.length ∧ b = a := by
  obtain hlt | hle := Nat.lt_or_ge i as.length
  · rw [List.getElem?_append_left hlt] at h
    exact .inl h
  · obtain ⟨hi, rfl⟩ := List.getElem?_eq_some_iff.1 h
    rw [List.length_append, List.length_singleton] at hi
    obtain rfl : i = as.length := by omega
    exact .inr ⟨rfl, by simp⟩

theorem mapM_map_of_ok {ε α β : Type} {f : α → Except ε β} {as : List α}
    (h : ∀ a ∈ as, ∃ b, f a = .ok b) :
    ∃ bs, (as.map f).mapM id = .ok bs ∧
      ∀ i : Nat, as[i]?.map f = bs[i]?.map .ok := by
  have hmap : ∃ bs, (as.map f).mapM id = .ok bs ∧ as.map f = bs.map .ok := by
    induction as with
    | nil => exact ⟨[], rfl, rfl⟩
    | cons a as ih =>
      obtain ⟨b, hb⟩ := h a (by simp)
      obtain ⟨bs, hbs, heq⟩ := ih fun c hc => h c (List.mem_cons_of_mem _ hc)
      exact ⟨b :: bs, by rw [List.map_cons, List.mapM_cons, hbs, hb]; rfl, by simp [hb, heq]⟩
  obtain ⟨bs, hbs, heq⟩ := hmap
  exact ⟨bs, hbs, fun i => by rw [← List.getElem?_map, heq, List.getElem?_map]⟩

variable {α β : Type} {R S : α → β → Prop} {as : List α} {bs : List β}

theorem exists_forall₂_iff : (∃ bs, List.Forall₂ R as bs) ↔ ∀ a ∈ as, ∃ b, R a b := by
  induction as with
  | nil => simp
  | cons a as ih =>
    rw [List.forall_mem_cons, ← ih]
    constructor
    · rintro ⟨_, h⟩
      cases h with
      | cons hb hbs => exact ⟨⟨_, hb⟩, _, hbs⟩
    · rintro ⟨⟨b, hb⟩, bs, hbs⟩
      exact ⟨b :: bs, .cons hb hbs⟩

theorem forall₂_with_mem (h : List.Forall₂ R as bs) :
    List.Forall₂ (fun a b => a ∈ as ∧ b ∈ bs ∧ R a b) as bs :=
  List.forall₂_iff_zip.2 ⟨h.length_eq, fun hab =>
    ⟨(List.of_mem_zip hab).1, (List.of_mem_zip hab).2, List.forall₂_zip h hab⟩⟩

theorem forall₂_congr_left (h : ∀ a ∈ as, ∀ b, R a b ↔ S a b) :
    List.Forall₂ R as bs ↔ List.Forall₂ S as bs := by
  induction as generalizing bs with
  | nil => rw [List.forall₂_nil_left_iff, List.forall₂_nil_left_iff]
  | cons a as ih =>
    obtain ⟨ha, has⟩ := List.forall_mem_cons.1 h
    simp only [List.forall₂_cons_left_iff, ha, ih has]

end ColorGraph
