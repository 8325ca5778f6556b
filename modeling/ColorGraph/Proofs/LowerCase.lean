import ColorGraph.Text.LowerCase
/-!
Lower case of what is in lower case. Main statements: what a character becomes in lower case stays
as it is, and it comes after the underscore unless it is the character itself.
-/

set_option autoImplicit false

namespace ColorGraph.Text

def movedBy : Nat × Nat × Nat × Int → List Nat
  | (first, last, step, _) => (List.range ((last - first) / step + 1)).map (first + step * ·)

def landings : Nat × Nat × Nat × Int → List Nat
  | (first, last, step, shift) =>
    (movedBy (first, last, step, shift)).map fun n : Nat => (n + shift).toNat

def merged {α : Type} (f : α → Nat) (as : List α) : Nat :=
  as.foldr (fun a bits => bits ||| f a) 0

/-- A set of code points, as the number with a one at each of these places: two sets are compared at
once that way, and not pair by pair. -/
def places (ns : List Nat) : Nat :=
  merged (1 <<< ·) ns

def rowPlaces (f : Nat × Nat × Nat × Int → List Nat) : Nat :=
  merged (fun row => places (f row)) lowerCaseRows

variable {ns : List Nat} {m n first last step : Nat} {shift : Int} {c d : Char}
  {f f' : Nat × Nat × Nat × Int → List Nat}

theorem testBit_merged {α : Type} {f : α → Nat} {as : List α} :
    (merged f as).testBit m = true ↔ ∃ a ∈ as, (f a).testBit m = true := by
  induction as with
  | nil => simp [merged]
  | cons a as ih =>
    rw [merged, List.foldr_cons, Nat.testBit_or, Bool.or_eq_true, ← merged, ih]
    simp [or_comm]

theorem testBit_places : (places ns).testBit m = true ↔ m ∈ ns := by
  simp [places, testBit_merged, Nat.one_shiftLeft, Nat.testBit_two_pow]

theorem testBit_rowPlaces : (rowPlaces f).testBit m = true ↔ m ∈ lowerCaseRows.flatMap f := by
  simp only [rowPlaces, testBit_merged, testBit_places, List.mem_flatMap]

theorem notMem_of_rowPlaces (h : rowPlaces f &&& rowPlaces f' = 0)
    (hm : m ∈ lowerCaseRows.flatMap f) : m ∉ lowerCaseRows.flatMap f' := by
  intro hm'
  have hboth : (rowPlaces f &&& rowPlaces f').testBit m = true := by
    rw [Nat.testBit_and, testBit_rowPlaces.2 hm, testBit_rowPlaces.2 hm', Bool.and_self]
  simp [h] at hboth

theorem mem_movedBy (hfirst : first ≤ n) (hlast : n ≤ last) (hstep : (n - first) % step = 0) :
    n ∈ movedBy (first, last, step, shift) := by
  have hsteps : step * ((n - first) / step) = n - first :=
    Nat.mul_div_cancel' (Nat.dvd_of_mod_eq_zero hstep)
  have hle : (n - first) / step ≤ (last - first) / step := Nat.div_le_div_right (by omega)
  refine List.mem_map.2 ⟨(n - first) / step, List.mem_range.2 (by omega), ?_⟩
  omega

theorem notMem_movedBy_of_landing (hm : m ∈ lowerCaseRows.flatMap landings) :
    m ∉ lowerCaseRows.flatMap movedBy :=
  -- every second character of a range moves to the one after it, so ranges alone would not do
  notMem_of_rowPlaces (by decide +kernel) hm

theorem landing_spec (hm : m ∈ lowerCaseRows.flatMap landings) :
    m.isValidChar ∧ m ≠ dottedCapitalI.toNat ∧ '_'.toNat < m := by
  have hall : ∀ row ∈ lowerCaseRows, ∀ m ∈ landings row,
      m.isValidChar ∧ m ≠ dottedCapitalI.toNat ∧ '_'.toNat < m := by decide +kernel
  obtain ⟨row, hrow, hland⟩ := List.mem_flatMap.1 hm
  exact hall row hrow m hland

theorem lowerCase_cases (hc : c ≠ dottedCapitalI) :
    (c.toNat ∈ lowerCaseRows.flatMap movedBy ∧
      ∃ m ∈ lowerCaseRows.flatMap landings, lowerCase c = [Char.ofNat m]) ∨ lowerCase c = [c] := by
  unfold lowerCase
  rw [if_neg hc]
  dsimp only
  split
  next first last step shift hrow =>
    have hmem := List.mem_of_find?_eq_some hrow
    have hmoves := List.find?_some hrow
    simp only [Bool.and_eq_true, decide_eq_true_eq, beq_iff_eq] at hmoves
    obtain ⟨⟨hfirst, hlast⟩, hstep⟩ := hmoves
    have hmoved : c.toNat ∈ movedBy (first, last, step, shift) := mem_movedBy hfirst hlast hstep
    have hlanding : (c.toNat + shift).toNat ∈ landings (first, last, step, shift) :=
      List.mem_map_of_mem hmoved
    exact .inl ⟨List.mem_flatMap.2 ⟨_, hmem, hmoved⟩, _,
      List.mem_flatMap.2 ⟨_, hmem, hlanding⟩, rfl⟩
  next => exact .inr rfl

theorem lowerCase_of_landing (hm : m ∈ lowerCaseRows.flatMap landings) :
    (Char.ofNat m).toNat = m ∧ lowerCase (Char.ofNat m) = [Char.ofNat m] := by
  obtain ⟨hvalid, hdotted, _⟩ := landing_spec hm
  have hcode : (Char.ofNat m).toNat = m := by
    rw [Char.ofNat, dif_pos hvalid]
    rfl
  have hne : Char.ofNat m ≠ dottedCapitalI := fun h => hdotted (h ▸ hcode.symm)
  refine ⟨hcode, ?_⟩
  rcases lowerCase_cases hne with ⟨hmoved, _⟩ | h
  · rw [hcode] at hmoved
    exact absurd hmoved (notMem_movedBy_of_landing hm)
  · exact h

theorem mem_lowerCase_dottedCapitalI (h : d ∈ lowerCase dottedCapitalI) :
    d = 'i' ∨ d = '\u0307' := by
  rw [lowerCase, if_pos rfl] at h
  simpa using h

/-- What a character becomes in lower case is in lower case. -/
theorem lowerCase_of_mem (h : d ∈ lowerCase c) : lowerCase d = [d] := by
  by_cases hc : c = dottedCapitalI
  · rcases mem_lowerCase_dottedCapitalI (hc ▸ h) with rfl | rfl <;> decide +kernel
  rcases lowerCase_cases hc with ⟨_, m, hm, hlower⟩ | hlower
  · rw [hlower, List.mem_singleton] at h
    rw [h]
    exact (lowerCase_of_landing hm).2
  · rw [hlower, List.mem_singleton] at h
    rwa [h]

theorem eq_or_lt_of_mem (h : d ∈ lowerCase c) : d = c ∨ '_'.toNat < d.toNat := by
  by_cases hc : c = dottedCapitalI
  · rcases mem_lowerCase_dottedCapitalI (hc ▸ h) with rfl | rfl <;> exact .inr (by decide)
  rcases lowerCase_cases hc with ⟨_, m, hm, hlower⟩ | hlower
  · rw [hlower, List.mem_singleton] at h
    rw [h, (lowerCase_of_landing hm).1]
    exact .inr (landing_spec hm).2.2
  · rw [hlower, List.mem_singleton] at h
    exact .inl h

end ColorGraph.Text
