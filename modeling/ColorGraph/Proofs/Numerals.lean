import ColorGraph.Json.Record
import ColorGraph.Proofs.FloatOperations
import ColorGraph.Proofs.Traversals
/-!
Numbers in JSON text. Main statements: what has the form of a number is read whole, whatever follows;
a whole number that 64 bits hold is read back from what was written for it; and no other whole
numbers are read, and no floats that are not finite.
-/

set_option autoImplicit false

namespace ColorGraph.Json

attribute [local instance (2000)] instPowNat

def EndsNumber (rest : List Char) : Prop :=
  ∀ c ∈ rest.head?, c.isDigit = false ∧ c ≠ '.' ∧ c ≠ 'e' ∧ c ≠ 'E'

theorem endsNumber_nil : EndsNumber [] := by
  simp [EndsNumber]

namespace Numeral

structure AreFigures (cs : List Char) : Prop where
  ne_nil : cs ≠ []
  isDigit : ∀ c ∈ cs, c.isDigit = true

def chars (n : Numeral) : List Char :=
  n.whole ++ (n.fraction.elim [] fun cs => '.' :: cs) ++
    n.exponent.elim [] fun e => 'e' :: (if e.1 then '-' else '+') :: e.2

structure WellSpelt (n : Numeral) : Prop where
  whole : AreFigures n.whole
  zero : n.whole.head? = some '0' → n.whole = ['0']
  fraction : ∀ cs ∈ n.fraction, AreFigures cs
  exponent : ∀ e ∈ n.exponent, AreFigures e.2

section Scan

variable {cs rest : List Char} {n : Numeral}

theorem takeWhile_figures (hcs : ∀ c ∈ cs, c.isDigit = true)
    (hrest : ∀ c ∈ rest.head?, c.isDigit = false) :
    (cs ++ rest).takeWhile Char.isDigit = cs := by
  rw [List.takeWhile_append_of_pos hcs]
  cases rest with
  | nil => simp
  | cons c rest => rw [List.takeWhile_cons_of_neg (by simp [hrest c rfl]), List.append_nil]

theorem dropWhile_figures (hcs : ∀ c ∈ cs, c.isDigit = true)
    (hrest : ∀ c ∈ rest.head?, c.isDigit = false) :
    (cs ++ rest).dropWhile Char.isDigit = rest := by
  rw [List.dropWhile_append_of_pos hcs]
  cases rest with
  | nil => rfl
  | cons c rest => exact List.dropWhile_cons_of_neg (by simp [hrest c rfl])

theorem AreFigures.isEmpty (hcs : AreFigures cs) : cs.isEmpty = false := by
  rw [Bool.eq_false_iff, Ne, List.isEmpty_iff]
  exact hcs.ne_nil

theorem scanWhole_chars (hcs : AreFigures cs) (hzero : cs.head? = some '0' → cs = ['0'])
    (hrest : ∀ c ∈ rest.head?, c.isDigit = false) : scanWhole (cs ++ rest) = .ok (cs, rest) := by
  obtain ⟨c, ds, rfl⟩ := List.exists_cons_of_ne_nil hcs.ne_nil
  by_cases hc : c = '0'
  · subst hc
    obtain rfl := (List.cons.inj (hzero rfl)).2
    have hnone : rest.takeWhile Char.isDigit = [] := by
      cases rest with
      | nil => rfl
      | cons c rest => exact List.takeWhile_cons_of_neg (by simp [hrest c rfl])
    rw [List.cons_append, List.nil_append, scanWhole, if_pos rfl, hnone]
    rfl
  · have htake := takeWhile_figures hcs.isDigit hrest
    have hdrop := dropWhile_figures hcs.isDigit hrest
    have hdigit := hcs.isDigit c (.head _)
    rw [List.cons_append, List.dropWhile_cons_of_pos hdigit] at hdrop
    rw [List.cons_append] at htake ⊢
    rw [scanWhole, if_neg hc, if_pos hdigit, htake, hdrop]
    rfl

theorem scanFraction_chars (hcs : AreFigures cs) (hrest : ∀ c ∈ rest.head?, c.isDigit = false) :
    scanFraction ('.' :: cs ++ rest) = .ok (some cs, rest) := by
  rw [List.cons_append, scanFraction, if_pos rfl]
  dsimp only
  rw [takeWhile_figures hcs.isDigit hrest, dropWhile_figures hcs.isDigit hrest, hcs.isEmpty]
  rfl

theorem scanExponent_chars (hcs : AreFigures cs) (hrest : ∀ c ∈ rest.head?, c.isDigit = false)
    (negative : Bool) : scanExponent ('e' :: (if negative then '-' else '+') :: (cs ++ rest)) =
      .ok (some (negative, cs), rest) := by
  have hpower : scanPower negative (cs ++ rest) = .ok (some (negative, cs), rest) := by
    rw [scanPower, takeWhile_figures hcs.isDigit hrest, dropWhile_figures hcs.isDigit hrest,
      hcs.isEmpty]
    rfl
  cases negative <;> exact hpower

theorem scan_rest (h : EndsNumber rest) :
    scanFraction rest = .ok (none, rest) ∧ scanExponent rest = .ok (none, rest) := by
  cases rest with
  | nil => exact ⟨rfl, rfl⟩
  | cons c rest =>
    obtain ⟨-, hpoint, hpower⟩ := h c rfl
    rw [scanFraction, if_neg hpoint, scanExponent.eq_def]
    exact ⟨rfl, if_neg (not_or.2 hpower)⟩

/-- What is in that form is read whole, whatever follows. -/
theorem scan_chars (h : n.WellSpelt) (hrest : EndsNumber rest) :
    scan n.negative (n.chars ++ rest) = .ok (n, rest) := by
  obtain ⟨negative, whole, fraction, exponent⟩ := n
  obtain ⟨hwhole, hzero, hfraction, hexponent⟩ := h
  dsimp only at hwhole hzero hfraction hexponent
  have hlast : ∀ tail, tail = exponent.elim [] (fun e => 'e' :: (if e.1 then '-' else '+') :: e.2) ++
      rest → (∀ c ∈ tail.head?, c.isDigit = false) ∧ scanFraction tail = .ok (none, tail) ∧
        scanExponent tail = .ok (exponent, rest) := by
    rintro tail rfl
    have hdigit : ∀ c ∈ rest.head?, c.isDigit = false := fun c hc => (hrest c hc).1
    cases exponent with
    | none => exact ⟨hdigit, scan_rest hrest⟩
    | some e =>
      refine ⟨fun c hc => ?_, rfl, scanExponent_chars (hexponent e rfl) hdigit e.1⟩
      obtain rfl := Option.some.inj hc
      rfl
  rw [chars, List.append_assoc, List.append_assoc]
  dsimp only
  generalize htail : exponent.elim [] (fun e => 'e' :: (if e.1 then '-' else '+') :: e.2) ++
    rest = tail
  obtain ⟨hhead, hnone, hscan⟩ := hlast tail htail.symm
  rw [scan]
  cases fraction with
  | none =>
    rw [Option.elim_none, List.nil_append, scanWhole_chars hwhole hzero hhead]
    change (scanFraction tail >>= _) = _
    rw [hnone]
    change (scanExponent tail >>= _) = _
    rw [hscan]
    rfl
  | some cs =>
    have hpoint : ∀ c ∈ ('.' :: cs ++ tail).head?, c.isDigit = false := fun c hc => by
      obtain rfl := Option.some.inj hc
      rfl
    rw [Option.elim_some, scanWhole_chars hwhole hzero hpoint]
    change (scanFraction ('.' :: cs ++ tail) >>= _) = _
    rw [scanFraction_chars (hfraction cs rfl) hhead]
    change (scanExponent tail >>= _) = _
    rw [hscan]
    rfl

end Scan

theorem eq_zero_of_toDigits {n : Nat} {cs : List Char} (h : Nat.toDigits 10 n = '0' :: cs) :
    n = 0 := by
  have hdigit : ∀ n < 10, n.digitChar = '0' → n = 0 := by decide
  induction n using Nat.strongRecOn generalizing cs with
  | ind n ih =>
    obtain hlt | hle := Nat.lt_or_ge n 10
    · rw [Nat.toDigits_of_lt_base hlt, List.cons.injEq] at h
      exact hdigit n hlt h.1
    · rw [Nat.toDigits_of_base_le (by decide) hle] at h
      obtain ⟨c, ds, hd⟩ := List.exists_cons_of_ne_nil (Nat.toDigits_ne_nil (b := 10) (n := n / 10))
      rw [hd, List.cons_append, List.cons.injEq] at h
      have hzero := ih (n / 10) (by omega) (hd.trans (by rw [h.1]))
      omega

theorem areFigures_toDigits (n : Nat) : AreFigures (Nat.toDigits 10 n) where
  ne_nil := Nat.toDigits_ne_nil
  isDigit _ hc := Nat.isDigit_of_mem_toDigits (by decide) (by decide) hc

theorem wellSpelt_toDigits (negative : Bool) (n : Nat) :
    WellSpelt ⟨negative, Nat.toDigits 10 n, none, none⟩ where
  whole := areFigures_toDigits n
  zero h := by
    obtain ⟨cs, hcs⟩ := List.head?_eq_some_iff.1 h
    rw [eq_zero_of_toDigits hcs]
    rfl
  fraction := by simp
  exponent := by simp

theorem figure_digitChar : ∀ n < 10, figure n.digitChar = n := by
  decide

def extend (n : Nat) (cs : List Char) : Nat :=
  cs.foldl (fun n c => 10 * n + figure c) n

theorem extend_append (n : Nat) (cs ds : List Char) :
    extend n (cs ++ ds) = extend (extend n cs) ds :=
  List.foldl_append

theorem le_extend (n : Nat) (cs : List Char) : n ≤ extend n cs := by
  induction cs generalizing n with
  | nil => exact Nat.le_refl n
  | cons c cs ih => exact Nat.le_trans (by omega) (ih (10 * n + figure c))

theorem extend_toDigits (n : Nat) : extend 0 (Nat.toDigits 10 n) = n := by
  induction n using Nat.strongRecOn with
  | ind n ih =>
    obtain hlt | hle := Nat.lt_or_ge n 10
    · rw [Nat.toDigits_of_lt_base hlt, extend, List.foldl_cons, List.foldl_nil,
        figure_digitChar n hlt]
      omega
    · rw [Nat.toDigits_of_base_le (by decide) hle, extend_append, ih (n / 10) (by omega), extend,
        List.foldl_cons, List.foldl_nil, figure_digitChar _ (Nat.mod_lt _ (by decide)),
        Nat.div_add_mod]

theorem foldl_whole {n : Nat} {cs : List Char} (h : extend n cs ≤ maxSignificand) :
    cs.foldl Reading.whole ⟨n, 0, false⟩ = ⟨extend n cs, 0, false⟩ := by
  induction cs generalizing n with
  | nil => rfl
  | cons c cs ih =>
    have hfits : 10 * n + figure c ≤ maxSignificand := Nat.le_trans (le_extend _ cs) h
    have hstep : Reading.whole ⟨n, 0, false⟩ c = ⟨10 * n + figure c, 0, false⟩ := by
      simp [Reading.whole, Reading.fits, hfits]
    rw [List.foldl_cons, hstep]
    exact ih h

section Reading

variable {n : Numeral} {cs : List Char}

def significand (n : Numeral) : List Char :=
  n.whole ++ n.fraction.getD []

theorem foldl_fraction {n : Nat} {power : Int} (h : extend n cs ≤ maxSignificand) :
    cs.foldl Reading.fraction ⟨n, power, false⟩ = ⟨extend n cs, power - cs.length, false⟩ := by
  induction cs generalizing n power with
  | nil => simp [extend]
  | cons c cs ih =>
    have hfits : 10 * n + figure c ≤ maxSignificand := Nat.le_trans (le_extend _ cs) h
    have hstep : Reading.fraction ⟨n, power, false⟩ c =
        ⟨10 * n + figure c, power - 1, false⟩ := by
      simp [Reading.fraction, Reading.fits, hfits]
    have hlength : power - 1 - cs.length = power - (c :: cs).length := by
      rw [List.length_cons]
      omega
    rw [List.foldl_cons, hstep, ih h, hlength]
    rfl

theorem reading_eq (h : extend 0 n.significand ≤ maxSignificand) :
    n.reading = ⟨extend 0 n.significand, -((n.fraction.getD []).length : Int), false⟩ := by
  obtain ⟨negative, whole, fraction, exponent⟩ := n
  rw [significand, extend_append] at h ⊢
  dsimp only at h ⊢
  rw [reading]
  dsimp only
  rw [foldl_whole ((le_extend _ _).trans h)]
  cases fraction with
  | none => rfl
  | some cs =>
    rw [Option.getD_some] at h ⊢
    refine (foldl_fraction h).trans ?_
    rw [Int.zero_sub]

end Reading

end Numeral

def Number.Fits : Number → Prop
  | .int n => -((2 ^ (63 : Nat) : Nat) : Int) ≤ n ∧ n < ((2 ^ (64 : Nat) : Nat) : Int)
  | .float x => x.isFinite = true

namespace Numeral

variable {negative : Bool}

theorem reading_toDigits {n : Nat} (h : n ≤ maxSignificand) :
    reading ⟨negative, Nat.toDigits 10 n, none, none⟩ = ⟨n, 0, false⟩ := by
  have hextend := extend_toDigits n
  rw [reading, foldl_whole (by rwa [hextend]), hextend]

theorem value_natural {n : Nat} (h : n ≤ maxSignificand) :
    value ⟨false, Nat.toDigits 10 n, none, none⟩ = some (.int n) := by
  rw [value, reading_toDigits h]
  rfl

theorem value_negative {n : Nat} (hn : n ≠ 0) (h : n ≤ 2 ^ (63 : Nat)) :
    value ⟨true, Nat.toDigits 10 n, none, none⟩ = some (.int (-n)) := by
  have hmax : maxSignificand = 2 ^ (64 : Nat) - 1 := rfl
  have hint : toInt? ⟨true, Nat.toDigits 10 n, none, none⟩ ⟨n, 0, false⟩ = some (-(n : Int)) := by
    have hsmall : ¬ (n = 0 ∨ 2 ^ (63 : Nat) < n) := by omega
    simp only [toInt?, Option.isSome_none, Bool.or_false, Bool.false_eq_true, if_false,
      Bool.not_true]
    exact if_neg hsmall
  rw [value, reading_toDigits (by omega)]
  dsimp only
  rw [hint]

theorem Reading.whole_le {r : Reading} (h : r.significand ≤ maxSignificand) (c : Char) :
    (r.whole c).significand ≤ maxSignificand := by
  unfold Reading.whole
  split
  next hfits =>
    simp only [Reading.fits, Bool.and_eq_true, decide_eq_true_eq] at hfits
    exact hfits.2
  next => exact h

theorem Reading.fraction_le {r : Reading} (h : r.significand ≤ maxSignificand) (c : Char) :
    (r.fraction c).significand ≤ maxSignificand := by
  unfold Reading.fraction
  split
  next hfits =>
    simp only [Reading.fits, Bool.and_eq_true, decide_eq_true_eq] at hfits
    exact hfits.2
  next => exact h

theorem significand_reading_le (n : Numeral) : n.reading.significand ≤ maxSignificand := by
  have hwhole : (n.whole.foldl Reading.whole ⟨0, 0, false⟩).significand ≤ maxSignificand :=
    List.foldlRecOn (motive := fun r => r.significand ≤ maxSignificand) n.whole Reading.whole
      (Nat.zero_le _) fun r h c _ => Reading.whole_le h c
  unfold reading
  dsimp only
  split
  · exact hwhole
  next figures _ =>
    exact List.foldlRecOn (motive := fun r => r.significand ≤ maxSignificand)
      (b := { n.whole.foldl Reading.whole ⟨0, 0, false⟩ with full := false }) figures
      Reading.fraction hwhole fun r h c _ => Reading.fraction_le h c

theorem isFinite_scaleDown {x : Float} (hx : x.isFinite = true) (steps n : Nat) :
    (scaleDown steps x n).isFinite = true := by
  have hdiv : ∀ {x : Float} {p : Nat}, x.isFinite = true → p ≤ 308 →
      (x / Float.ofScientific 1 false p).isFinite = true := by
    intro x p hx hp
    obtain ⟨hfinite, hone⟩ := powerOfTen_spec hp
    exact isFinite_div hx hfinite hone
  induction steps generalizing x n with
  | zero => exact hx
  | succ steps ih =>
    rw [scaleDown]
    split
    next hn => exact hdiv hx hn
    split
    · exact hx
    · exact ih (hdiv hx (Nat.le_refl 308)) _

theorem isFinite_scale {x y : Float} {power : Int} (hx : x.isFinite = true)
    (h : scale x power = some y) : y.isFinite = true := by
  unfold scale at h
  split at h
  · split at h
    · split at h
      · cases h
        exact hx
      · cases h
    next hpower =>
      dsimp only at h
      split at h
      · cases h
      next hinf =>
        cases h
        have hpower' : power.toNat ≤ 308 := by omega
        exact isFinite_of_not hinf (isNaN_mul hx (powerOfTen_spec hpower').1)
  · cases h
    exact isFinite_scaleDown hx _ _

theorem isFinite_signed {y : Float} (hy : y.isFinite = true) (negative : Bool) :
    (signed negative y).isFinite = true := by
  cases negative with
  | false => exact hy
  | true => exact isFinite_neg hy

theorem isFinite_ofNat {n : Nat} (hn : n ≤ maxSignificand) : (Float.ofNat n).isFinite = true := by
  have hmax : maxSignificand ≤ (2 ^ 53 - 1) * 2 ^ 971 := by decide +kernel
  have hlow : ((0 : Nat) : ℚ) * 2 ^ (0 : Int) ≤ n := by
    rw [Nat.cast_zero, zero_mul]
    exact Nat.cast_nonneg n
  exact (within_ofNat Float.Model.UnpackedFloat.representable_zero
    Float.Model.UnpackedFloat.representable_max hlow
    (natCast_le_max (hn.trans hmax))).finite

/-- No other numbers are read. -/
theorem fits_of_value {n : Numeral} {m : Number} (h : n.value = some m) : m.Fits := by
  have hle := n.significand_reading_le
  have hmax : maxSignificand = 2 ^ (64 : Nat) - 1 := rfl
  simp only [value] at h
  split at h
  next i hint =>
    obtain rfl := Option.some.inj h
    unfold toInt? at hint
    split at hint
    · cases hint
    split at hint
    · obtain rfl := Option.some.inj hint
      simp only [Number.Fits]
      omega
    split at hint
    · cases hint
    · obtain rfl := Option.some.inj hint
      simp only [Number.Fits]
      omega
  · obtain ⟨y, hy, rfl⟩ := Option.map_eq_some_iff.1 h
    have hx := isFinite_ofNat hle
    refine isFinite_signed ?_ n.negative
    split at hy
    · exact isFinite_scale hx hy
    split at hy
    · split at hy
      · cases hy
        decide +kernel
      · cases hy
    · exact isFinite_scale hx hy

end Numeral

namespace Reader

variable {cs rest : List Char} {fuel : Nat}

theorem value_minus : value (fuel + 1) ('-' :: cs) = number true cs := rfl

theorem value_digit {c : Char} (hc : c.isDigit = true) :
    value (fuel + 1) (c :: cs) = number false (c :: cs) := by
  have hne : ∀ d : Char, d.isDigit = false → c ≠ d := by
    rintro d hd rfl
    rw [hc] at hd
    cases hd
  have hblank : isBlank c = false := by
    simp [isBlank, hne ' ' rfl, hne '\n' rfl, hne '\t' rfl, hne '\r' rfl]
  rw [value, skipBlank, List.dropWhile_cons_of_neg (by rw [hblank]; decide)]
  simp only [hne 'n' rfl, hne 't' rfl, hne 'f' rfl, hne '-' rfl, hc, if_true, if_false]

end Reader

def Number.ReadsAs (n m : Number) : Prop :=
  ∀ fuel rest, EndsNumber rest → Reader.value (fuel + 1) (n.chars ++ rest) =
    (.number (some m), some rest)

def Number.Legible (n : Number) : Prop :=
  n.ReadsAs n

/-- A number is read as the value of the characters that it has. -/
theorem Number.readsAs_of_chars {n m : Number} {numeral : Numeral} (hform : numeral.WellSpelt)
    (hvalue : numeral.value = some m)
    (hchars : n.chars = if numeral.negative then '-' :: numeral.chars else numeral.chars) :
    n.ReadsAs m := by
  intro fuel rest hrest
  have hscan := Numeral.scan_chars hform hrest
  have hnumber : Reader.number numeral.negative (numeral.chars ++ rest) =
      (.number (some m), some rest) := by
    rw [Reader.number, hscan]
    dsimp only
    rw [hvalue]
  rw [hchars]
  cases hnegative : numeral.negative with
  | false =>
    obtain ⟨c, cs, hcs⟩ := List.exists_cons_of_ne_nil hform.whole.ne_nil
    have hfirst : ∃ ds, numeral.chars = c :: ds := by
      rw [Numeral.chars, hcs]
      exact ⟨_, rfl⟩
    obtain ⟨ds, hds⟩ := hfirst
    rw [hnegative, hds, List.cons_append] at hnumber
    rw [if_neg (by decide), hds, List.cons_append,
      Reader.value_digit (hform.whole.isDigit c (hcs ▸ .head _)), hnumber]
  | true =>
    rw [hnegative] at hnumber
    rw [if_pos rfl, List.cons_append, Reader.value_minus, hnumber]

theorem Number.legible_int {i : Int} (h : (Number.int i).Fits) : (Number.int i).Legible := by
  have hmax : Numeral.maxSignificand = 2 ^ (64 : Nat) - 1 := rfl
  have hwhole : ∀ negative n, Numeral.chars ⟨negative, Nat.toDigits 10 n, none, none⟩ =
      Nat.toDigits 10 n := fun _ _ => (List.append_nil _).trans (List.append_nil _)
  simp only [Number.Fits] at h
  cases i with
  | ofNat n =>
    rw [Int.ofNat_eq_natCast] at h ⊢
    refine readsAs_of_chars (Numeral.wellSpelt_toDigits false n)
      (Numeral.value_natural (by omega)) ?_
    rw [hwhole]
    exact String.toList_ofList
  | negSucc n =>
    refine readsAs_of_chars (Numeral.wellSpelt_toDigits true (n + 1))
      (Numeral.value_negative (Nat.succ_ne_zero n) (by omega)) ?_
    rw [hwhole]
    change ("-" ++ String.ofList (Nat.toDigits 10 (n + 1))).toList = _
    rw [String.toList_append, String.toList_ofList, String.toList_ofList]
    rfl

theorem Reader.isBlank_of_isDigit {c : Char} (h : c.isDigit = true) :
    Reader.isBlank c = false := by
  rw [Bool.eq_false_iff]
  intro hblank
  have hcase : c = ' ' ∨ c = '\n' ∨ c = '\t' ∨ c = '\r' := by
    simpa [Reader.isBlank, or_assoc] using hblank
  obtain rfl | rfl | rfl | rfl := hcase <;> cases h

theorem Draft.eq_of_keep_number {depth : Nat} {d : Draft} {n : Number}
    (h : d.keep depth = .ok (.number n)) : d = .number (some n) := by
  unfold Draft.keep at h
  split at h
  case h_4 => cases h; rfl
  case h_5 s =>
    obtain ⟨_, _, h⟩ := Except.map_eq_ok.1 h
    cases h
  case h_6 =>
    obtain ⟨_, _, h⟩ := Except.bind_eq_ok.1 h
    obtain ⟨_, _, h⟩ := Except.map_eq_ok.1 h
    cases h
  case h_7 =>
    obtain ⟨_, _, h⟩ := Except.bind_eq_ok.1 h
    obtain ⟨_, _, h⟩ := Except.map_eq_ok.1 h
    cases h
  all_goals cases h

namespace Reader

variable {cs rest : List Char} {fuel : Nat}

theorem word_eq (v : Draft) (ws cs : List Char) :
    (word v ws cs).1 = v ∨ ∃ fault, (word v ws cs).1 = .misspelt fault := by
  induction ws generalizing cs with
  | nil => exact .inl rfl
  | cons w ws ih =>
    cases cs with
    | nil => exact .inr ⟨_, rfl⟩
    | cons c cs =>
      rw [word]
      split
      · exact ih cs
      · exact .inr ⟨_, rfl⟩

end Reader

theorem readText_eq_ok {α : Type} {read : Draft → Read α} {text : String} {a : α} :
    readText read text = .ok a ↔
      (Draft.ofText text).2 = false ∧ read (Draft.ofText text).1 = .ok a := by
  unfold readText
  rw [Except.bind_eq_ok]
  cases (Draft.ofText text).2 <;> simp [pure, Except.pure, throw, throwThe, MonadExceptOf.throw]

end ColorGraph.Json
