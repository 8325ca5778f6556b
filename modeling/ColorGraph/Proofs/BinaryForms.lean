import ColorGraph.Proofs.Overflow
/-!
Operations on floats by way of their exact binary forms. Main statements: rounding down is exact,
and so is what is left after whole steps.
-/

set_option autoImplicit false

namespace ColorGraph

open Float.Model Float.Model.UnpackedFloat

attribute [local instance (2000)] instPowNat

namespace Binary

variable {x : Float} {b : Binary}

theorem exactValue_of_ofFloat? (hb : ofFloat? x = some b) : exactValue x = b.sign.of b.size := by
  rcases Nat.eq_zero_or_pos b.mantissa with hzero | hpos
  · rw [exactValue, unpack_of_zero hb hzero, value_zero, size, hzero, Nat.cast_zero, zero_mul,
      Sign.of_zero]
  · rw [exactValue, (unpack_of_ofFloat? hb hpos).1, value_finite, size]

theorem size_eq_mul (h : 0 ≤ b.exponent) :
    b.size = ((b.mantissa * 2 ^ b.exponent.toNat : Nat) : ℚ) := by
  have hexp : b.exponent = (b.exponent.toNat : Int) := by omega
  generalize b.exponent.toNat = k at hexp ⊢
  rw [size, hexp, zpow_natCast]
  push_cast
  rfl

theorem size_eq_div (h : b.exponent ≤ 0) :
    b.size = b.mantissa / ((2 ^ (-b.exponent).toNat : Nat) : ℚ) := by
  have hexp : b.exponent = -((-b.exponent).toNat : Int) := by omega
  generalize (-b.exponent).toNat = k at hexp ⊢
  rw [size, hexp, zpow_neg, zpow_natCast, div_eq_mul_inv]
  push_cast
  rfl

theorem toFloat_exact (h : Representable b.mantissa b.exponent) :
    b.toFloat.isFinite = true ∧ exactValue b.toFloat = b.sign.of b.size := by
  have hsize : IsFloatValue b.size :=
    ⟨_, _, h, abs_of_nonneg (mul_nonneg (Nat.cast_nonneg _) (zpow_pos two_pos _).le)⟩
  have hsign : ∀ {y : Float}, RoundingOf b.size y.toModel.unpack →
      (if b.negative then -y else y).isFinite = true ∧
        exactValue (if b.negative then -y else y) = b.sign.of b.size := by
    intro y hround
    have ⟨hfinite, (hvalue : exactValue y = b.size)⟩ := hround.exact hsize
    obtain ⟨hneg, hneg'⟩ := neg_spec hfinite
    rw [sign]
    split
    · exact ⟨hneg, by rw [hneg', hvalue, Sign.of]⟩
    · exact ⟨hfinite, hvalue⟩
  have hlow := h.low
  refine hsign ?_
  split
  next hneg =>
    have hbound : (-b.exponent).toNat ≤ 2 ^ 11 := by omega
    have hpos : 0 < (-b.exponent).toNat := by omega
    rw [size_eq_div (by omega)]
    generalize (-b.exponent).toNat = k at hbound hpos ⊢
    have hten : (b.mantissa : ℚ) / (2 ^ k : Nat) = ((b.mantissa * 5 ^ k : Nat) : ℚ) / 10 ^ k := by
      rw [show (10 : ℚ) = 2 * 5 by norm_num, mul_pow]
      push_cast
      field_simp
    rw [hten]
    exact roundingOf_ofScientific_neg hpos (by omega)
  next hnonneg =>
    have hround := roundingOf_ofScientific (b.mantissa * 2 ^ b.exponent.toNat)
      (Nat.zero_le (2 ^ 11))
    rwa [pow_zero, mul_one, ← size_eq_mul (by omega)] at hround

end Binary

theorem floor_neg_div {m u : Nat} (hu : 0 < u) :
    (⌊-((m : ℚ) / u)⌋ : ℤ) = -(((m + u - 1) / u : Nat) : ℤ) := by
  have hpos : (0 : ℚ) < u := Nat.cast_pos.2 hu
  have hdiv := Nat.div_add_mod (m + u - 1) u
  have hmod := Nat.mod_lt (m + u - 1) hu
  have hhigh : m ≤ (m + u - 1) / u * u := by rw [Nat.mul_comm]; omega
  have hlow : (m + u - 1) / u * u < m + u := by rw [Nat.mul_comm]; omega
  rw [Int.floor_eq_iff]
  push_cast
  constructor
  · rw [neg_le_neg_iff, div_le_iff₀ hpos]
    exact_mod_cast hhigh
  · have hlt : (((m + u - 1) / u : Nat) : ℚ) * u < m + u := by exact_mod_cast hlow
    rw [neg_lt, neg_add, neg_neg, ← sub_eq_add_neg, sub_lt_iff_lt_add, div_add_one hpos.ne',
      lt_div_iff₀ hpos]
    exact hlt

theorem floor_whole (s : Sign) (n : Nat) : ((⌊s.of (n : ℚ)⌋ : ℤ) : ℚ) = s.of n := by
  cases s with
  | positive => rw [Sign.of, Int.floor_natCast, Int.cast_natCast]
  | negative =>
    have hcast : -(n : ℚ) = ((-(n : ℤ) : ℤ) : ℚ) := by push_cast; rfl
    rw [Sign.of, hcast, Int.floor_intCast]

theorem floor_eq {x : Float} (hx : x.isFinite = true) :
    (floor x).isFinite = true ∧ exactValue (floor x) = (⌊exactValue x⌋ : ℤ) := by
  obtain ⟨b, hb⟩ := Binary.exists_ofFloat? hx
  have hvalue := Binary.exactValue_of_ofFloat? hb
  have hshort := (Binary.isFloat_of_ofFloat? hb).short
  unfold floor
  rw [hb]
  dsimp only
  split
  next hwhole =>
    obtain ⟨n, hn⟩ : ∃ n : Nat, b.size = n := by
      rcases hwhole with hzero | hnonneg
      · exact ⟨0, by rw [Binary.size, hzero, Nat.cast_zero, zero_mul]⟩
      · exact ⟨_, Binary.size_eq_mul hnonneg⟩
    exact ⟨hx, by rw [hvalue, hn, floor_whole]⟩
  next hfraction =>
    rw [not_or] at hfraction
    have hsize := b.size_eq_div (by omega)
    have hunit : 0 < 2 ^ (-b.exponent).toNat := Nat.two_pow_pos _
    generalize 2 ^ (-b.exponent).toNat = unit at hunit hsize ⊢
    rw [hvalue, hsize, Binary.sign]
    split
    next hnegative =>
      have hlt : (b.mantissa + unit - 1) / unit < 2 ^ 53 := by
        rw [Nat.div_lt_iff_lt_mul hunit]
        omega
      obtain ⟨hfinite, hnat⟩ := ofNat_spec hlt
      obtain ⟨hneg, hneg'⟩ := neg_spec hfinite
      rw [Sign.of, floor_neg_div hunit, hneg', hnat]
      exact ⟨hneg, by push_cast; rfl⟩
    next hpositive =>
      have hlt : b.mantissa / unit < 2 ^ 53 := (Nat.div_le_self _ _).trans_lt hshort
      obtain ⟨hfinite, hnat⟩ := ofNat_spec hlt
      refine ⟨hfinite, ?_⟩
      rw [hnat, Sign.of, Rat.floor_natCast_div_natCast]
      rfl

theorem remainder_spec {x : Float} {n : Nat} (hx : x.isFinite = true) (hn : 0 < n)
    (hshort : n ≤ 2 ^ 53) :
    (remainder x n).isFinite = true ∧ |exactValue (remainder x n)| < n := by
  obtain ⟨b, hb⟩ := Binary.exists_ofFloat? hx
  obtain ⟨hmantissa, hlow, hhigh, -⟩ := Binary.isFloat_of_ofFloat? hb
  have hleft : ∀ r : Binary, Representable r.mantissa r.exponent → r.size < n →
      r.toFloat.isFinite = true ∧ |exactValue r.toFloat| < n := by
    intro r hr hlt
    obtain ⟨hfinite, hvalue⟩ := Binary.toFloat_exact hr
    have hnonneg : 0 ≤ r.size := mul_nonneg (Nat.cast_nonneg _) (zpow_pos two_pos _).le
    refine ⟨hfinite, ?_⟩
    rwa [hvalue, Sign.abs_of, abs_of_nonneg hnonneg]
  unfold remainder
  rw [hb]
  dsimp only
  split
  next hneg =>
    have hunit : 0 < n * 2 ^ (-b.exponent).toNat := Nat.mul_pos hn (Nat.two_pow_pos _)
    have hlt := Nat.mod_lt b.mantissa hunit
    refine hleft _ ⟨(Nat.mod_le _ _).trans_lt hmantissa, hlow, hhigh⟩
      ((Binary.size_eq_div ?_).trans_lt ?_)
    · exact hneg.le
    · rw [div_lt_iff₀ (Nat.cast_pos.2 (Nat.two_pow_pos _))]
      exact_mod_cast hlt
  next hnonneg =>
    have hlt := Nat.mod_lt (b.mantissa * 2 ^ b.exponent.toNat) hn
    have hwhole : Representable (b.mantissa * 2 ^ b.exponent.toNat % n) 0 :=
      ⟨hlt.trans_le hshort, by decide, by decide⟩
    refine hleft _ hwhole ?_
    rw [Binary.size, zpow_zero, mul_one]
    exact_mod_cast hlt

end ColorGraph
