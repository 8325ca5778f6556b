import ColorGraph.Decimal.Literal
import ColorGraph.Proofs.SeventeenFigures
/-!
Decimals that are too large for a float. Main statement: a decimal is made a finite float exactly
when it is below halfway from the greatest float to the power of two that follows, and never made
what is no number.
-/

set_option autoImplicit false

namespace Float.Model.UnpackedFloat

open Format ColorGraph

attribute [local instance (2000)] instPowNat

def overflow : ℚ :=
  (2 ^ 54 - 1) * 2 ^ (970 : Int)

structure FiniteBelow (q : ℚ) (u : UnpackedFloat) : Prop where
  number : u.isNaN = false
  finite_iff : u.isFinite = true ↔ q < overflow

variable {n d q : Nat} {e : Int} {r : ℚ} {u : UnpackedFloat}

theorem FiniteBelow.of_finite (h : u.isFinite = true) (hr : r < overflow) : FiniteBelow r u where
  number := by
    rcases zero_or_finite h with ⟨s, rfl⟩ | ⟨s, m, e, hm, rfl⟩ <;> rfl
  finite_iff := iff_of_true h hr

theorem roundDiv_le_iff_of_odd (hq : q % 2 = 1) (hd : 0 < d) :
    Decimal.roundDiv n d ≤ q ↔ 2 * n < (2 * q + 1) * d := by
  have hle := Decimal.roundDiv_le n d
  have hge := Decimal.le_roundDiv n hd
  have hexpand : (2 * q + 1) * d = 2 * (q * d) + d := by ring
  constructor
  · intro hround
    have hmul : Decimal.roundDiv n d * d ≤ q * d := Nat.mul_le_mul_right d hround
    refine Nat.lt_of_le_of_ne (by omega) fun htie => ?_
    have hsame : Decimal.roundDiv n d * d = q * d := by omega
    have hround' := Nat.eq_of_mul_eq_mul_right hd hsame
    have heven := Decimal.roundDiv_even_of_tie hd (n := n) (.inr (by omega))
    omega
  · intro hlt
    by_contra hround
    have hmul : (q + 1) * d ≤ Decimal.roundDiv n d * d := Nat.mul_le_mul_right d (by omega)
    rw [Nat.add_mul] at hmul
    omega

namespace Ample

theorem isFinite_iff (h : Ample n d e) (s : Sign) :
    (unpack binary64 (pack binary64 (roundWithAccuracy binary64 s (n / d) e
      (accuracyOfFraction (n % d) d)))).isFinite = true ↔ Fits n d e := by
  have hpacks := h.packs s
  generalize unpack binary64 _ = u at hpacks
  cases hpacks with
  | zero hzero =>
    refine iff_of_true rfl (.inl ?_)
    have htiny := h.steps_full_or_tiny
    omega
  | finite _ _ _ hfits => exact iff_of_true rfl hfits
  | infinity hlarge => exact iff_of_false Bool.false_ne_true hlarge

theorem value_lt_overflow_of_low (h : Ample n d e) (hlow : place n d e < 971) :
    (n : ℚ) / d * 2 ^ e < overflow := by
  have hdiv : (0 : ℚ) < divisor n d e := Nat.cast_pos.2 h.divisor_pos
  have hquot : (n : ℚ) / divisor n d e < 2 ^ 53 := by
    rw [div_lt_iff₀ hdiv]
    exact_mod_cast h.lt_full
  have hpow : (2 : ℚ) ^ place n d e ≤ 2 ^ (970 : Int) :=
    zpow_le_zpow_right₀ one_le_two (by omega)
  rw [h.value_eq]
  calc (n : ℚ) / divisor n d e * 2 ^ place n d e
      < 2 ^ 53 * 2 ^ place n d e := mul_lt_mul_of_pos_right hquot (zpow_pos two_pos _)
    _ ≤ 2 ^ 53 * 2 ^ (970 : Int) := mul_le_mul_of_nonneg_left hpow (by positivity)
    _ ≤ overflow := mul_le_mul_of_nonneg_right (by norm_num) (by positivity)

theorem overflow_le_value_of_high (h : Ample n d e) (hhigh : 971 < place n d e) :
    overflow ≤ (n : ℚ) / d * 2 ^ e := by
  have hdiv : (0 : ℚ) < divisor n d e := Nat.cast_pos.2 h.divisor_pos
  have hfull := h.full_or_tiny.resolve_right (by omega)
  have hquot : (2 : ℚ) ^ 52 ≤ n / divisor n d e := by
    rw [le_div_iff₀ hdiv]
    exact_mod_cast hfull
  have hpow : (2 : ℚ) ^ (970 : Int) ≤ 2 ^ (place n d e - 2) :=
    zpow_le_zpow_right₀ one_le_two (by omega)
  have hplace : (2 : ℚ) ^ place n d e = 4 * 2 ^ (place n d e - 2) := by
    rw [zpow_sub₀ two_ne_zero]
    ring
  rw [h.value_eq]
  calc overflow ≤ 2 ^ 54 * 2 ^ (place n d e - 2) :=
        mul_le_mul (by norm_num) hpow (by positivity) (by positivity)
    _ = 2 ^ 52 * 2 ^ place n d e := by rw [hplace]; ring
    _ ≤ n / divisor n d e * 2 ^ place n d e :=
      mul_le_mul_of_nonneg_right hquot (by positivity)

theorem value_lt_overflow_iff_steps_le (h : Ample n d e) (hplace : place n d e = 971) :
    (n : ℚ) / d * 2 ^ e < overflow ↔ steps n d e ≤ 2 ^ 53 - 1 := by
  have hdiv : (0 : ℚ) < divisor n d e := Nat.cast_pos.2 h.divisor_pos
  have hodd : (2 ^ 53 - 1) % 2 = 1 := by decide
  have hhalves : (n : ℚ) / divisor n d e * 2 ^ (971 : Int) =
      n * 2 / divisor n d e * 2 ^ (970 : Int) := by
    rw [show (971 : Int) = 970 + 1 from rfl, zpow_add_one₀ two_ne_zero]
    ring
  rw [h.value_eq, hplace, steps, roundDiv_le_iff_of_odd hodd h.divisor_pos, hhalves, overflow,
    mul_lt_mul_iff_left₀ (zpow_pos two_pos _), div_lt_iff₀ hdiv, ← Nat.cast_lt (α := ℚ)]
  push_cast
  norm_num
  rw [mul_comm (2 : ℚ)]

/-- The quotients that are rounded to a finite value are those below `overflow`. -/
theorem value_lt_overflow_iff (h : Ample n d e) :
    (n : ℚ) / d * 2 ^ e < overflow ↔ Fits n d e := by
  unfold Fits
  rcases lt_trichotomy (place n d e) 971 with hlow | hplace | hhigh
  · exact iff_of_true (h.value_lt_overflow_of_low hlow) (.inl hlow)
  · rw [h.value_lt_overflow_iff_steps_le hplace]
    simp [hplace]
  · exact iff_of_false (not_lt_of_ge (h.overflow_le_value_of_high hhigh)) (by omega)

theorem finiteBelow (h : Ample n d e) (s : Sign) :
    FiniteBelow ((n : ℚ) / d * 2 ^ e) (unpack binary64 (pack binary64
      (roundWithAccuracy binary64 s (n / d) e (accuracyOfFraction (n % d) d)))) where
  number := (h.packs s).isNaN_eq_false
  finite_iff := (h.isFinite_iff s).trans h.value_lt_overflow_iff.symm

end Ample

theorem natCast_lt_overflow (h : n ≤ 2 ^ 1023) : (n : ℚ) < overflow := by
  have hpow : (2 : ℚ) ^ (1023 : Nat) = 2 ^ 53 * 2 ^ (970 : Int) := by
    rw [← zpow_natCast, ← zpow_natCast, ← zpow_add₀ two_ne_zero]
    rfl
  calc (n : ℚ) ≤ 2 ^ (1023 : Nat) := by exact_mod_cast h
    _ = 2 ^ 53 * 2 ^ (970 : Int) := hpow
    _ < overflow := mul_lt_mul_of_pos_right (by norm_num) (by positivity)

theorem overflow_pos : 0 < overflow :=
  mul_pos (by norm_num) (by positivity)

theorem maxFinite_lt_overflow : maxFinite < overflow := by
  have hpow : (2 : ℚ) ^ (971 : Int) = 2 * 2 ^ (970 : Int) := by
    rw [← zpow_one_add₀ two_ne_zero]
    rfl
  rw [maxFinite, overflow, hpow, ← mul_assoc]
  exact mul_lt_mul_of_pos_right (by norm_num) (by positivity)

theorem RoundingOf.finiteBelow (h : RoundingOf r u) : FiniteBelow |r| u := by
  cases h with
  | kept hfinite hvalue =>
    exact .of_finite hfinite (hvalue.abs_le_maxFinite.trans_lt maxFinite_lt_overflow)
  | @quotient n d e h s =>
    rw [Sign.abs_of, abs_of_nonneg (Ample.value_nonneg n d e)]
    exact h.finiteBelow s

theorem FiniteBelow.neg {x : Float} (h : FiniteBelow r x.toModel.unpack) :
    FiniteBelow r (-x).toModel.unpack := by
  change FiniteBelow r (unpack .binary64 (pack .binary64 x.toModel.unpack.neg))
  by_cases hfinite : x.toModel.unpack.isFinite = true
  · exact .of_finite (isFinite_neg hfinite) (h.finite_iff.1 hfinite)
  · have hinfinite : ∃ s, x.toModel.unpack = .infinity s := by
      have hnumber := h.number
      cases hx : x.toModel.unpack with
      | infinity s => exact ⟨s, rfl⟩
      | notANumber =>
        rw [hx] at hnumber
        cases hnumber
      | _ => exact absurd (hx ▸ rfl) hfinite
    rcases hinfinite with ⟨s, hx⟩
    rw [hx] at h ⊢
    rw [UnpackedFloat.neg, unpack_pack_infinity]
    exact ⟨rfl, h.finite_iff⟩

end Float.Model.UnpackedFloat

namespace ColorGraph

open Float.Model Float.Model.UnpackedFloat

attribute [local instance (2000)] instPowNat

variable {n p : Nat}

theorem finiteBelow_zero : FiniteBelow 0 (0.0 : Float).toModel.unpack :=
  .of_finite zero_spec.1 overflow_pos

theorem finiteBelow_ofScientific (n : Nat) (hp : p ≤ 2 ^ 11) :
    FiniteBelow (n * 10 ^ p) (Float.ofScientific n false p).toModel.unpack := by
  have hround := (roundingOf_ofScientific n hp).finiteBelow
  rwa [abs_of_nonneg (by positivity)] at hround

theorem finiteBelow_ofScientific_neg (hp : 0 < p) (hlog : p ≤ 2 ^ 11 + n.log2) :
    FiniteBelow (n / 10 ^ p) (Float.ofScientific n true p).toModel.unpack := by
  have hround := (roundingOf_ofScientific_neg hp hlog).finiteBelow
  rwa [abs_of_nonneg (by positivity)] at hround

theorem finiteBelow_mul {x y : Float} (hx : x.isFinite = true) (hy : y.isFinite = true) :
    FiniteBelow (exactSize x * exactSize y) (x * y).toModel.unpack := by
  have hround := (roundingOf_mul hx hy).finiteBelow
  rwa [abs_mul, abs_exactValue, abs_exactValue] at hround

namespace Decimal

theorem figureCount_spec (hn : 0 < n) :
    10 ^ (figureCount n - 1) ≤ n ∧ n < 10 ^ figureCount n := by
  have hpos : 0 < figureCount n := Nat.length_toDigits_pos
  refine ⟨?_, (Nat.length_toDigits_le_iff (by decide) hpos).1 (Nat.le_refl _)⟩
  by_contra hlt
  rcases Nat.eq_zero_or_pos (figureCount n - 1) with hone | hmore
  · rw [hone] at hlt
    omega
  · have hcount := (Nat.length_toDigits_le_iff (by decide) hmore).2 (Nat.lt_of_not_le hlt)
    rw [← figureCount] at hcount
    omega

variable {d : Decimal}

theorem size_bounds (hd : 0 < d.digits) :
    (10 : ℚ) ^ (d.exponent + figureCount d.digits - 1) ≤ d.size ∧
      d.size < 10 ^ (d.exponent + figureCount d.digits) := by
  have hten : (10 : ℚ) ≠ 0 := by norm_num
  have hcount : 0 < figureCount d.digits := Nat.length_toDigits_pos
  have hpow : (0 : ℚ) < 10 ^ d.exponent := zpow_pos (by norm_num) _
  rcases figureCount_spec hd with ⟨hlow, hhigh⟩
  have hlow' : d.exponent + figureCount d.digits - 1 =
      (figureCount d.digits - 1 : Nat) + d.exponent := by omega
  rw [hlow', Int.add_comm d.exponent, zpow_add₀ hten, zpow_add₀ hten, zpow_natCast, zpow_natCast]
  constructor
  · exact mul_le_mul_of_nonneg_right (by exact_mod_cast hlow) hpow.le
  · exact mul_lt_mul_of_pos_right (by exact_mod_cast hhigh) hpow

theorem overflow_le_power : overflow ≤ 10 ^ (310 : Int) := by
  have hpow : (2 : ℚ) ^ 54 * 2 ^ (970 : Int) = 2 ^ (1024 : Nat) := by
    rw [← zpow_natCast, ← zpow_natCast, ← zpow_add₀ two_ne_zero]
    rfl
  have hle : 2 ^ 1024 ≤ 10 ^ 310 := by decide +kernel
  calc overflow ≤ 2 ^ 54 * 2 ^ (970 : Int) :=
        mul_le_mul_of_nonneg_right (by norm_num) (by positivity)
    _ = 2 ^ (1024 : Nat) := hpow
    _ ≤ 10 ^ (310 : Nat) := by exact_mod_cast hle
    _ = 10 ^ (310 : Int) := (zpow_natCast 10 310).symm

theorem one_lt_overflow : 1 < overflow := by
  have hlt := natCast_lt_overflow (n := 1) (by decide +kernel)
  rwa [Nat.cast_one] at hlt

theorem overflow_le_size (hd : 0 < d.digits) (h : 310 < d.exponent + figureCount d.digits) :
    overflow ≤ d.size := by
  have hpower : (10 : ℚ) ^ (310 : Int) ≤ 10 ^ (d.exponent + figureCount d.digits - 1) :=
    zpow_le_zpow_right₀ (by norm_num) (by omega)
  exact overflow_le_power.trans (hpower.trans (size_bounds hd).1)

theorem size_lt_overflow (hd : 0 < d.digits) (h : d.exponent + figureCount d.digits ≤ 0) :
    d.size < overflow := by
  have hpower : (10 : ℚ) ^ (d.exponent + figureCount d.digits) ≤ 1 :=
    zpow_le_one_of_nonpos₀ (by norm_num) h
  exact (size_bounds hd).2.trans_le (hpower.trans one_lt_overflow.le)

theorem size_eq_div (h : d.exponent < 0) : d.size = d.digits / 10 ^ (-d.exponent).toNat := by
  have hexponent : d.exponent = -((-d.exponent).toNat : Int) := by omega
  generalize (-d.exponent).toNat = k at hexponent ⊢
  rw [size, hexponent, zpow_neg, zpow_natCast, div_eq_mul_inv]

theorem size_eq_mul (h : 0 ≤ d.exponent) : d.size = d.digits * 10 ^ d.exponent.toNat := by
  have hexponent : d.exponent = (d.exponent.toNat : Int) := by omega
  generalize d.exponent.toNat = k at hexponent ⊢
  rw [size, hexponent, zpow_natCast]

theorem figureCount_le_log2 (hn : 0 < n) : figureCount n - 1 ≤ n.log2 :=
  (Nat.le_log2 (Nat.ne_of_gt hn)).2
    ((Nat.pow_le_pow_left (by decide) _).trans (figureCount_spec hn).1)

theorem finiteBelow_toFloat (d : Decimal) : FiniteBelow d.size d.toFloat.toModel.unpack := by
  rcases Nat.eq_zero_or_pos d.digits with hzero | hpos
  · rw [toFloat, if_pos hzero, size, hzero, Nat.cast_zero, zero_mul]
    exact finiteBelow_zero
  have hlog := figureCount_le_log2 hpos
  unfold toFloat
  dsimp only
  rw [if_neg (Nat.ne_of_gt hpos)]
  split
  next hlarge =>
    have hle := overflow_le_size hpos hlarge
    exact ⟨by decide +kernel, iff_of_false (by decide +kernel) (not_lt_of_ge hle)⟩
  split
  next hsmall => exact .of_finite zero_spec.1 (size_lt_overflow hpos (by omega))
  split
  next hneg =>
    rw [size_eq_div hneg]
    exact finiteBelow_ofScientific_neg (by omega) (by omega)
  next hnonneg =>
    rw [size_eq_mul (Int.le_of_not_gt hnonneg)]
    exact finiteBelow_ofScientific _ (by omega)

def Literal.size (l : Literal) : ℚ :=
  Decimal.size ⟨ofFigures (l.whole ++ l.fraction), l.exponent - l.fraction.length⟩

theorem Literal.finiteBelow_toFloat (l : Literal) :
    FiniteBelow l.size l.toFloat.toModel.unpack := by
  have hsize := Decimal.finiteBelow_toFloat
    ⟨ofFigures (l.whole ++ l.fraction), l.exponent - l.fraction.length⟩
  unfold Literal.toFloat
  dsimp only
  split
  · exact hsize.neg
  · exact hsize

end Decimal
end ColorGraph
