import ColorGraph.Proofs.RoundedFigures
/-!
A lightness that is written as a percentage of five figures and read again. Main statement: it
settles at once unless it is one certain tiny value, where a hundredth of the five figures is
rounded to another float.
-/

set_option autoImplicit false

namespace ColorGraph

open Float.Model Float.Model.UnpackedFloat
open Decimal (significant FiguresOf HasFigures ten_zpow_pos ten_zpow_le lt_of_ten_zpow_lt
  ten_zpow_add ten_zpow_add_sub_one)

attribute [local instance (2000)] instPowNat

variable {w l : Float} {r v D : ℚ} {j : ℤ}

theorem ten_zpow_bounds : 20.24022 * least < 10 ^ (-322 : ℤ) ∧
    10 ^ (-322 : ℤ) < 20.24023 * least := by
  obtain ⟨bits, zeros, hbits, hzeros, htwo, hten, hlow, hhigh⟩ : ∃ bits zeros : Nat,
      0 < bits ∧ 0 < zeros ∧ least = 1 / bits ∧ (10 : ℚ) ^ (-322 : ℤ) = 1 / zeros ∧
        2024022 * zeros < 100000 * bits ∧ 100000 * bits < 2024023 * zeros := by
    refine ⟨2 ^ 1074, 10 ^ 322, by decide +kernel, by decide +kernel, ?_, ?_, by decide +kernel,
      by decide +kernel⟩
    · rw [least, zpow_neg, one_div, Nat.cast_pow]
      rfl
    · rw [zpow_neg, one_div, Nat.cast_pow]
      rfl
  have hbits' : (0 : ℚ) < bits := Nat.cast_pos.2 hbits
  have hzeros' : (0 : ℚ) < zeros := Nat.cast_pos.2 hzeros
  have hlow' : (2024022 : ℚ) * zeros < 100000 * bits := by exact_mod_cast hlow
  have hhigh' : (100000 : ℚ) * bits < 2024023 * zeros := by exact_mod_cast hhigh
  rw [htwo, hten, mul_one_div, mul_one_div, div_lt_div_iff₀ hbits' hzeros',
    div_lt_div_iff₀ hzeros' hbits']
  constructor <;> linarith

theorem ten_zpow_boundary : (10 : ℚ) ^ (-317 : ℤ) = 100000 * 10 ^ (-322 : ℤ) := by
  rw [show (-317 : ℤ) = -322 + (5 : ℕ) from rfl, ten_zpow_add]
  norm_num

theorem hundred_spec : (100.0 : Float).isFinite = true ∧ exactValue 100.0 = 100 := by
  decide +kernel

/-- A lightness whose hundredth is rounded down, of either sign. -/
theorem unsettled_spec : (1.00004e-319 : Float).isFinite = true ∧
    exactValue 1.00004e-319 = 20241 * least ∧
      ∀ l : Float, l = 1.00004e-319 ∨ l = -1.00004e-319 →
        significant (significant (l * 100.0) 5 / 100.0 * 1.0 * 100.0) 5 ≠
          significant (l * 100.0) 5 := by
  have hvalues : exactValue (significant (significant (1.00004e-319 * 100.0) 5 / 100.0 * 1.0 *
      100.0) 5) ≠ exactValue (significant (1.00004e-319 * 100.0) 5) ∧
      exactValue (significant (significant (-1.00004e-319 * 100.0) 5 / 100.0 * 1.0 * 100.0) 5) ≠
        exactValue (significant (-1.00004e-319 * 100.0) 5) := by decide +kernel
  refine ⟨by decide +kernel, by decide +kernel, ?_⟩
  rintro l (rfl | rfl) hsame
  · exact hvalues.1 (congrArg exactValue hsame)
  · exact hvalues.2 (congrArg exactValue hsame)

theorem share_spec (hw : w.isFinite = true) : (w / 100.0 * 1.0).isFinite = true ∧
    IsNearest (exactValue w / 100) (exactValue (w / 100.0 * 1.0)) := by
  obtain ⟨hhundred, hhundred'⟩ := hundred_spec
  have hone' := exactValue_one
  have hone : (1.0 : Float).isFinite = true := isFinite_of_exactValue (by rw [hone']; norm_num)
  have hshare : (w / 100.0).isFinite = true :=
    isFinite_div hw hhundred (by rw [← abs_exactValue, hhundred']; norm_num)
  have hnearest := (roundingOf_div hw hhundred (by rw [hhundred']; norm_num)).isNearest hshare
  have hround := roundingOf_mul hshare hone
  rw [hone', mul_one] at hround
  obtain ⟨hfinite, (hvalue : exactValue (w / 100.0 * 1.0) = exactValue (w / 100.0))⟩ :=
    hround.exact (isFloatValue_exactValue hshare)
  rw [hvalue, ← hhundred']
  exact ⟨hfinite, hnearest⟩

theorem exactValue_hundred (hl : l.isFinite = true) (hne : exactValue (l * 100.0) ≠ 0)
    (hsmall : |exactValue (l * 100.0)| < 2 ^ 53 * least) :
    exactValue (l * 100.0) = 100 * exactValue l := by
  have hnearest := (roundingOf_mul hl hundred_spec.1).isNearest (isFinite_of_exactValue hne)
  change IsNearest _ (exactValue (l * 100.0)) at hnearest
  rw [hundred_spec.2, mul_comm] at hnearest
  obtain ⟨k, hk⟩ := (isFloatValue_exactValue hl).exists_multiple
  have hmultiple : 100 * exactValue l = ((100 * k : ℤ) : ℚ) * least := by
    rw [hk]
    push_cast
    ring
  have hsize : |100 * exactValue l| = ((100 * k).natAbs : ℚ) * least := by
    rw [hmultiple, abs_mul, abs_of_pos least_pos, Nat.cast_natAbs, Int.cast_abs]
  refine hnearest.eq_of_isFloatValue ⟨(100 * k).natAbs, -1074, ⟨?_, by decide, by decide⟩, hsize⟩
  by_contra hlarge
  have hfloat : IsFloatValue (2 ^ 53 * least) := by
    refine ⟨2 ^ 52, -1073, ⟨by decide, by decide, by decide⟩, ?_⟩
    rw [abs_of_pos (mul_pos (by norm_num) least_pos), least,
      show (-1073 : ℤ) = -1074 + 1 from rfl, zpow_add_one₀ two_ne_zero, ← least]
    push_cast
    ring
  have hbits : (2 ^ 53 : ℚ) ≤ (100 * k).natAbs := by exact_mod_cast not_lt.1 hlarge
  have hle := hnearest.abs.le_of_ge hfloat
    (hsize ▸ mul_le_mul_of_nonneg_right hbits least_pos.le)
  exact absurd hsmall (not_lt_of_ge hle)

theorem exists_unit (hlarge : 10 ^ (-317 : ℤ) < |D|) : ∃ k : ℤ,
    10 * 10 ^ (-322 : ℤ) ≤ (10 : ℚ) ^ k ∧ 10000 * 10 ^ k < |D| ∧ |D| ≤ 100000 * 10 ^ k := by
  have hD : 0 < |D| := (ten_zpow_pos _).trans hlarge
  obtain ⟨m, hmin, hmax⟩ := exists_mem_Ioc_zpow (x := |D|) (y := 10) hD (by norm_num)
  have hlow : -317 ≤ m := by
    have := lt_of_ten_zpow_lt (hlarge.trans_le hmax)
    omega
  obtain ⟨k, rfl⟩ : ∃ k, m = k + (4 : ℕ) := ⟨m - 4, by omega⟩
  refine ⟨k, ?_, ?_, ?_⟩
  · rw [← zpow_one_add₀ (by norm_num)]
    exact ten_zpow_le (by omega)
  · rw [ten_zpow_add] at hmin
    norm_num at hmin
    exact hmin
  · rw [show k + (4 : ℕ) + 1 = k + (5 : ℕ) from by omega, ten_zpow_add] at hmax
    norm_num at hmax
    exact hmax

section

variable (hl : l.isFinite = true) (hne : exactValue (l * 100.0) ≠ 0)
  (hfinite : (significant (l * 100.0) 5).isFinite = true)
  (hfigures : FiguresOf 5 j (exactValue (l * 100.0)) D)
  (hnearest : IsNearest D (exactValue (significant (l * 100.0) 5)))
include hfinite hfigures hnearest

/-- The error after reading and writing again is small beside the figures, or a few least floats. -/
theorem rewritten_spec (hbelow : |D| < overflow) :
    (significant (l * 100.0) 5 / 100.0 * 1.0 * 100.0).isFinite = true ∧
      |exactValue (significant (l * 100.0) 5 / 100.0 * 1.0 * 100.0) - D| ≤
        |D| / 2 ^ 51 + 52 * least := by
  generalize significant (l * 100.0) 5 = w at *
  obtain ⟨hshare, hnearest'⟩ := share_spec hfinite
  generalize w / 100.0 * 1.0 = y at hshare hnearest' ⊢
  obtain ⟨hhundred, hhundred'⟩ := hundred_spec
  have hpos := least_pos
  have hD := abs_nonneg D
  have hwritten := hnearest.error_le
  have hread := hnearest'.error_le
  rw [abs_div, abs_of_pos (by norm_num : (0 : ℚ) < 100)] at hread
  have hw := abs_sub_abs_le_abs_sub (exactValue w) D
  have hread' : |exactValue y * 100 - exactValue w| ≤ |exactValue w| / 2 ^ 53 + 50 * least := by
    obtain ⟨hlow, hhigh⟩ := abs_le.1 hread
    rw [abs_le]
    constructor <;> linarith
  have hy := abs_sub_abs_le_abs_sub (exactValue y * 100) (exactValue w)
  have hsmall := least_le_one
  have hproduct : (y * 100.0).isFinite = true := by
    refine (finiteBelow_mul hshare hhundred).finite_iff.2 ?_
    rw [← abs_exactValue, ← abs_exactValue, ← abs_mul, hhundred']
    refine lt_of_le_of_lt ?_ (Decimal.add_error_lt_overflow
      ((hfigures.abs.hasFigures (by decide)).lt_overflow_iff.1 hbelow))
    linarith
  have hagain := ((roundingOf_mul hshare hhundred).isNearest hproduct).error_le
  change |exactValue (y * 100.0) - _| ≤ _ at hagain
  rw [hhundred'] at hagain
  have htriangle := abs_sub_le (exactValue (y * 100.0)) (exactValue y * 100) (exactValue w)
  have htriangle' := abs_sub_le (exactValue (y * 100.0)) (exactValue w) D
  refine ⟨hproduct, ?_⟩
  linarith

/-- Above a certain power of ten the error is less than half a step, and the figures are found
again. -/
theorem significant_eq_of_large (hbelow : |D| < overflow) (hlarge : 10 ^ (-317 : ℤ) < |D|) :
    significant (significant (l * 100.0) 5 / 100.0 * 1.0 * 100.0) 5 =
      significant (l * 100.0) 5 := by
  obtain ⟨hproduct, herror⟩ := rewritten_spec hfinite hfigures hnearest hbelow
  have hpos := least_pos
  obtain ⟨k, hstep, hmin, hmax⟩ := exists_unit hlarge
  have hten := ten_zpow_pos k
  have hnext := (hfigures.abs.hasFigures (by decide)).next_le (g := 10000) (k := k) (by decide)
    (by decide) (by exact_mod_cast hmin)
  push_cast at hnext
  have hunit := ten_zpow_bounds.1
  have hhalf : 2 * |exactValue (significant (l * 100.0) 5 / 100.0 * 1.0 * 100.0) - D| < 10 ^ k := by
    linarith
  have hless := abs_sub_abs_le_abs_sub D
    (exactValue (significant (l * 100.0) 5 / 100.0 * 1.0 * 100.0))
  rw [abs_sub_comm] at hless
  have hdecade : (10 : ℚ) ^ (k + (5 : ℕ) - 1) = 10000 * 10 ^ k := by
    rw [ten_zpow_add_sub_one k (by decide)]
    norm_num
  refine Decimal.significant_eq (by decide) ?_ hfinite hbelow hnearest fun j' D' h => ?_
  · rw [← abs_pos]
    linarith
  · refine h.eq_of_near (k := k) (by decide) (hfigures.hasFigures (by decide)) ?_ ?_ ?_
    · rw [hdecade]
      linarith
    · rw [hdecade]
      linarith
    · rwa [abs_sub_comm]

include hl hne

/-- Below a certain power of ten no figure is lost: the hundredth is the value itself. -/
theorem significant_eq_of_small (hsmall : |D| < 10 ^ (-317 : ℤ)) :
    significant (significant (l * 100.0) 5 / 100.0 * 1.0 * 100.0) 5 =
      significant (l * 100.0) 5 := by
  have hpos := least_pos
  obtain ⟨hunit, hunit'⟩ := ten_zpow_bounds
  have hpower := ten_zpow_boundary
  have hj : j ≤ -322 := by
    have := lt_of_ten_zpow_lt ((hfigures.bounds (by decide)).1.trans_lt hsmall)
    omega
  obtain ⟨g, -, herror, -⟩ := hfigures.near
  have hstep : (10 : ℚ) ^ j ≤ 10 ^ (-322 : ℤ) := ten_zpow_le hj
  have hvalue : |exactValue (l * 100.0)| < 10 ^ (-317 : ℤ) :=
    hfigures.high.trans_le (ten_zpow_le (by omega))
  have hexact := exactValue_hundred hl hne (by linarith)
  have hwritten := hnearest.error_le
  obtain ⟨hshare, hnearest'⟩ := share_spec hfinite
  obtain ⟨k, hk⟩ := (isFloatValue_exactValue hl).exists_multiple
  have hless : |D| / 2 ^ 53 ≤ least / 100 := by linarith
  have hshort : |exactValue (significant (l * 100.0) 5) / 100 - k * least| < least / 2 := by
    rw [← hk]
    rw [hexact] at herror
    obtain ⟨hlow, hhigh⟩ := abs_le.1 herror
    obtain ⟨hlow', hhigh'⟩ := abs_le.1 hwritten
    rw [abs_lt]
    constructor <;> linarith
  have hsize : |k| ≤ 2 ^ 52 := by
    rw [hexact, hk, abs_mul, abs_mul, abs_of_pos hpos, abs_of_pos (by norm_num : (0 : ℚ) < 100)]
      at hvalue
    have hle : |(k : ℚ)| * least ≤ 2 ^ 52 * least := by linarith
    exact_mod_cast le_of_mul_le_mul_right hle hpos
  have hsame := hnearest'.eq_of_tiny hsize hshort.le fun heq => absurd heq hshort.ne
  rw [← hk] at hsame
  have hlne : exactValue l ≠ 0 := fun hzero => hne (by rw [hexact, hzero, mul_zero])
  rw [eq_of_exactValue hshare hl (hsame ▸ hlne) hsame]

end

theorem abs_bounds_of_eq (hfigures : FiguresOf 5 j r D) (hpower : |D| = 10 ^ (-317 : ℤ)) :
    99999.5 * 10 ^ (-322 : ℤ) ≤ |r| ∧ |r| ≤ 100005 * 10 ^ (-322 : ℤ) := by
  have hstep : (10 : ℚ) ^ (-321 : ℤ) = 10 * 10 ^ (-322 : ℤ) := by
    rw [show (-321 : ℤ) = -322 + (1 : ℕ) from rfl, ten_zpow_add]
    norm_num
  obtain ⟨g, -, herror, -⟩ := hfigures.abs.near
  obtain ⟨hlow, hhigh⟩ := abs_le.1 herror
  have hj : j ≤ -321 := by
    have := (hfigures.bounds (by decide)).1
    rw [hpower] at this
    have := (zpow_le_zpow_iff_right₀ (by norm_num : (1 : ℚ) < 10)).1 this
    omega
  have hwide : (10 : ℚ) ^ j ≤ 10 ^ (-321 : ℤ) := ten_zpow_le hj
  have hpos := ten_zpow_pos (-322)
  rw [hpower, ten_zpow_boundary] at hlow hhigh
  refine ⟨?_, by linarith⟩
  rcases le_or_gt (10 ^ (-317 : ℤ)) |r| with hle | hlt
  · rw [ten_zpow_boundary] at hle
    linarith
  · have hj' : j ≤ -322 := by
      have := lt_of_ten_zpow_lt (hfigures.low.trans_lt hlt)
      omega
    have hnarrow : (10 : ℚ) ^ j ≤ 10 ^ (-322 : ℤ) := ten_zpow_le hj'
    linarith

theorem exactSize_of_eq (hl : l.isFinite = true) (hne : exactValue (l * 100.0) ≠ 0)
    (hfigures : FiguresOf 5 j (exactValue (l * 100.0)) D) (hpower : |D| = 10 ^ (-317 : ℤ)) :
    exactSize l = 20241 * least := by
  have hpos := least_pos
  obtain ⟨hunit, hunit'⟩ := ten_zpow_bounds
  obtain ⟨hlow, hhigh⟩ := abs_bounds_of_eq hfigures hpower
  have hexact := exactValue_hundred hl hne (by linarith)
  obtain ⟨k, hk⟩ := (isFloatValue_exactValue hl).exists_multiple
  have hsize : |exactValue (l * 100.0)| = 100 * (|(k : ℚ)| * least) := by
    rw [hexact, hk, abs_mul, abs_mul, abs_of_pos hpos, abs_of_pos (by norm_num : (0 : ℚ) < 100)]
  have hk' : |k| = 20241 := by
    refine eq_of_cast_near (lt_of_mul_lt_mul_right ?_ hpos.le)
      (lt_of_mul_lt_mul_right ?_ hpos.le) <;> push_cast <;> linarith
  rw [← abs_exactValue, hk, abs_mul, abs_of_pos hpos, ← Int.cast_abs, hk', Int.cast_ofNat]

theorem significant_ne_of_unsettled (hl : l.isFinite = true) (h : exactSize l = 20241 * least) :
    significant (significant (l * 100.0) 5 / 100.0 * 1.0 * 100.0) 5 ≠
      significant (l * 100.0) 5 := by
  obtain ⟨hfinite, hvalue, hother⟩ := unsettled_spec
  obtain ⟨hneg, hneg'⟩ := neg_spec hfinite
  have hne : exactValue l ≠ 0 := by
    rw [← abs_pos, abs_exactValue, h]
    exact mul_pos (by norm_num) least_pos
  rw [← abs_exactValue, abs_eq (mul_pos (by norm_num) least_pos).le] at h
  refine hother l (h.imp (fun hpos => ?_) fun hminus => ?_)
  · exact eq_of_exactValue hl hfinite hne (hpos.trans hvalue.symm)
  · exact eq_of_exactValue hl hneg hne (by rw [hminus, hneg', hvalue])

/-- A lightness settles when its percentage is rounded to five figures, unless it is this one. -/
theorem significant_lightness_iff (hl : l.isFinite = true)
    (hfinite : (significant (l * 100.0) 5).isFinite = true) :
    significant (significant (l * 100.0) 5 / 100.0 * 1.0 * 100.0) 5 =
      significant (l * 100.0) 5 ↔ exactSize l ≠ 20241 * least := by
  refine ⟨fun hsame hsize => significant_ne_of_unsettled hl hsize hsame, fun hother => ?_⟩
  by_cases hzero : exactValue (l * 100.0) = 0
  · have hvalue : exactValue (0.0 / 100.0 * 1.0 * 100.0 : Float) = 0 := by decide +kernel
    rw [Decimal.significant_of_zero hzero, Decimal.significant_of_zero hvalue]
  · obtain ⟨j, D, hfigures, hbelow, hnearest⟩ := Decimal.significant_spec hzero 5
    rcases lt_trichotomy |D| (10 ^ (-317 : ℤ)) with hsmall | hpower | hlarge
    · exact significant_eq_of_small hl hzero hfinite hfigures (hnearest hfinite) hsmall
    · exact absurd (exactSize_of_eq hl hzero hfigures hpower) hother
    · exact significant_eq_of_large hfinite hfigures (hnearest hfinite) (hbelow.1 hfinite) hlarge

end ColorGraph
