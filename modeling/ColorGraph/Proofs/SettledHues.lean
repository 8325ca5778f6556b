import ColorGraph.Proofs.RoundedFigures
import ColorGraph.Proofs.WellFormedColors
/-!
Hues and opacities that are rounded to five figures and read again. Main statements: a hue settles
at once exactly when it is not negative, a few least floats aside, and not rounded to a full turn,
and an opacity below one exactly when it is not rounded to one.
-/

set_option autoImplicit false

namespace ColorGraph

open Float.Model Float.Model.UnpackedFloat

attribute [local instance (2000)] instPowNat

theorem not_isFinite_sub {x y : Float} (hx : x.isFinite = true) (hy : ¬ y.isFinite = true) :
    ¬ (x - y).isFinite = true := by
  change x.toModel.unpack.isFinite = true at hx
  change ¬ y.toModel.unpack.isFinite = true at hy
  change ¬ (unpack .binary64 (pack .binary64 (UnpackedFloat.sub .binary64 x.toModel.unpack
    y.toModel.unpack))).isFinite = true
  have hinfinite : ∀ s, ¬ (unpack .binary64 (pack .binary64 (.infinity s))).isFinite = true := by
    intro s
    rw [unpack_pack_infinity]
    exact Bool.false_ne_true
  cases hu : y.toModel.unpack with
  | infinity s =>
    obtain ⟨t, hx⟩ | ⟨t, m, E, h, hx⟩ := zero_or_finite hx <;> rw [hx] <;> exact hinfinite (-s)
  | notANumber =>
    obtain ⟨t, hx⟩ | ⟨t, m, E, h, hx⟩ := zero_or_finite hx <;> rw [hx] <;>
      exact (by decide : ¬ (unpack .binary64 (pack .binary64 .notANumber)).isFinite = true)
  | _ => exact absurd (by rw [hu]; rfl) hy

namespace Color

open Decimal (significant)

variable {x y : Float} {ends : TurnEnds}

theorem abs_settle_le (ends : TurnEnds) (y : Float) :
    |exactValue (ends.settle y)| ≤ |exactValue y| := by
  cases ends with
  | kept => exact le_rfl
  | zeroed =>
    rw [TurnEnds.settle]
    split
    · rw [zero_spec.2, abs_zero]
      exact abs_nonneg _
    · exact le_rfl

theorem wrapAngle_full (x : Float) : exactValue (wrapAngle .zeroed x) = 0 ∨
    2 ^ (-1022 : ℤ) ≤ |exactValue (wrapAngle .zeroed x)| := by
  rw [wrapAngle]
  by_cases hy : (x - wholeTurns x).isFinite = true
  · obtain ⟨hkept, hcut⟩ := settle_spec hy
    by_cases h : exactValue (x - wholeTurns x) < 360 ∧ (exactValue (x - wholeTurns x) = 0 ∨
        2 ^ (-1022 : ℤ) ≤ |exactValue (x - wholeTurns x)|)
    · rw [hkept h]
      exact h.2
    · rw [hcut h]
      exact .inl zero_spec.2
  · have hle := abs_settle_le .zeroed (x - wholeTurns x)
    rw [exactValue_of_not_finite hy, abs_zero] at hle
    exact .inl (abs_nonpos_iff.1 hle)

theorem exactValue_wrapAngle (hx : x.isFinite = true) (hlow : 0 ≤ exactValue x)
    (hhigh : exactValue x < 360)
    (hfull : ends = .kept ∨ exactValue x = 0 ∨ 2 ^ (-1022 : ℤ) ≤ |exactValue x|) :
    exactValue (wrapAngle ends x) = exactValue x := by
  have hsmall : exactSize x < 360 * 2 ^ 48 := by
    rw [← abs_exactValue, abs_of_nonneg hlow]
    linarith
  have hrest := rest_of_turn hx hsmall hlow hhigh
  cases ends with
  | kept => exact hrest
  | zeroed =>
    rw [wrapAngle, (settle_spec (rest_spec hx hsmall).1).1, hrest]
    rw [hrest]
    exact ⟨hhigh, hfull.resolve_left fun h => by cases h⟩

theorem abs_wholeTurns_sub_le (hx : x.isFinite = true) (hturns : (wholeTurns x).isFinite = true) :
    |exactValue (wholeTurns x) - exactValue x| ≤ exactSize x / 2 ^ 51 + 722 := by
  obtain ⟨hturn, hturn'⟩ := turn_spec
  have hnonneg := abs_nonneg (exactValue x)
  have hquot : (x / 360.0).isFinite = true := by
    refine isFinite_div hx hturn ?_
    rw [← abs_exactValue, hturn']
    norm_num
  obtain ⟨hfloor, hfloor'⟩ := floor_eq hquot
  have hdivided : |exactValue (x / 360.0) - exactValue x / exactValue 360.0| ≤ _ :=
    ((roundingOf_div hx hturn (by rw [hturn']; norm_num)).isNearest hquot).error_le_add_one
  have hmultiplied : |exactValue (wholeTurns x) - _| ≤ _ :=
    ((roundingOf_mul hfloor hturn).isNearest hturns).error_le_add_one
  rw [hturn', abs_div, abs_of_pos (by norm_num : (0 : ℚ) < 360)] at hdivided
  rw [hfloor', hturn'] at hmultiplied
  rw [← abs_exactValue]
  have hwhole : |(⌊exactValue (x / 360.0)⌋ : ℚ) * 360 - exactValue x| ≤
      720 + |exactValue x| / 2 ^ 53 := by
    have hle := Int.floor_le (exactValue (x / 360.0))
    have hlt := Int.lt_floor_add_one (exactValue (x / 360.0))
    obtain ⟨hlow, hhigh⟩ := abs_le.1 hdivided
    rw [abs_le]
    constructor <;> linarith
  have hsize := abs_sub_abs_le_abs_sub ((⌊exactValue (x / 360.0)⌋ : ℚ) * 360) (exactValue x)
  have hgap := abs_sub_le (exactValue (wholeTurns x))
    ((⌊exactValue (x / 360.0)⌋ : ℚ) * 360) (exactValue x)
  linarith

theorem abs_wrapAngle_le_of_large (hx : x.isFinite = true) (hlarge : 360 * 2 ^ 48 ≤ exactSize x)
    (ends : TurnEnds) : |exactValue (wrapAngle ends x)| ≤ exactSize x / 2 ^ 40 := by
  refine (abs_settle_le ends _).trans ?_
  by_cases hy : (x - wholeTurns x).isFinite = true
  · have hturns : (wholeTurns x).isFinite = true := not_not.1 fun h => not_isFinite_sub hx h hy
    have hgap := abs_wholeTurns_sub_le hx hturns
    have hrest : |exactValue (x - wholeTurns x) - _| ≤ _ :=
      ((roundingOf_sub hx hturns).isNearest hy).error_le_add_one
    have hleft := abs_sub_abs_le_abs_sub (exactValue (x - wholeTurns x))
      (exactValue x - exactValue (wholeTurns x))
    rw [abs_sub_comm (exactValue x)] at hrest hleft
    linarith
  · rw [exactValue_of_not_finite hy, abs_zero]
    exact div_nonneg (by linarith) (by positivity)

section

variable (hx : x.isFinite = true) (hsmall : exactSize x < 360 * 2 ^ 48)
include hx hsmall

theorem abs_wrapAngle_le_of_small (ends : TurnEnds) : |exactValue (wrapAngle ends x)| ≤ 360 := by
  refine (abs_settle_le ends _).trans ?_
  by_cases h : IsSliver x
  · have hlow := h.low
    norm_num at hlow
    rw [rest_of_sliver hx hsmall h]
    split
    · norm_num
    · rw [abs_of_neg h.high]
      linarith
  · obtain ⟨hlow, hhigh⟩ := rest_range hx hsmall h
    rw [abs_of_nonneg hlow]
    exact hhigh.le

theorem wrapAngle_nonneg (h : ¬ (-(180 * least) ≤ exactValue x ∧ exactValue x < 0))
    (ends : TurnEnds) : 0 ≤ exactValue (wrapAngle ends x) := by
  have hrest := rest_nonneg hx hsmall h
  cases ends with
  | kept => exact hrest
  | zeroed =>
    rw [wrapAngle, TurnEnds.settle]
    split
    · exact zero_spec.2.ge
    · exact hrest

end

/-- Every hue can be written to five figures. -/
theorem isFinite_significant_wrapAngle (ends : TurnEnds) (x : Float) :
    (significant (wrapAngle ends x) 5).isFinite = true := by
  have hlargest : maxFinite / 2 ^ 40 ≤ Decimal.largestFive := by
    have hoverflow := Decimal.overflow_le_two_mul_largestFive
    have hpos := Decimal.le_largestFive (q := 0) (by norm_num)
    rw [div_le_iff₀ (by positivity)]
    linarith [maxFinite_lt_overflow]
  rw [Decimal.isFinite_significant_iff, ← abs_exactValue]
  by_cases hx : x.isFinite = true
  · rcases lt_or_ge (exactSize x) (360 * 2 ^ 48) with hsmall | hlarge
    · exact (abs_wrapAngle_le_of_small hx hsmall ends).trans (Decimal.le_largestFive (by norm_num))
    · refine (abs_wrapAngle_le_of_large hx hlarge ends).trans (le_trans ?_ hlargest)
      refine div_le_div_of_nonneg_right ?_ (by positivity)
      rw [← abs_exactValue]
      exact (isFloatValue_exactValue hx).abs_le_maxFinite
  · have hnan := isNaN_wrapAngle ends hx
    have hnot : ¬ (wrapAngle ends x).isFinite = true := fun hfinite =>
      absurd (FiniteBelow.of_finite hfinite overflow_pos).number (by
        rw [Bool.not_eq_false]
        exact hnan)
    rw [exactValue_of_not_finite hnot, abs_zero]
    exact Decimal.le_largestFive (by norm_num)

theorem exists_powers : ∃ bits zeros : Nat, 0 < bits ∧ 0 < zeros ∧
    (2 : ℚ) ^ (-1022 : ℤ) = 1 / bits ∧ (10 : ℚ) ^ (-312 : ℤ) = 1 / zeros ∧
      44501 * bits < 2 * zeros ∧ zeros ≤ 22251 * bits := by
  refine ⟨2 ^ 1022, 10 ^ 312, by decide +kernel, by decide +kernel, ?_, ?_, by decide +kernel,
    by decide +kernel⟩
  · rw [zpow_neg, one_div, Nat.cast_pow]
    rfl
  · rw [zpow_neg, one_div, Nat.cast_pow]
    rfl

theorem leastNormal_le_significant (hfinite : (significant x 5).isFinite = true)
    (hlow : 2 ^ (-1022 : ℤ) ≤ exactValue x) :
    2 ^ (-1022 : ℤ) ≤ exactValue (significant x 5) := by
  have hfloat : IsFloatValue (2 ^ (-1022 : ℤ)) :=
    ⟨1, -1022, ⟨by decide, by decide, by decide⟩, by
      rw [abs_of_pos (zpow_pos two_pos _), Nat.cast_one, one_mul]⟩
  obtain ⟨bits, zeros, hbits, hzeros, htwo, hten, hbelow, habove⟩ := exists_powers
  have hbits' : (0 : ℚ) < bits := Nat.cast_pos.2 hbits
  have hzeros' : (0 : ℚ) < zeros := Nat.cast_pos.2 hzeros
  have hbelow' : (44501 : ℚ) * bits < 2 * zeros := by exact_mod_cast hbelow
  have habove' : (zeros : ℚ) ≤ 22251 * bits := by exact_mod_cast habove
  refine Decimal.le_significant (g := 22250) (k := -312) (by decide) (by decide) (by decide) hfinite
    ((zpow_pos two_pos _).le.trans hlow) hfloat ?_ (lt_of_lt_of_le ?_ hlow)
  · rw [htwo, hten, mul_one_div, div_le_div_iff₀ hbits' hzeros']
    push_cast
    linarith
  · rw [htwo, hten, mul_one_div, div_lt_div_iff₀ hzeros' hbits']
    push_cast
    linarith

section

variable {h : Float} (hfinite : (significant h 5).isFinite = true)
include hfinite

theorem significant_wrapAngle_ne_of_large (hlarge : 360 * 2 ^ 48 ≤ exactSize (significant h 5)) :
    significant (wrapAngle ends (significant h 5)) 5 ≠ significant h 5 := by
  intro hsame
  have hfinite' := isFinite_significant_wrapAngle ends (significant h 5)
  have hle := (Decimal.abs_significant_le (by decide) hfinite').trans
    (mul_le_mul_of_nonneg_left (abs_wrapAngle_le_of_large hfinite hlarge ends) (by norm_num))
  rw [hsame, abs_exactValue] at hle
  linarith

/-- What is written of a negative hue is another hue when it is read: a turn is added, or all but
little is taken off. -/
theorem significant_wrapAngle_ne_of_neg (hneg : exactValue h < -(180 * least)) :
    significant (wrapAngle ends (significant h 5)) 5 ≠ significant h 5 := by
  rcases lt_or_ge (exactSize (significant h 5)) (360 * 2 ^ 48) with hsmall | hlarge
  · intro hsame
    have hpos := least_pos
    have hsign := Decimal.significant_neg (by decide) hfinite (by linarith : exactValue h < 0)
    have hmore := Decimal.lt_exactSize_significant (m := 180) (by decide) (by decide) (by decide)
      hfinite (by rw [← abs_exactValue, abs_of_neg (by linarith)]; push_cast; linarith)
    rw [← abs_exactValue, abs_of_neg hsign] at hmore
    push_cast at hmore
    have hnonneg := Decimal.significant_nonneg (isFinite_significant_wrapAngle ends _)
      (wrapAngle_nonneg hfinite hsmall (fun htiny => by linarith [htiny.1]) ends)
    rw [hsame] at hnonneg
    exact absurd hsign (not_lt_of_ge hnonneg)
  · exact significant_wrapAngle_ne_of_large hfinite hlarge

omit hfinite in
theorem significant_wrapAngle_of_tiny (hlow : -(180 * least) ≤ exactValue h)
    (hneg : exactValue h < 0) :
    significant (wrapAngle .kept (significant h 5)) 5 = significant h 5 := by
  have hpos := least_pos
  have htiny : significant h 5 = h := by
    refine Decimal.significant_of_tiny (by decide) (by decide) hneg.ne ?_
    rw [← abs_exactValue, abs_of_neg hneg]
    norm_num
    linarith
  have hleast := least_le_one
  have hsliver : IsSliver h := ⟨by norm_num; linarith, hneg⟩
  have hkept : exactValue (wrapAngle .kept h) = exactValue h :=
    (rest_of_sliver hsliver.isFinite hsliver.exactSize_lt hsliver).trans
      (if_neg (not_lt_of_ge hlow))
  rw [htiny, Decimal.significant_congr hkept, htiny]

variable (hnonneg : 0 ≤ exactValue h)
include hnonneg

theorem significant_wrapAngle_of_lt
    (hfull : ends = .kept ∨ exactValue h = 0 ∨ 2 ^ (-1022 : ℤ) ≤ |exactValue h|)
    (hlow : exactValue h < 359.995) :
    significant (wrapAngle ends (significant h 5)) 5 = significant h 5 := by
  have hshort : exactValue (significant h 5) ≤ 46079 / 128 := by
    refine Decimal.significant_le (g := 35999) (k := -2) (by decide) (by decide) (by decide)
      hfinite hnonneg ⟨46079, -7, ⟨by decide, by decide, by decide⟩, ?_⟩ (by norm_num) ?_
    · norm_num
    · norm_num at hlow ⊢
      exact hlow
  have hkept : exactValue (wrapAngle ends (significant h 5)) = exactValue (significant h 5) := by
    refine exactValue_wrapAngle hfinite (Decimal.significant_nonneg hfinite hnonneg)
      (hshort.trans_lt (by norm_num)) (hfull.imp_right ?_)
    rintro (hzero | hnormal)
    · exact .inl (by rw [Decimal.significant_of_zero hzero]; exact zero_spec.2)
    · rw [abs_of_nonneg hnonneg] at hnormal
      exact .inr ((leastNormal_le_significant hfinite hnormal).trans (le_abs_self _))
  rw [Decimal.significant_congr hkept, Decimal.significant_significant (by decide) (by decide)
    hfinite]

theorem turn_le_significant (hhigh : 359.995 ≤ exactValue h) :
    360 ≤ exactValue (significant h 5) := by
  have hturn : ((35999 : ℤ) + 1 : ℚ) * 10 ^ (-2 : ℤ) = 360 := by norm_num
  have hfloat : IsFloatValue 360 := isFloatValue_natCast (m := 360) (by decide)
  rcases lt_or_ge (exactValue h) 360 with hlt | hge
  · rw [← hturn] at hfloat hlt ⊢
    refine (Decimal.significant_eq_next (by decide) (by decide) (by decide) hfinite hnonneg
      (by decide) hfloat ?_ hlt).ge
    norm_num at hhigh ⊢
    exact hhigh
  · refine Decimal.le_significant (g := 35999) (k := -2) (by decide) (by decide) (by decide)
      hfinite hnonneg hfloat hturn.ge (lt_of_lt_of_le ?_ hge)
    norm_num

/-- What is rounded to a full turn or to more loses a turn when it is read. -/
theorem significant_wrapAngle_ne_of_turn (hhigh : 359.995 ≤ exactValue h) :
    significant (wrapAngle ends (significant h 5)) 5 ≠ significant h 5 := by
  rcases lt_or_ge (exactSize (significant h 5)) (360 * 2 ^ 48) with hsmall | hlarge
  · intro hsame
    rcases (turn_le_significant hfinite hnonneg hhigh).eq_or_lt with heq | hmore
    · have hall : significant h 5 = 360.0 :=
        eq_of_exactValue hfinite turn_spec.1 (by rw [← heq]; norm_num) (by rw [← heq, turn_spec.2])
      rw [hall] at hsame
      have hvalues := congrArg exactValue hsame
      revert hvalues
      cases ends <;> decide +kernel
    · have hnonneg' := wrapAngle_nonneg hfinite hsmall (fun htiny => by linarith [htiny.2]) ends
      have hless := (abs_le.1 (abs_wrapAngle_le_of_small hfinite hsmall ends)).2
      have hle := Decimal.significant_le (g := 36000) (k := -2) (by decide) (by decide) (by decide)
        (isFinite_significant_wrapAngle ends _) hnonneg'
        (isFloatValue_natCast (m := 360) (by decide)) (by norm_num)
        (hless.trans_lt (by norm_num))
      rw [hsame] at hle
      exact absurd hmore (not_lt_of_ge hle)
  · exact significant_wrapAngle_ne_of_large hfinite hlarge

end

/-- A hue settles when it is rounded to five figures, unless it is negative and has a turn added to
it or is rounded to a turn. -/
theorem significant_wrapAngle_iff (ends : TurnEnds) (x : Float) :
    significant (wrapAngle ends (significant (wrapAngle ends x) 5)) 5 =
        significant (wrapAngle ends x) 5 ↔
      -(180 * least) ≤ exactValue (wrapAngle ends x) ∧
        exactValue (wrapAngle ends x) < 359.995 := by
  have hpos := least_pos
  have hfinite := isFinite_significant_wrapAngle ends x
  have hfull : ends = .kept ∨ exactValue (wrapAngle ends x) = 0 ∨
      2 ^ (-1022 : ℤ) ≤ |exactValue (wrapAngle ends x)| := by
    cases ends with
    | kept => exact .inl rfl
    | zeroed => exact .inr (wrapAngle_full x)
  rcases lt_or_ge (exactValue (wrapAngle ends x)) (-(180 * least)) with hneg | htiny
  · exact iff_of_false (significant_wrapAngle_ne_of_neg hfinite hneg)
      fun hnot => absurd hnot.1 (not_le_of_gt hneg)
  rcases lt_or_ge (exactValue (wrapAngle ends x)) 0 with hneg | hnonneg
  · obtain rfl : ends = .kept := hfull.resolve_right fun hfull => by
      rw [abs_of_neg hneg, two_zpow_leastNormal] at hfull
      rcases hfull with hzero | hlarge <;> linarith
    exact iff_of_true (significant_wrapAngle_of_tiny htiny hneg)
      ⟨htiny, hneg.trans (by norm_num)⟩
  rcases lt_or_ge (exactValue (wrapAngle ends x)) 359.995 with hlow | hhigh
  · exact iff_of_true (significant_wrapAngle_of_lt hfinite hnonneg hfull hlow) ⟨htiny, hlow⟩
  · exact iff_of_false (significant_wrapAngle_ne_of_turn hfinite hnonneg hhigh)
      fun hnot => absurd hnot.2 (not_lt_of_ge hhigh)

/-! Opacities. -/

theorem clamp_of_mem (hlow : ¬ x < 0.0) (hhigh : ¬ (1.0 : Float) < x) : clamp x 0.0 1.0 = x := by
  unfold clamp
  dsimp only
  rw [if_neg hlow, if_neg hhigh]

theorem isFinite_significant_of_le_one {a : Float} (ha : exactSize a ≤ 1) :
    (significant a 5).isFinite = true := by
  rw [Decimal.isFinite_significant_iff]
  exact Decimal.le_largestFive (ha.trans (by norm_num))

section

variable {a : Float} (hnonneg : 0 ≤ exactValue a)
include hnonneg

theorem exactSize_of_nonneg : exactSize a = exactValue a := by
  rw [← abs_exactValue, abs_of_nonneg hnonneg]

theorem significant_opacity_of_lt (hlt : exactValue a < 0.999995) :
    clamp (significant a 5) 0.0 1.0 = significant a 5 ∧ significant a 5 < 1.0 := by
  have hone := one_spec.1
  have hfinite := isFinite_significant_of_le_one
    ((exactSize_of_nonneg hnonneg).trans_le (hlt.le.trans (by norm_num)))
  have hlow := Decimal.significant_nonneg hfinite hnonneg
  have hhigh : exactValue (significant a 5) ≤ ((2 ^ 20 - 1 : ℕ) : ℚ) * 2 ^ (-20 : ℤ) := by
    refine Decimal.significant_le (g := 99999) (k := -5) (by decide) (by decide) (by decide) hfinite
      hnonneg ⟨2 ^ 20 - 1, -20, ⟨by decide, by decide, by decide⟩, ?_⟩ (by norm_num) ?_
    · exact abs_of_nonneg (by positivity)
    · norm_num at hlt ⊢
      exact hlt
  have hbelow : exactValue (significant a 5) < 1 := hhigh.trans_lt (by norm_num)
  refine ⟨clamp_of_mem ?_ ?_, ?_⟩
  · rw [lt_iff hfinite zero_spec.1, zero_spec.2]
    exact not_lt_of_ge hlow
  · rw [lt_iff hone hfinite, exactValue_one]
    exact not_lt_of_ge hbelow.le
  · rw [lt_iff hfinite hone, exactValue_one]
    exact hbelow

theorem significant_eq_one (hge : 0.999995 ≤ exactValue a) (hlt : exactValue a < 1) :
    significant a 5 = 1.0 := by
  have hone := one_spec.1
  have hfinite := isFinite_significant_of_le_one ((exactSize_of_nonneg hnonneg).trans_le hlt.le)
  have hlast : ((99999 : ℤ) + 1 / 2 : ℚ) * 10 ^ (-5 : ℤ) = 0.999995 ∧
      ((99999 : ℤ) + 1 : ℚ) * 10 ^ (-5 : ℤ) = 1 := by norm_num
  have hvalue : exactValue (significant a 5) = 1 := by
    rw [← hlast.2]
    refine Decimal.significant_eq_next (by decide) (by decide) (by decide) hfinite hnonneg
      (by decide) ?_ ?_ ?_
    · rw [hlast.2]
      exact isFloatValue_natCast (m := 1) (by decide)
    · rwa [hlast.1]
    · rwa [hlast.2]
  exact eq_of_exactValue hfinite hone (by rw [hvalue]; norm_num) (by rw [hvalue, exactValue_one])

end

end Color
end ColorGraph
