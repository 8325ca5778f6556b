import ColorGraph.Color.Basic
import ColorGraph.Proofs.NearestFloats
/-!
Angles that are brought into one turn. Main statement: below `2 ^ 48` turns the remainder is not
negative and below 360, except for angles just below zero, which are left as they are or come to a
full turn. Where the ends of a turn are zeroed, there is no exception.
-/

set_option autoImplicit false

namespace ColorGraph

open Float.Model Float.Model.UnpackedFloat

attribute [local instance (2000)] instPowNat

theorem le_maxFinite {q : ℚ} (h : q ≤ 2 ^ 64) : q ≤ maxFinite := by
  have hpow : (2 : ℚ) ^ (12 : ℤ) ≤ 2 ^ (971 : ℤ) := zpow_le_zpow_right₀ one_le_two (by decide)
  calc q ≤ (2 ^ 53 - 1 : ℕ) * 2 ^ (12 : ℤ) := h.trans (by norm_num)
    _ ≤ maxFinite := mul_le_mul_of_nonneg_left hpow (Nat.cast_nonneg _)

/-! The turns of an angle `v`, as a rounded quotient `q`. -/

section

variable {v q : ℚ} (hv : IsFloatValue v) (hlt : |v| < 360 * 2 ^ 48) (h : IsNearest (v / 360) q)

theorem exists_multiple (hv : IsFloatValue v) (k : ℤ) :
    ∃ E : ℤ, |v| < 2 ^ 53 * 2 ^ E ∧ ∃ z : ℤ, 360 * k - v = z * 2 ^ min E 3 := by
  obtain ⟨m, E, hm, hsize⟩ := hv
  have hshort : (m : ℚ) < 2 ^ 53 := by exact_mod_cast hm.short
  obtain ⟨w, hw⟩ := exists_multiple_of_place hsize (min_le_left E 3)
  refine ⟨E, hsize ▸ mul_lt_mul_of_pos_right hshort (zpow_pos two_pos E),
    45 * k * 2 ^ (3 - min E 3).toNat - w, ?_⟩
  have hthree : (8 : ℚ) = ((2 ^ (3 - min E 3).toNat : Nat) : ℚ) * 2 ^ min E 3 := by
    rw [← two_zpow_add_toNat (min_le_right E 3)]
    norm_num
  rw [hw]
  push_cast at hthree ⊢
  linear_combination (45 * (k : ℚ)) * hthree

theorem turns_le_of_full {p k : ℤ} (hv : IsFloatValue v) (hlt : |v| < 360 * 2 ^ 48)
    (hfull : 2 ^ 52 * 2 ^ p * 360 ≤ |v|) (hgap : 360 * k - v ≤ 180 * 2 ^ p) : 360 * k ≤ v := by
  obtain ⟨E, hshort, z, hz⟩ := exists_multiple hv k
  have hstep : (180 : ℚ) * 2 ^ p < 2 ^ E := by linarith
  have hplace : p < -4 := by
    have hquarter : (2 : ℚ) ^ p < 2 ^ (-4 : ℤ) := by
      norm_num
      linarith
    exact (zpow_lt_zpow_iff_right₀ one_lt_two).1 hquarter
  have hsmall : (180 : ℚ) * 2 ^ p < 2 ^ (3 : ℤ) := by
    have hle : (2 : ℚ) ^ p ≤ 2 ^ (-5 : ℤ) := zpow_le_zpow_right₀ one_le_two (by omega)
    norm_num at hle ⊢
    linarith
  have hmin : (180 : ℚ) * 2 ^ p < 2 ^ min E 3 := by
    rcases min_choice E 3 with hmin | hmin <;> rw [hmin] <;> assumption
  have hmpos : (0 : ℚ) < 2 ^ min E 3 := zpow_pos two_pos _
  have hnonpos : z ≤ 0 := by
    by_contra hone
    have hcast : (1 : ℚ) ≤ z := by exact_mod_cast not_le.1 hone
    have := mul_le_mul_of_nonneg_right hcast hmpos.le
    linarith
  have := mul_nonpos_of_nonpos_of_nonneg (Int.cast_nonpos.2 hnonpos) hmpos.le
  linarith

include hlt h

theorem abs_turns_le : |q| ≤ 2 ^ 48 := by
  have hfloat : IsFloatValue (2 ^ 48) := isFloatValue_two_pow (by decide)
  obtain ⟨hlow, hhigh⟩ := abs_lt.1 hlt
  refine abs_le.2 ⟨h.le_of_ge hfloat.neg ?_, h.le_of_le hfloat ?_⟩
  · rw [le_div_iff₀ (by norm_num)]
    linarith
  · rw [div_le_iff₀ (by norm_num)]
    linarith

/-- The whole turns that a rounded quotient says are not more than there are, unless the quotient
is too small to be told from zero. -/
theorem turns_le (hv : IsFloatValue v) :
    360 * (⌊q⌋ : ℚ) ≤ v ∨ -(180 * least) ≤ v ∧ v < 0 := by
  obtain ⟨p, -, -, hnear, -, hp⟩ := h.near
  have hgap : 360 * (⌊q⌋ : ℚ) - v ≤ 180 * 2 ^ p := by
    have hfloor := Int.floor_le q
    have := (abs_le.1 hnear).2
    linarith
  rw [abs_div, abs_of_pos (by norm_num : (0 : ℚ) < 360), le_div_iff₀ (by norm_num)] at hp
  by_cases hfull : 2 ^ 52 * 2 ^ p * 360 ≤ |v|
  · exact .inl (turns_le_of_full hv hlt hfull hgap)
  obtain rfl : p = -1074 := hp.resolve_left hfull
  have htiny := least_le_one
  rcases le_or_gt (360 * (⌊q⌋ : ℚ)) v with hle | hgt
  · exact .inl hle
  rw [not_le] at hfull
  rw [← least] at hfull hgap
  obtain ⟨hlow, hhigh⟩ := abs_lt.1 (hfull.trans_le (by linarith : _ ≤ (1 : ℚ)))
  have hzero : ⌊q⌋ = 0 := eq_of_cast_near (by push_cast; linarith) (by push_cast; linarith)
  rw [hzero, Int.cast_zero, mul_zero] at hgt hgap
  exact .inr ⟨by linarith, hgt⟩

theorem lt_turns : v < 360 * (⌊q⌋ + 1) := by
  by_contra hge
  obtain ⟨hlow, hhigh⟩ := abs_le.1 (abs_turns_le hlt h)
  have hlow' : -2 ^ 48 ≤ ⌊q⌋ := Int.le_floor.2 (by push_cast; exact hlow)
  have hhigh' : ⌊q⌋ ≤ 2 ^ 48 := Int.cast_le.1 ((Int.floor_le q).trans (by push_cast; exact hhigh))
  have hnext : IsFloatValue ((⌊q⌋ + 1 : ℤ) : ℚ) := by
    have hfloat := isFloatValue_mul_zpow (z := ⌊q⌋ + 1) (E := 0) (by rw [abs_lt]; omega)
      (by decide) (by decide)
    rwa [zpow_zero, mul_one] at hfloat
  have hle := h.le_of_ge hnext (by rw [le_div_iff₀ (by norm_num)]; push_cast; linarith)
  have := Int.le_floor.2 hle
  omega

omit hlt in
theorem turns_eq_zero (hlow : -(180 * least) ≤ v) (hneg : v < 0) : ⌊q⌋ = 0 := by
  have hsmall : |v / 360 - (0 : ℤ) * least| ≤ least / 2 := by
    rw [Int.cast_zero, zero_mul, sub_zero, abs_le, le_div_iff₀ (by norm_num),
      div_le_iff₀ (by norm_num)]
    have := least_pos
    constructor <;> linarith
  rw [h.eq_of_tiny (by decide) hsmall fun _ => Even.zero, Int.cast_zero, zero_mul, Int.floor_zero]

end

/-! What is left of an angle `v` when `k` turns are taken off, which come to `w` degrees. -/

section

variable {v w : ℚ} {k : ℤ} (hv : IsFloatValue v) (hw : IsNearest (360 * k) w)
  (hlow : 360 * k ≤ v) (hhigh : v < 360 * (k + 1))

theorem turns_exact (hw : IsNearest (360 * k) w) (hk : |45 * k| < 2 ^ 53) : w = 360 * k := by
  have hfloat := isFloatValue_mul_zpow (E := 3) hk (by decide) (by decide)
  have hsame : ((45 * k : ℤ) : ℚ) * 2 ^ (3 : ℤ) = 360 * k := by
    push_cast
    ring
  exact hw.eq_of_isFloatValue (hsame ▸ hfloat)

include hv hw

theorem left_nonneg (hlow : 360 * k ≤ v) : 0 ≤ v - w :=
  sub_nonneg.2 (hw.le_of_le hv hlow)

include hlow hhigh

theorem left_lt_of_multiple (hlarge : 2 ^ 52 * 2 ^ (-44 : ℤ) ≤ |v|) (hk : |45 * k| < 2 ^ 53) :
    v - w < 360 - 2 ^ (-45 : ℤ) := by
  rw [turns_exact hw hk]
  obtain ⟨z, rfl⟩ := hv.exists_multiple_of_full hlarge
  have hlt : z < 360 * (k + 1) * 2 ^ 44 := by
    have hcast : (z : ℚ) < ((360 * (k + 1) * 2 ^ 44 : ℤ) : ℚ) := by
      push_cast
      norm_num at hhigh
      linarith
    exact_mod_cast hcast
  have hcast : (z : ℚ) ≤ ((360 * (k + 1) * 2 ^ 44 - 1 : ℤ) : ℚ) := Int.cast_le.2 (by omega)
  push_cast at hcast
  norm_num
  linarith

omit hv in
theorem left_lt_of_small (hsmall : |v| < 2 ^ 52 * 2 ^ (-44 : ℤ))
    (hnot : v < -2 ^ (-45 : ℤ) ∨ 0 ≤ v) : v - w < 360 - 2 ^ (-45 : ℤ) := by
  norm_num at hsmall hnot ⊢
  obtain ⟨hless, hmore⟩ := abs_lt.1 hsmall
  rcases hnot with hneg | hnonneg
  · obtain rfl : k = -1 := eq_of_cast_near (by push_cast; linarith) (by push_cast; linarith)
    rw [turns_exact hw (by decide)]
    push_cast
    linarith
  · obtain rfl : k = 0 := eq_of_cast_near (by push_cast; linarith) (by push_cast; linarith)
    rw [turns_exact hw (by decide)]
    push_cast
    linarith

omit hv hlow hhigh in
theorem turns_wide (hk : 2 ^ 53 ≤ |45 * k|) (hmax : |k| ≤ 2 ^ 48) :
    2 ^ 52 * 2 ^ (4 : ℤ) ≤ |w| ∧ 360 * k - 8 ≤ w := by
  rw [abs_mul, Nat.abs_ofNat] at hk
  have hk' : (2 ^ 53 : ℚ) ≤ 45 * |(k : ℚ)| := by exact_mod_cast hk
  have hmax' : |(k : ℚ)| ≤ 2 ^ 48 := by exact_mod_cast hmax
  have hsize : |360 * (k : ℚ)| = 360 * |(k : ℚ)| := by
    rw [abs_mul, abs_of_pos (by norm_num : (0 : ℚ) < 360)]
  have hlarge := hw.abs.le_of_ge (isFloatValue_two_pow (k := 56) (by decide))
    (by rw [hsize]; linarith)
  have herror := hw.error_le
  rw [hsize] at herror
  have hfull : 2 ^ 52 * 2 ^ (4 : ℤ) ≤ |w| := by
    norm_num at hlarge ⊢
    exact hlarge
  refine ⟨hfull, ?_⟩
  obtain ⟨z, rfl⟩ := hw.isFloatValue.exists_multiple_of_full (E := 3) (by
    norm_num at hlarge ⊢
    linarith)
  have hnear : |((z - 45 * k : ℤ) : ℚ)| < (2 : ℤ) := by
    have hleast := least_le_one
    obtain ⟨hleft, hright⟩ := abs_le.1 herror
    push_cast
    rw [abs_lt]
    constructor <;> linarith
  have hone : -1 ≤ z - 45 * k := by
    have hcast : |z - 45 * k| < 2 := by exact_mod_cast hnear
    have := (abs_lt.1 hcast).1
    omega
  have hcast : ((-1 : ℤ) : ℚ) ≤ ((z - 45 * k : ℤ) : ℚ) := Int.cast_le.2 hone
  push_cast at hcast
  linarith

omit hv in
theorem left_lt_of_border (hk : 2 ^ 53 ≤ |45 * k|) (hsmall : |v| < 2 ^ 52 * 2 ^ (4 : ℤ)) :
    v - w < 360 - 2 ^ (-45 : ℤ) := by
  norm_num at hsmall
  obtain ⟨hless, hmore⟩ := abs_lt.1 hsmall
  obtain rfl : k = -200159983438689 := by
    have hbelow : (k : ℚ) < (200159983438689 : ℤ) := by push_cast; linarith
    have habove : ((-200159983438690 : ℤ) : ℚ) < k := by push_cast; linarith
    rw [Int.cast_lt] at hbelow habove
    rcases le_abs.1 hk with hk | hk <;> omega
  have hfloat := isFloatValue_mul_zpow (z := -(2 ^ 52 + 6)) (E := 4) (by decide) (by decide)
    (by decide)
  have heven := hw.ge_of_half (by decide) hfloat (by decide) (by decide) (.inl (by decide))
    (by push_cast; norm_num) fun _ => by decide
  push_cast at hhigh heven
  norm_num at hhigh heven ⊢
  linarith

theorem left_lt_of_wide (hk : 2 ^ 53 ≤ |45 * k|) (hmax : |k| ≤ 2 ^ 48) :
    v - w < 360 - 2 ^ (-45 : ℤ) := by
  obtain ⟨hwide, hnear⟩ := turns_wide hw hk hmax
  rcases le_or_gt (2 ^ 52 * 2 ^ (4 : ℤ)) |v| with hlarge | hsmall
  · obtain ⟨y, rfl⟩ := hv.exists_multiple_of_full hlarge
    obtain ⟨z, rfl⟩ := hw.isFloatValue.exists_multiple_of_full hwide
    have hlt : y - z < 23 := by
      have hcast : ((y - z : ℤ) : ℚ) < (23 : ℤ) := by
        push_cast
        linarith
      exact Int.cast_lt.1 hcast
    have hcast : ((y - z : ℤ) : ℚ) ≤ (22 : ℤ) := Int.cast_le.2 (by omega)
    push_cast at hcast
    norm_num
    linarith
  · exact left_lt_of_border hw hlow hhigh hk hsmall

theorem left_lt (hmax : |k| ≤ 2 ^ 48) (hnot : v < -2 ^ (-45 : ℤ) ∨ 0 ≤ v) :
    v - w < 360 - 2 ^ (-45 : ℤ) := by
  rcases le_or_gt (2 ^ 53) |45 * k| with hk | hk
  · exact left_lt_of_wide hv hw hlow hhigh hk hmax
  rcases le_or_gt (2 ^ 52 * 2 ^ (-44 : ℤ)) |v| with hlarge | hsmall
  · exact left_lt_of_multiple hv hw hlow hhigh hlarge hk
  · exact left_lt_of_small hw hlow hhigh hsmall hnot

end

/-- Values up to here are rounded to less than a turn, and values above to a full turn. -/
theorem lt_turn_iff {r y : ℚ} (h : IsNearest r y) :
    y < 360 ↔ r < 360 - 2 ^ (-45 : ℤ) := by
  have hplace : ((45 * 2 ^ 47 : ℤ) : ℚ) * 2 ^ (-44 : ℤ) = 360 := by norm_num
  constructor
  · intro hlt
    by_contra hge
    have hturn := h.ge_of_half (z := 45 * 2 ^ 47) (E := -44) (by decide)
      (isFloatValue_mul_zpow (by decide) (by decide) (by decide)) (by decide) (by decide)
      (.inl (by decide)) (by norm_num at hge ⊢; linarith) fun _ => by decide
    rw [hplace] at hturn
    exact absurd hlt (not_lt_of_ge hturn)
  · intro hlt
    have hle := h.le_of_half (z := 45 * 2 ^ 47 - 1) (E := -44) (by decide)
      (isFloatValue_mul_zpow (by decide) (by decide) (by decide)) (by decide) (by decide)
      (.inl (by decide)) (by norm_num at hlt ⊢; linarith)
      fun heq => absurd hlt (by rw [heq]; norm_num)
    refine hle.trans_lt ?_
    norm_num

namespace Color

theorem turn_spec : (360.0 : Float).isFinite = true ∧ exactValue 360.0 = 360 := by
  decide +kernel

theorem leastNormal_spec :
    leastNormal.isFinite = true ∧ exactValue leastNormal = 2 ^ (-1022 : ℤ) := by
  decide +kernel

theorem two_zpow_leastNormal : (2 : ℚ) ^ (-1022 : ℤ) = 2 ^ 52 * least := by
  rw [least, ← zpow_natCast, ← zpow_add₀ two_ne_zero]
  rfl

/-- An angle just below zero, by at most half the last place of a full turn. -/
structure IsSliver (x : Float) : Prop where
  low : -2 ^ (-45 : ℤ) ≤ exactValue x
  high : exactValue x < 0

theorem IsSliver.isFinite {x : Float} (h : IsSliver x) : x.isFinite = true :=
  isFinite_of_exactValue h.high.ne

theorem IsSliver.exactSize_lt {x : Float} (h : IsSliver x) : exactSize x < 360 * 2 ^ 48 := by
  have hlow := h.low
  norm_num at hlow
  rw [← abs_exactValue, abs_of_neg h.high]
  linarith

section

variable {x : Float} (hx : x.isFinite = true) (hlt : exactSize x < 360 * 2 ^ 48)
include hx hlt

theorem turns_spec : (x / 360.0).isFinite = true ∧
    IsNearest (exactValue x / 360) (exactValue (x / 360.0)) := by
  obtain ⟨hturn, hturn'⟩ := turn_spec
  have hquot : |exactValue x / 360| ≤ 2 ^ 48 := by
    rw [← abs_exactValue] at hlt
    rw [abs_div, abs_of_pos (by norm_num : (0 : ℚ) < 360), div_le_iff₀ (by norm_num)]
    linarith
  have hround := roundingOf_div hx hturn (by rw [hturn']; norm_num)
  rw [hturn'] at hround
  have hfinite := (hround.rounds (le_maxFinite (hquot.trans (by norm_num)))).finite
  exact ⟨hfinite, hround.isNearest hfinite⟩

theorem abs_floor_le : |⌊exactValue (x / 360.0)⌋| ≤ 2 ^ 48 := by
  rw [← abs_exactValue] at hlt
  obtain ⟨hlow, hhigh⟩ := abs_le.1 (abs_turns_le hlt (turns_spec hx (abs_exactValue x ▸ hlt)).2)
  rw [abs_le]
  exact ⟨Int.le_floor.2 (by push_cast; exact hlow),
    Int.cast_le.1 ((Int.floor_le _).trans (by push_cast; exact hhigh))⟩

theorem wholeTurns_spec : (wholeTurns x).isFinite = true ∧
    IsNearest (360 * ⌊exactValue (x / 360.0)⌋) (exactValue (wholeTurns x)) ∧
      |exactValue (wholeTurns x)| ≤ 2 ^ 58 := by
  obtain ⟨hturn, hturn'⟩ := turn_spec
  obtain ⟨hfloor, hfloor'⟩ := floor_eq (turns_spec hx hlt).1
  have hturns : |360 * (⌊exactValue (x / 360.0)⌋ : ℚ)| ≤ 2 ^ 58 := by
    have hle : |(⌊exactValue (x / 360.0)⌋ : ℚ)| ≤ 2 ^ 48 := by exact_mod_cast abs_floor_le hx hlt
    rw [abs_mul, abs_of_pos (by norm_num : (0 : ℚ) < 360)]
    linarith
  have hround := roundingOf_mul hfloor hturn
  rw [hfloor', hturn', mul_comm] at hround
  have hrounds := hround.rounds (le_maxFinite (hturns.trans (by norm_num)))
  exact ⟨hrounds.finite, hround.isNearest hrounds.finite,
    hrounds.abs_value_le (isFloatValue_two_pow (by decide)) hturns⟩

theorem rest_spec : (x - wholeTurns x).isFinite = true ∧
    IsNearest (exactValue x - exactValue (wholeTurns x)) (exactValue (x - wholeTurns x)) := by
  obtain ⟨hfinite, -, hsize⟩ := wholeTurns_spec hx hlt
  have hround := roundingOf_sub hx hfinite
  have hle := abs_sub (exactValue x) (exactValue (wholeTurns x))
  rw [abs_exactValue x] at hle
  have hrounds := hround.rounds (le_maxFinite (by linarith))
  exact ⟨hrounds.finite, hround.isNearest hrounds.finite⟩

theorem counted_turns_le (h : ¬ (-(180 * least) ≤ exactValue x ∧ exactValue x < 0)) :
    360 * (⌊exactValue (x / 360.0)⌋ : ℚ) ≤ exactValue x := by
  have hquot := (turns_spec hx hlt).2
  rw [← abs_exactValue] at hlt
  exact (turns_le hlt hquot (isFloatValue_exactValue hx)).resolve_right h

theorem lt_counted_turns : exactValue x < 360 * (⌊exactValue (x / 360.0)⌋ + 1) := by
  have hquot := (turns_spec hx hlt).2
  rw [← abs_exactValue] at hlt
  exact lt_turns hlt hquot

theorem rest_nonneg (h : ¬ (-(180 * least) ≤ exactValue x ∧ exactValue x < 0)) :
    0 ≤ exactValue (x - wholeTurns x) :=
  (rest_spec hx hlt).2.nonneg (left_nonneg (isFloatValue_exactValue hx)
    (wholeTurns_spec hx hlt).2.1 (counted_turns_le hx hlt h))

theorem rest_of_no_turns (h : ⌊exactValue (x / 360.0)⌋ = 0) :
    exactValue (x - wholeTurns x) = exactValue x := by
  have hturns := (wholeTurns_spec hx hlt).2.1
  have hrest := (rest_spec hx hlt).2
  rw [h, Int.cast_zero, mul_zero] at hturns
  rw [hturns.eq_of_isFloatValue isFloatValue_zero, sub_zero] at hrest
  exact hrest.eq_of_isFloatValue (isFloatValue_exactValue hx)

/-- What is left is a part of a turn, unless rounding is in the way just below zero. -/
theorem rest_range (h : ¬ IsSliver x) :
    0 ≤ exactValue (x - wholeTurns x) ∧ exactValue (x - wholeTurns x) < 360 := by
  have hleast := least_le_one
  have htiny : ¬ (-(180 * least) ≤ exactValue x ∧ exactValue x < 0) := fun htiny =>
    h ⟨by norm_num; linarith, htiny.2⟩
  refine ⟨rest_nonneg hx hlt htiny, (lt_turn_iff (rest_spec hx hlt).2).2 ?_⟩
  refine left_lt (isFloatValue_exactValue hx) (wholeTurns_spec hx hlt).2.1
    (counted_turns_le hx hlt htiny) (lt_counted_turns hx hlt) (abs_floor_le hx hlt) ?_
  rcases lt_or_ge (exactValue x) 0 with hneg | hnonneg
  · exact .inl (not_le.1 fun hlow => h ⟨hlow, hneg⟩)
  · exact .inr hnonneg

/-- Just below zero a full turn is left, or no turn is taken off. -/
theorem rest_of_sliver (h : IsSliver x) : exactValue (x - wholeTurns x) =
    if exactValue x < -(180 * least) then 360 else exactValue x := by
  have hneg := h.high
  have hlow := h.low
  norm_num at hlow
  split
  next hmore =>
    have hcounted := counted_turns_le hx hlt fun htiny => absurd hmore (not_lt_of_ge htiny.1)
    have hnext := lt_counted_turns hx hlt
    have hone : ⌊exactValue (x / 360.0)⌋ = -1 :=
      eq_of_cast_near (by push_cast; linarith) (by push_cast; linarith)
    have hrest := (rest_spec hx hlt).2
    rw [turns_exact (wholeTurns_spec hx hlt).2.1 (by rw [hone]; decide), hone] at hrest
    push_cast at hrest
    refine le_antisymm (hrest.le_of_le (isFloatValue_natCast (m := 360) (by decide)) ?_)
      (not_lt.1 fun hless => ?_)
    · linarith
    · have := (lt_turn_iff hrest).1 hless
      norm_num at this
      linarith
  next hmore =>
    exact rest_of_no_turns hx hlt (turns_eq_zero (turns_spec hx hlt).2 (not_lt.1 hmore) hneg)

theorem rest_of_turn (hlow : 0 ≤ exactValue x) (hhigh : exactValue x < 360) :
    exactValue (x - wholeTurns x) = exactValue x := by
  have hcounted := counted_turns_le hx hlt fun htiny => absurd hlow (not_le_of_gt htiny.2)
  have hnext := lt_counted_turns hx hlt
  exact rest_of_no_turns hx hlt
    (eq_of_cast_near (by push_cast; linarith) (by push_cast; linarith))

end

theorem settle_spec {y : Float} (hy : y.isFinite = true) :
    (exactValue y < 360 ∧ (exactValue y = 0 ∨ 2 ^ (-1022 : ℤ) ≤ |exactValue y|) →
      TurnEnds.zeroed.settle y = y) ∧
    (¬ (exactValue y < 360 ∧ (exactValue y = 0 ∨ 2 ^ (-1022 : ℤ) ≤ |exactValue y|)) →
      TurnEnds.zeroed.settle y = 0.0) := by
  obtain ⟨hturn, hturn'⟩ := turn_spec
  obtain ⟨hzero, hzero'⟩ := zero_spec
  obtain ⟨hleast, hleast'⟩ := leastNormal_spec
  obtain ⟨habs, habs'⟩ := abs_spec hy
  have hcut : (y ≥ 360.0 || (y != 0.0 && y.abs < leastNormal)) = true ↔
      ¬ (exactValue y < 360 ∧ (exactValue y = 0 ∨ 2 ^ (-1022 : ℤ) ≤ |exactValue y|)) := by
    rw [Bool.or_eq_true, Bool.and_eq_true, decide_eq_true_eq, decide_eq_true_eq, bne,
      Bool.not_eq_true', ← Bool.not_eq_true, beq_iff hy hzero, ge_iff_le, le_iff hturn hy,
      lt_iff habs hleast, hturn', hzero', habs', hleast', not_and_or, not_or, not_lt, not_le]
  exact ⟨fun h => if_neg fun hc => hcut.1 hc h, fun h => if_pos (hcut.2 h)⟩

theorem zero_range : (0.0 : Float) ≤ 0.0 ∧ (0.0 : Float) < 360.0 := by
  decide +kernel

theorem settle_range {y : Float} (hy : y.isFinite = true) (hlow : 0 ≤ exactValue y)
    (hhigh : exactValue y < 360) (ends : TurnEnds) :
    0.0 ≤ ends.settle y ∧ ends.settle y < 360.0 := by
  obtain ⟨hturn, hturn'⟩ := turn_spec
  obtain ⟨hzero, hzero'⟩ := zero_spec
  have hkept : 0.0 ≤ y ∧ y < 360.0 := by
    rw [le_iff hzero hy, lt_iff hy hturn, hzero', hturn']
    exact ⟨hlow, hhigh⟩
  cases ends with
  | kept => exact hkept
  | zeroed =>
    rw [TurnEnds.settle]
    split
    · exact zero_range
    · exact hkept

section

variable {x : Float} (hx : x.isFinite = true) (hlt : exactSize x < 360 * 2 ^ 48)
include hx hlt

/-- Below `2 ^ 48` turns an angle is brought into one turn, unless it is just below zero and the
ends of the turn are kept. -/
theorem wrapAngle_range_iff (ends : TurnEnds) :
    0.0 ≤ wrapAngle ends x ∧ wrapAngle ends x < 360.0 ↔ (ends = .kept → ¬ IsSliver x) := by
  obtain ⟨hfinite, -⟩ := rest_spec hx hlt
  by_cases h : IsSliver x
  · have hrest := rest_of_sliver hx hlt h
    have hneg := h.high
    cases ends with
    | kept =>
      refine iff_of_false ?_ fun hnot => hnot rfl h
      change ¬ (0.0 ≤ x - wholeTurns x ∧ x - wholeTurns x < 360.0)
      rw [le_iff zero_spec.1 hfinite, lt_iff hfinite turn_spec.1, zero_spec.2, turn_spec.2, hrest]
      split
      · exact fun hrange => hrange.2.false
      · exact fun hrange => absurd hneg (not_lt_of_ge hrange.1)
    | zeroed =>
      refine iff_of_true ?_ fun hkept => by cases hkept
      have hzero : wrapAngle .zeroed x = 0.0 := (settle_spec hfinite).2 fun hfull => by
        rw [hrest] at hfull
        split at hfull
        · exact hfull.1.false
        next hmore =>
          have hleast := least_pos
          rw [abs_of_neg hneg, two_zpow_leastNormal] at hfull
          rcases hfull.2 with hzero | hlarge <;> linarith
      rw [hzero]
      exact zero_range
  · obtain ⟨hlow, hhigh⟩ := rest_range hx hlt h
    exact iff_of_true (settle_range hfinite hlow hhigh ends) fun _ => h

end

-- the hue that is observed just below zero, and that of the bare formula
example : wrapAngle .zeroed (-1e-30) == 0.0 ∧ wrapAngle .kept (-1e-30) == 360.0 := by
  decide +kernel

-- just above the bound an angle comes out negative
example : 360 * 2 ^ 48 < exactSize 101330991615837232.0 ∧
    ∀ ends ∈ [TurnEnds.kept, .zeroed], wrapAngle ends 101330991615837232.0 < 0.0 := by
  decide +kernel

theorem isNaN_wrapAngle (ends : TurnEnds) {x : Float} (hx : ¬ x.isFinite = true) :
    (wrapAngle ends x).isNaN = true := by
  cases ends <;> rcases eq_of_not_finite hx with rfl | rfl | rfl <;> decide +kernel

/-- A finite angle that is set is kept within a turn, either end of it included. -/
theorem wrapped_spec {x : Float} (hx : x.isFinite = true) : (wrapped x 360).isFinite = true ∧
    0 ≤ exactValue (wrapped x 360) ∧ exactValue (wrapped x 360) ≤ 360 := by
  obtain ⟨hfinite, hlt⟩ := remainder_spec hx (n := 360) (by decide) (by decide)
  obtain ⟨hzero, hzero'⟩ := zero_spec
  obtain ⟨hlow, hhigh⟩ := abs_lt.1 hlt
  push_cast at hlow hhigh
  unfold wrapped
  dsimp only
  split
  next hneg =>
    rw [lt_iff hfinite hzero, hzero'] at hneg
    obtain ⟨hturn, hturn'⟩ := ofNat_spec (n := 360) (by decide)
    push_cast at hturn'
    have hround := roundingOf_add hfinite hturn
    rw [hturn'] at hround
    have hrounds := hround.rounds (le_maxFinite (by rw [abs_le]; constructor <;> linarith))
    exact ⟨hrounds.finite, hrounds.le_of_ge isFloatValue_zero (by linarith),
      hrounds.le_of_le (isFloatValue_natCast (m := 360) (by decide)) (by linarith)⟩
  next hnot =>
    rw [lt_iff hfinite hzero, hzero', not_lt] at hnot
    exact ⟨hfinite, hnot, hhigh.le⟩

end Color
end ColorGraph
