import ColorGraph.Proofs.BinaryForms
import ColorGraph.Proofs.FloatOrder
/-!
Rounding to the nearest float, as a relation between a value and what it is rounded to. Main
statements: operations and decimals come to a nearest float whenever they come to a finite one;
there is only one; and it is a given float as soon as the value is within half the gaps around that.
-/

set_option autoImplicit false

namespace ColorGraph

def least : ℚ :=
  2 ^ (-1074 : ℤ)

theorem least_pos : 0 < least :=
  zpow_pos two_pos _

theorem half_least : least / 2 = 2 ^ (-1075 : ℤ) := by
  rw [least, show (-1075 : ℤ) = -1074 - 1 from rfl, zpow_sub_one₀ two_ne_zero, div_eq_mul_inv]

theorem least_le_one : least ≤ 1 / 2 ^ 64 := by
  have hle : least ≤ 2 ^ (-64 : ℤ) := zpow_le_zpow_right₀ one_le_two (by decide)
  exact hle.trans_eq (by norm_num)

theorem eq_of_cast_near {k n : ℤ} (hlow : (n : ℚ) - 1 < k) (hhigh : (k : ℚ) < n + 1) : k = n := by
  have hmore : n - 1 < k := by exact_mod_cast hlow
  have hless : k < n + 1 := by exact_mod_cast hhigh
  omega

end ColorGraph

namespace Float.Model.UnpackedFloat

open Format ColorGraph

attribute [local instance (2000)] instPowNat

variable {n d : Nat} {e E z : Int} {q r v w : ℚ} {u : UnpackedFloat}

/-- What `r` is rounded to is `v`: no float lies between, and `v` is within half a unit in the last
of 53 bits, or of the least float, a half going to the even one. -/
structure IsNearest (r v : ℚ) : Prop where
  isFloatValue : IsFloatValue v
  le_of_le {q : ℚ} : IsFloatValue q → r ≤ q → v ≤ q
  le_of_ge {q : ℚ} : IsFloatValue q → q ≤ r → q ≤ v
  near : ∃ p z : ℤ, v = z * 2 ^ p ∧ |v - r| ≤ 2 ^ p / 2 ∧ (|v - r| = 2 ^ p / 2 → Even z) ∧
    (2 ^ 52 * 2 ^ p ≤ |r| ∨ p = -1074)

theorem isFloatValue_mul_zpow (hz : |z| < 2 ^ 53) (hlow : -1074 ≤ E) (hhigh : E ≤ 971) :
    IsFloatValue (z * 2 ^ E) := by
  refine ⟨z.natAbs, E, ⟨?_, hlow, hhigh⟩, ?_⟩
  · rw [abs_lt] at hz
    omega
  · rw [abs_mul, abs_of_pos (zpow_pos (two_pos (α := ℚ)) E), Nat.cast_natAbs, Int.cast_abs]

theorem exists_multiple_of_place {m : Nat} (hq : |q| = m * 2 ^ e) (h : E ≤ e) :
    ∃ z : ℤ, q = z * 2 ^ E := by
  rw [two_zpow_add_toNat h, ← mul_assoc] at hq
  rcases (abs_eq (by positivity)).1 hq with rfl | rfl
  · exact ⟨m * 2 ^ (e - E).toNat, by push_cast; rfl⟩
  · exact ⟨-(m * 2 ^ (e - E).toNat), by push_cast; ring⟩

theorem IsFloatValue.exists_multiple (h : IsFloatValue q) : ∃ z : ℤ, q = z * least := by
  obtain ⟨m, E, hm, hq⟩ := h
  exact exists_multiple_of_place hq hm.low

theorem IsFloatValue.exists_multiple_of_full (h : IsFloatValue q) (hfull : 2 ^ 52 * 2 ^ E ≤ |q|) :
    ∃ z : ℤ, q = z * 2 ^ E := by
  obtain ⟨m, e, hm, hq⟩ := h
  refine exists_multiple_of_place hq (not_lt.1 fun hlt => ?_)
  have hsmall := hm.lt_of_lt hlt
  rw [hq] at hfull
  exact absurd hfull (not_le_of_gt hsmall)

theorem IsFloatValue.least_le (h : IsFloatValue q) (hne : q ≠ 0) : least ≤ |q| := by
  obtain ⟨z, rfl⟩ := h.exists_multiple
  have hz : z ≠ 0 := by
    rintro rfl
    exact hne (by rw [Int.cast_zero, zero_mul])
  have hone : (1 : ℚ) ≤ |(z : ℚ)| := by exact_mod_cast Int.one_le_abs hz
  rw [abs_mul, abs_of_pos least_pos]
  exact le_mul_of_one_le_left least_pos.le hone

theorem IsFloatValue.add_one_le (h : IsFloatValue q)
    (hfull : 2 ^ 53 ≤ |2 * z + 1| ∨ E = -1074) (hlt : z * 2 ^ E < q) : (z + 1) * 2 ^ E ≤ q := by
  obtain ⟨m, E', hm, hq⟩ := h
  have hpow : (0 : ℚ) < 2 ^ E := zpow_pos two_pos E
  rcases le_or_gt E E' with hE | hE
  · obtain ⟨w, rfl⟩ := exists_multiple_of_place hq hE
    have hwhole : z + 1 ≤ w := Int.cast_lt.1 (lt_of_mul_lt_mul_right hlt hpow.le)
    exact mul_le_mul_of_nonneg_right (by exact_mod_cast hwhole) hpow.le
  · have hlow := hm.low
    have hsmall := hm.lt_of_lt hE
    rw [← hq, abs_lt] at hsmall
    rcases le_abs.1 (hfull.resolve_right (by omega)) with hpos | hneg
    · have hz : ((2 ^ 52 : ℤ) : ℚ) ≤ z := Int.cast_le.2 (by omega)
      push_cast at hz
      have := mul_le_mul_of_nonneg_right hz hpow.le
      linarith
    · have hz : ((z + 1 : ℤ) : ℚ) ≤ (-2 ^ 52 : ℤ) := Int.cast_le.2 (by omega)
      push_cast at hz
      have := mul_le_mul_of_nonneg_right hz hpow.le
      linarith

namespace IsNearest

theorem neg (h : IsNearest r v) : IsNearest (-r) (-v) := by
  obtain ⟨p, z, hv, herror, htie, hp⟩ := h.near
  have hsame : |-v - -r| = |v - r| := by rw [neg_sub_neg, abs_sub_comm]
  refine ⟨h.isFloatValue.neg, fun hq hle => neg_le.1 (h.le_of_ge hq.neg (neg_le.1 hle)),
    fun hq hle => le_neg.1 (h.le_of_le hq.neg (le_neg.1 hle)), p, -z, ?_, ?_, ?_, ?_⟩
  · rw [hv]
    push_cast
    ring
  · rwa [hsame]
  · rw [hsame]
    exact fun heq => (htie heq).neg
  · rwa [abs_neg]

theorem of_sign (h : IsNearest r v) (s : Sign) : IsNearest (s.of r) (s.of v) := by
  cases s with
  | positive => exact h
  | negative => exact h.neg

theorem eq_of_isFloatValue (h : IsNearest r v) (hr : IsFloatValue r) : v = r :=
  le_antisymm (h.le_of_le hr le_rfl) (h.le_of_ge hr le_rfl)

theorem nonneg (h : IsNearest r v) (hr : 0 ≤ r) : 0 ≤ v :=
  h.le_of_ge isFloatValue_zero hr

theorem abs (h : IsNearest r v) : IsNearest |r| |v| := by
  rcases le_total 0 r with hr | hr
  · rwa [abs_of_nonneg hr, abs_of_nonneg (h.nonneg hr)]
  · have hv : v ≤ 0 := h.le_of_le isFloatValue_zero hr
    rw [abs_of_nonpos hr, abs_of_nonpos hv]
    exact h.neg

/-- The error is small beside the value, or half the least float. -/
theorem error_le (h : IsNearest r v) : |v - r| ≤ |r| / 2 ^ 53 + least / 2 := by
  obtain ⟨p, z, -, herror, -, hp⟩ := h.near
  rcases hp with hfull | rfl
  · calc |v - r| ≤ 2 ^ p / 2 := herror
      _ = 2 ^ 52 * 2 ^ p / 2 ^ 53 := by ring
      _ ≤ |r| / 2 ^ 53 := div_le_div_of_nonneg_right hfull (by positivity)
      _ ≤ |r| / 2 ^ 53 + least / 2 := le_add_of_nonneg_right (half_pos least_pos).le
  · exact herror.trans (le_add_of_nonneg_left (by positivity))

theorem error_le_add_one (h : IsNearest r v) : |v - r| ≤ |r| / 2 ^ 53 + 1 := by
  have htiny : least / 2 ≤ 1 := by linarith [least_le_one]
  exact h.error_le.trans (add_le_add_right htiny _)

/-- Up to halfway to the float that follows, nothing is rounded up; and from halfway on only when
that float is even. -/
theorem le_of_half (h : IsNearest r v) (hE : -1074 ≤ E) (hfloat : IsFloatValue (z * 2 ^ E))
    (hlow : -2 ^ 53 ≤ z) (hhigh : z < 2 ^ 53) (hfull : 2 ^ 53 ≤ |2 * z + 1| ∨ E = -1074)
    (hle : r ≤ (z + 1 / 2) * 2 ^ E) (htie : r = (z + 1 / 2) * 2 ^ E → Even z) :
    v ≤ z * 2 ^ E := by
  rcases le_or_gt r (z * 2 ^ E) with hbelow | habove
  · exact h.le_of_le hfloat hbelow
  by_contra hlt
  have hnext := h.isFloatValue.add_one_le hfull (not_le.1 hlt)
  obtain ⟨p, y, hv, herror, heven, hp⟩ := h.near
  have hpow : (0 : ℚ) < 2 ^ E := zpow_pos two_pos E
  have hgap : v - r ≤ 2 ^ p / 2 := (le_abs_self _).trans herror
  have hEp : E ≤ p := by
    refine (zpow_le_zpow_iff_right₀ (one_lt_two (α := ℚ))).1 ?_
    linarith
  have hpE : p ≤ E := by
    rcases hp with hfull' | rfl
    · have hlow' : (-2 ^ 53 : ℚ) ≤ z := by exact_mod_cast hlow
      have hhigh' : (z : ℚ) + 1 ≤ 2 ^ 53 := by exact_mod_cast hhigh
      have hsize : |r| < 2 ^ 53 * 2 ^ E := by
        have hleft := mul_le_mul_of_nonneg_right hlow' hpow.le
        have hright := mul_le_mul_of_nonneg_right hhigh' hpow.le
        rw [abs_lt]
        constructor <;> linarith
      have hnextPow : (2 : ℚ) ^ p < 2 ^ (E + 1) := by
        rw [zpow_add_one₀ two_ne_zero]
        linarith
      have := (zpow_lt_zpow_iff_right₀ (one_lt_two (α := ℚ))).1 hnextPow
      omega
    · exact hE
  obtain rfl : p = E := le_antisymm hpE hEp
  -- nothing is left but a tie, and both neighbours cannot be even
  have hr : r = (z + 1 / 2) * 2 ^ p := by linarith
  have hv' : v = ((z + 1 : ℤ) : ℚ) * 2 ^ p := by
    push_cast
    linarith
  have hsame : y = z + 1 := by
    rw [hv] at hv'
    exact_mod_cast mul_right_cancel₀ hpow.ne' hv'
  have heven' : Even (z + 1) := by
    refine hsame ▸ heven ?_
    rw [hr, hv', abs_of_nonneg] <;> push_cast <;> linarith
  exact (Int.even_add_one.1 heven') (htie hr)

theorem ge_of_half (h : IsNearest r v) (hE : -1074 ≤ E) (hfloat : IsFloatValue (z * 2 ^ E))
    (hlow : -2 ^ 53 < z) (hhigh : z ≤ 2 ^ 53) (hfull : 2 ^ 53 ≤ |2 * z - 1| ∨ E = -1074)
    (hle : (z - 1 / 2) * 2 ^ E ≤ r) (htie : r = (z - 1 / 2) * 2 ^ E → Even z) :
    z * 2 ^ E ≤ v := by
  have hswap : |2 * -z + 1| = |2 * z - 1| := by
    rw [← abs_neg]
    congr 1
    ring
  have hneg : ((-z : ℤ) : ℚ) * 2 ^ E = -(z * 2 ^ E) := by
    push_cast
    ring
  have hmirror := h.neg.le_of_half (z := -z) hE (hneg ▸ hfloat.neg) (by omega) (by omega)
    (by rwa [hswap]) (by push_cast; linarith)
    (fun heq => (htie (by push_cast at heq; linarith)).neg)
  rw [hneg] at hmirror
  exact neg_le_neg_iff.1 hmirror

theorem eq_of_tiny (h : IsNearest r v) (hz : |z| ≤ 2 ^ 52)
    (hle : |r - z * least| ≤ least / 2) (htie : |r - z * least| = least / 2 → Even z) :
    v = z * least := by
  obtain ⟨hlow, hhigh⟩ := abs_le.1 hz
  obtain ⟨hlow', hhigh'⟩ := abs_le.1 hle
  have hpos := least_pos
  have hfloat : IsFloatValue (z * least) :=
    isFloatValue_mul_zpow (hz.trans_lt (by decide)) (by decide) (by decide)
  have hbelow : r ≤ (z + 1 / 2) * least := by linarith
  have habove : (z - 1 / 2) * least ≤ r := by linarith
  refine le_antisymm (h.le_of_half (by decide) hfloat (by omega) (by omega) (.inr rfl) hbelow
    fun heq => htie ?_) (h.ge_of_half (by decide) hfloat (by omega) (by omega) (.inr rfl) habove
    fun heq => htie ?_)
  · have hgap : r - z * least = least / 2 := by
      rw [heq, ← least]
      ring
    rw [hgap, abs_of_pos (half_pos hpos)]
  · have hgap : r - z * least = -(least / 2) := by
      rw [heq, ← least]
      ring
    rw [hgap, abs_neg, abs_of_pos (half_pos hpos)]

theorem add_one_le_of_lt {p : ℤ} (hv : v = z * 2 ^ p) (hp : 2 ^ 52 * 2 ^ p ≤ |r| ∨ p = -1074)
    (hw : IsFloatValue w) (hvr : v < r) (hrw : r < w) : (z + 1) * 2 ^ p ≤ w := by
  have hpow : (0 : ℚ) < 2 ^ p := zpow_pos two_pos p
  have hlt : z * 2 ^ p < w := hv ▸ hvr.trans hrw
  rcases hp with hfull | hp
  · rcases le_abs.1 hfull with hpos | hneg
    · rcases lt_or_ge z (2 ^ 52) with hz | hz
      · have hz' : (z : ℚ) + 1 ≤ 2 ^ 52 := by exact_mod_cast hz
        exact (mul_le_mul_of_nonneg_right hz' hpow.le).trans (hpos.trans hrw.le)
      · exact hw.add_one_le (.inl (le_abs.2 (.inl (by omega)))) hlt
    · have hz : z < -2 ^ 52 := by
        have hz' : (z : ℚ) * 2 ^ p < -2 ^ 52 * 2 ^ p := by linarith
        exact_mod_cast lt_of_mul_lt_mul_right hz' hpow.le
      exact hw.add_one_le (.inl (le_abs.2 (.inr (by omega)))) hlt
  · exact hw.add_one_le (.inr hp) hlt

theorem unique (h : IsNearest r v) (h' : IsNearest r w) : v = w := by
  wlog hlt : v < w generalizing v w
  · rcases (not_lt.1 hlt).lt_or_eq with hgt | heq
    · exact (this h' h hgt).symm
    · exact heq.symm
  have hvr : v < r := not_le.1 fun hle => hlt.not_ge (h'.le_of_le h.isFloatValue hle)
  have hrw : r < w := not_le.1 fun hle => hlt.not_ge (h.le_of_ge h'.isFloatValue hle)
  obtain ⟨p, z, hv, herror, htie, hp⟩ := h.near
  obtain ⟨p', z', hw, herror', htie', hp'⟩ := h'.near
  have hup := add_one_le_of_lt hv hp h'.isFloatValue hvr hrw
  have hdown : ((-z' : ℤ) + 1 : ℚ) * 2 ^ p' ≤ -v :=
    add_one_le_of_lt (r := -r) (v := -w) (by rw [hw]; push_cast; ring) (by rwa [abs_neg])
      h.isFloatValue.neg (neg_lt_neg hrw) (neg_lt_neg hvr)
  rw [abs_of_neg (sub_neg.2 hvr)] at herror htie
  rw [abs_of_pos (sub_pos.2 hrw)] at herror' htie'
  push_cast at hdown
  have hpow : (0 : ℚ) < 2 ^ p := zpow_pos two_pos p
  have hsame : (2 : ℚ) ^ p = 2 ^ p' := by linarith
  rw [← hsame] at hw hdown
  have hz : (z' : ℚ) * 2 ^ p = ((z + 1 : ℤ) : ℚ) * 2 ^ p := by
    push_cast
    linarith
  have hnext : z' = z + 1 := by exact_mod_cast mul_right_cancel₀ hpow.ne' hz
  have heven := htie (by linarith)
  have heven' := htie' (by linarith)
  rw [hnext, Int.even_add_one] at heven'
  exact absurd heven heven'

end IsNearest

theorem isNearest_zero (hr : |r| < least / 2) : IsNearest r 0 := by
  have hpos := least_pos
  refine ⟨isFloatValue_zero, fun {q} hq hle => ?_, fun {q} hq hle => ?_, -1074, 0, ?_, ?_, ?_,
    .inr rfl⟩
  · by_contra hneg
    have hleast := hq.least_le (not_le.1 hneg).ne
    rw [abs_of_neg (not_le.1 hneg)] at hleast
    linarith [(abs_lt.1 hr).1]
  · by_contra hpos
    have hleast := hq.least_le (not_le.1 hpos).ne'
    rw [abs_of_pos (not_le.1 hpos)] at hleast
    linarith [(abs_lt.1 hr).2]
  · simp
  · rw [zero_sub, abs_neg]
    exact hr.le
  · exact fun _ => Even.zero

theorem isNearest_self (h : IsFloatValue q) : IsNearest q q := by
  obtain ⟨z, hz⟩ := h.exists_multiple
  have hhalf := half_pos least_pos
  refine ⟨h, fun _ hle => hle, fun _ hle => hle, -1074, z, hz, ?_, fun heq => ?_, .inr rfl⟩
  · rw [sub_self, abs_zero]
    exact hhalf.le
  · rw [sub_self, abs_zero] at heq
    exact absurd heq hhalf.ne

/-! What is rounded is rounded to a nearest float, when that is finite. -/

namespace Ample

theorem even_steps (h : Ample n d e)
    (htie : |(steps n d e : ℚ) * 2 ^ place n d e - n / d * 2 ^ e| = 2 ^ place n d e / 2) :
    Even (steps n d e) := by
  have hpos : (0 : ℚ) < 2 ^ place n d e := zpow_pos two_pos _
  rw [h.value_eq, ← sub_mul, abs_mul, abs_of_pos hpos, div_eq_inv_mul (2 ^ place n d e),
    mul_left_inj' hpos.ne', inv_eq_one_div] at htie
  exact even_roundDiv_of_tie h.divisor_pos htie

theorem isNearest (h : Ample n d e)
    (hfloat : IsFloatValue ((steps n d e : ℚ) * 2 ^ place n d e)) :
    IsNearest (n / d * 2 ^ e) (steps n d e * 2 ^ place n d e) := by
  refine ⟨hfloat, h.steps_le_of_isFloatValue, h.le_steps_of_isFloatValue, place n d e, steps n d e,
    rfl, h.error_le, fun htie => (Int.even_coe_nat _).2 (h.even_steps htie), ?_⟩
  rw [abs_of_nonneg (value_nonneg n d e)]
  exact h.place_full_or_tiny

end Ample

theorem RoundingOf.isNearest (h : RoundingOf r u) (hfinite : u.isFinite = true) :
    IsNearest r u.value := by
  cases h with
  | kept _ hvalue => exact isNearest_self hvalue
  | quotient h s =>
    have hpacks := h.packs s
    rw [hpacks.value_eq hfinite]
    exact (h.isNearest (hpacks.isFloatValue hfinite)).of_sign s

theorem eq_of_value {a b : BitVec binary64.numBits} (ha : (unpack binary64 a).isFinite = true)
    (hb : (unpack binary64 b).isFinite = true) (hne : (unpack binary64 a).value ≠ 0)
    (h : (unpack binary64 a).value = (unpack binary64 b).value) :
    unpack binary64 a = unpack binary64 b := by
  obtain ⟨s, hua⟩ | ⟨s, m, E, hm, hua⟩ := zero_or_finite ha
  · rw [hua] at hne
    exact absurd rfl hne
  obtain ⟨s', hub⟩ | ⟨s', m', E', hm', hub⟩ := zero_or_finite hb
  · rw [h, hub] at hne
    exact absurd rfl hne
  have hcanonical := canonical_of_unpack hua
  have hcanonical' := canonical_of_unpack hub
  rw [hua, hub, value_finite, value_finite] at h
  rw [hua, hub]
  have hpos : (0 : ℚ) < m * 2 ^ E := mul_pos (Nat.cast_pos.2 hm) (zpow_pos two_pos E)
  have hpos' : (0 : ℚ) < m' * 2 ^ E' := mul_pos (Nat.cast_pos.2 hm') (zpow_pos two_pos E')
  have hsize : (m : ℚ) * 2 ^ E = m' * 2 ^ E' := by
    have habs := congrArg (|·|) h
    rwa [Sign.abs_of, Sign.abs_of, abs_of_pos hpos, abs_of_pos hpos'] at habs
  obtain rfl : E = E' := by
    rcases lt_trichotomy E E' with hlt | heq | hgt
    · exact absurd hsize (hcanonical.lt_of_lt hcanonical' hlt).ne
    · exact heq
    · exact absurd hsize (hcanonical'.lt_of_lt hcanonical hgt).ne'
  obtain rfl : m = m' := by
    exact_mod_cast mul_right_cancel₀ (zpow_pos (two_pos (α := ℚ)) E).ne' hsize
  cases s <;> cases s'
  · rfl
  · simp only [Sign.of] at h
    linarith
  · simp only [Sign.of] at h
    linarith
  · rfl

end Float.Model.UnpackedFloat

namespace ColorGraph

open Float.Model Float.Model.UnpackedFloat

attribute [local instance (2000)] instPowNat

variable {x y : Float}

theorem eq_of_exactValue (hx : x.isFinite = true) (hy : y.isFinite = true)
    (hne : exactValue x ≠ 0) (h : exactValue x = exactValue y) : x = y :=
  unpack_inj (eq_of_value hx hy hne h)

namespace Decimal

variable {d : Decimal} {b : Binary} {v : ℚ}

theorem isNearest_toFloat (d : Decimal) (h : d.toFloat.isFinite = true) :
    IsNearest d.size (exactValue d.toFloat) := by
  have hzero := zero_spec.2
  have hbelow := (finiteBelow_toFloat d).finite_iff.1 h
  rcases Nat.eq_zero_or_pos d.digits with hnone | hpos
  · have hsize : d.size = 0 := by rw [size, hnone, Nat.cast_zero, zero_mul]
    rw [hsize, toFloat, if_pos hnone, hzero]
    exact isNearest_self isFloatValue_zero
  have hlog := figureCount_le_log2 hpos
  unfold toFloat at h ⊢
  dsimp only at h ⊢
  rw [if_neg (Nat.ne_of_gt hpos)] at h ⊢
  split
  next hlarge => exact absurd hbelow (not_lt_of_ge (overflow_le_size hpos hlarge))
  next hlarge =>
    rw [if_neg hlarge] at h
    split
    next hsmall =>
      rw [hzero]
      refine isNearest_zero ?_
      have hpower : (10 : ℚ) ^ (d.exponent + figureCount d.digits) ≤ 10 ^ (-330 : ℤ) :=
        zpow_le_zpow_right₀ (by norm_num) (by omega)
      have htiny : (10 : ℚ) ^ (-330 : ℤ) ≤ least / 2 := by
        have hle : (2 ^ 1075 : ℚ) ≤ 10 ^ 330 := by
          have hle' : 2 ^ 1075 ≤ 10 ^ 330 := by decide +kernel
          exact_mod_cast hle'
        rw [half_least, zpow_neg, zpow_neg]
        exact inv_anti₀ (by positivity) hle
      rw [abs_of_nonneg (mul_nonneg (Nat.cast_nonneg _) (zpow_pos (by norm_num) _).le)]
      exact (size_bounds hpos).2.trans_le (hpower.trans htiny)
    next hsmall =>
      rw [if_neg hsmall] at h
      split
      next hneg =>
        rw [if_pos hneg] at h
        rw [size_eq_div hneg]
        exact (roundingOf_ofScientific_neg (by omega) (by omega)).isNearest h
      next hnonneg =>
        rw [if_neg hnonneg] at h
        rw [size_eq_mul (Int.le_of_not_gt hnonneg)]
        exact (roundingOf_ofScientific _ (by omega)).isNearest h

theorem halfway_above (b : Binary) : ((b.mantissa : ℤ) + 1 / 2 : ℚ) * 2 ^ b.exponent =
    above b * 2 ^ (b.exponent - 2) := by
  rw [above, zpow_sub₀ two_ne_zero]
  push_cast
  ring

theorem halfway_below (hpos : 0 < b.mantissa) (hnarrow : ¬ b.isNarrowBelow = true) :
    ((b.mantissa : ℤ) - 1 / 2 : ℚ) * 2 ^ b.exponent = below b * 2 ^ (b.exponent - 2) := by
  have hmore : 2 ≤ 4 * b.mantissa := by omega
  rw [below, if_neg hnarrow, Nat.cast_sub hmore, zpow_sub₀ two_ne_zero]
  push_cast
  ring

theorem halfway_below_of_isNarrowBelow (hnarrow : b.isNarrowBelow = true) :
    b.size = ((2 ^ 53 : ℤ) : ℚ) * 2 ^ (b.exponent - 1) ∧
      (((2 ^ 53 : ℤ) : ℚ) - 1 / 2) * 2 ^ (b.exponent - 1) = below b * 2 ^ (b.exponent - 2) := by
  obtain ⟨hleast, -⟩ := Binary.isNarrowBelow_iff.1 hnarrow
  rw [Binary.size, below, if_pos hnarrow, hleast, zpow_sub₀ two_ne_zero, zpow_sub₀ two_ne_zero]
  push_cast
  constructor <;> ring

theorem le_size_of_readsBack (hb : b.IsFloat) (h : readsBack b d = true)
    (hv : IsNearest d.size v) : v ≤ b.size := by
  have hlow := hb.low
  have hshort := hb.short
  have hz : b.size = (b.mantissa : ℤ) * 2 ^ b.exponent := by rw [Binary.size, Int.cast_natCast]
  have hfloat : IsFloatValue b.size := hb.isFloatValue .positive
  obtain ⟨-, hle, htie⟩ := readsBack_iff.1 h
  rw [hz] at hfloat ⊢
  refine hv.le_of_half hlow hfloat (by omega) (by omega) ?_ ?_ fun heq => ?_
  · exact hb.full.imp_left fun hfull => le_abs.2 (.inl (by omega))
  · rwa [halfway_above]
  · rw [halfway_above] at heq
    exact (Int.even_coe_nat _).2 (Nat.even_iff.2 (htie heq))

theorem size_le_of_readsBack (hb : b.IsFloat) (hpos : 0 < b.mantissa) (h : readsBack b d = true)
    (hv : IsNearest d.size v) : b.size ≤ v := by
  have hlow := hb.low
  have hshort := hb.short
  have hfull := hb.full
  have hfloat : IsFloatValue b.size := hb.isFloatValue .positive
  obtain ⟨⟨hle, htie⟩, -⟩ := readsBack_iff.1 h
  by_cases hnarrow : b.isNarrowBelow = true
  · obtain ⟨hz, hbelow⟩ := halfway_below_of_isNarrowBelow hnarrow
    have hleast := (Binary.isNarrowBelow_iff.1 hnarrow).2
    rw [hz] at hfloat ⊢
    refine hv.ge_of_half (by omega) hfloat (by decide) (le_refl _) (.inl (by decide)) ?_ ?_
    · rwa [hbelow]
    · exact fun _ => by decide
  · have hz : b.size = (b.mantissa : ℤ) * 2 ^ b.exponent := by rw [Binary.size, Int.cast_natCast]
    have hbelow := halfway_below hpos hnarrow
    rw [Binary.isNarrowBelow_iff] at hnarrow
    rw [hz] at hfloat ⊢
    refine hv.ge_of_half hlow hfloat (by omega) (by omega) ?_ ?_ fun heq => ?_
    · by_cases htiny : b.exponent = -1074
      · exact .inr htiny
      · exact .inl (le_abs.2 (.inl (by omega)))
    · rwa [hbelow]
    · rw [hbelow] at heq
      exact (Int.even_coe_nat _).2 (Nat.even_iff.2 (htie heq.symm))

/-- A decimal that lies between the halfway points around a float is rounded to that float. -/
theorem eq_size_of_readsBack (hb : b.IsFloat) (hpos : 0 < b.mantissa) (h : readsBack b d = true)
    (hv : IsNearest d.size v) : v = b.size :=
  le_antisymm (le_size_of_readsBack hb h hv) (size_le_of_readsBack hb hpos h hv)

end Decimal
end ColorGraph
