import ColorGraph.Decimal.Rounding
import ColorGraph.Proofs.WholeNumbers
/-!
Quotients of whole numbers rounded to floats. Main statement: what is rounded is a nearest float,
and no other float lies between.
-/

set_option autoImplicit false

namespace Float.Model.UnpackedFloat

open Format ExtendedMantissa ColorGraph

attribute [local instance (2000)] instPowNat

variable {n d k : Nat}

def ofQuotient (n d : Nat) : ExtendedMantissa :=
  ofMantissaAndAccuracy (n / d) (accuracyOfFraction (n % d) d)

theorem shiftRightOne_ofQuotient (hd : 0 < d) (n : Nat) :
    shiftRightOne (ofQuotient n d) = ofQuotient n (d * 2) := by
  have hlt : n % d < d := Nat.mod_lt n hd
  have hmod : n % (d * 2) = n % d + d * (n / d % 2) := Nat.mod_mul
  rw [ofQuotient, ofQuotient, ← Nat.div_div_eq_div_mul, hmod]
  obtain hbit | hbit := Nat.mod_two_eq_zero_or_one (n / d)
  · rw [hbit, Nat.mul_zero, Nat.add_zero]
    unfold accuracyOfFraction
    split
    next hr => simp [shiftRightOne, ofMantissaAndAccuracy, hbit]
    next hr =>
      have hless : compare (2 * (n % d)) (d * 2) = .lt := Nat.compare_eq_lt.2 (by omega)
      rw [hless]
      cases compare (2 * (n % d)) d <;> simp [shiftRightOne, ofMantissaAndAccuracy, hbit]
  · rw [hbit, Nat.mul_one]
    have hne : n % d + d ≠ 0 := by omega
    unfold accuracyOfFraction
    rw [if_neg hne]
    split
    next hr =>
      have heq : compare (2 * (n % d + d)) (d * 2) = .eq := Nat.compare_eq_eq.2 (by omega)
      rw [heq]
      simp [shiftRightOne, ofMantissaAndAccuracy, hbit]
    next hr =>
      have hgreater : compare (2 * (n % d + d)) (d * 2) = .gt := Nat.compare_eq_gt.2 (by omega)
      rw [hgreater]
      cases compare (2 * (n % d)) d <;> simp [shiftRightOne, ofMantissaAndAccuracy, hbit]

theorem shiftRight_ofQuotient (hd : 0 < d) (n k : Nat) :
    ofQuotient n d >>> k = ofQuotient n (d * 2 ^ k) := by
  induction k with
  | zero => rw [Nat.pow_zero, Nat.mul_one]; rfl
  | succ k ih =>
    change shiftRightOne (ofQuotient n d >>> k) = _
    rw [ih, shiftRightOne_ofQuotient (Nat.mul_pos hd (Nat.two_pow_pos k)), Nat.mul_assoc]
    rfl

theorem roundedMantissa_ofQuotient (hd : 0 < d) (n : Nat) :
    (ofQuotient n d).roundedMantissa = Decimal.roundDiv n d := by
  unfold ofQuotient accuracyOfFraction Decimal.roundDiv
  dsimp only
  split
  next hr => rw [hr, if_pos (by omega)]; rfl
  next hr =>
    split
    next h => rw [Nat.compare_eq_lt.2 h]; rfl
    next h =>
      split
      next h' => rw [Nat.compare_eq_gt.2 h']; rfl
      next h' => rw [Nat.compare_eq_eq.2 (by omega)]; rfl

def place (n d : Nat) (e : Int) : Int :=
  binary64.targetExponent (totalExponent (n / d) e)

def divisor (n d : Nat) (e : Int) : Nat :=
  d * 2 ^ (place n d e - e).toNat

theorem targetExponent_eq (m : Nat) (e : Int) :
    binary64.targetExponent (totalExponent m e) = max (m.log2 + e - 52) (-1074) := by
  have hbits : binary64.mantissaBits = 53 := rfl
  have hmin : binary64.minExponent = -1074 := by decide
  rw [targetExponent, totalExponent, hbits, hmin]
  omega

theorem shiftToTargetExponent_ofQuotient (hd : 0 < d) {e : Int} (he : e ≤ place n d e) :
    shiftToTargetExponent binary64 (n / d) e (accuracyOfFraction (n % d) d) =
      (ofQuotient n (divisor n d e), place n d e) := by
  refine Prod.ext (shiftRight_ofQuotient hd n _) ?_
  change e + ((place n d e - e).toNat : Int) = _
  omega

theorem shiftToTargetExponent_short {m : Nat} {e : Int} (hm : m < 2 ^ 53) (he : -1074 ≤ e) :
    shiftToTargetExponent binary64 m e .exact = (⟨m, false, false⟩, e) := by
  have hlog : m.log2 ≤ 52 := by
    by_cases h : m = 0
    · rw [h]; decide
    · have := (Nat.log2_lt h).2 hm
      omega
  have hshift : (binary64.targetExponent (totalExponent m e) - e).toNat = 0 := by
    rw [targetExponent_eq]
    omega
  simp only [shiftToTargetExponent, shiftToExponent, hshift]
  exact Prod.ext rfl (Int.add_zero e)

theorem shiftToTargetExponent_full {e : Int} (he : -1074 ≤ e) :
    shiftToTargetExponent binary64 (2 ^ 53) e .exact = (⟨2 ^ 52, false, false⟩, e + 1) := by
  have hlog : (2 ^ 53 : Nat).log2 = 53 := by decide
  have hshift : (binary64.targetExponent (totalExponent (2 ^ 53) e) - e).toNat = 1 := by
    rw [targetExponent_eq, hlog]
    omega
  simp only [shiftToTargetExponent, shiftToExponent, hshift]
  rfl

def steps (n d : Nat) (e : Int) : Nat :=
  Decimal.roundDiv n (divisor n d e)

def Ample (n d : Nat) (e : Int) : Prop :=
  0 < d ∧ (2 ^ 52 * d ≤ n ∨ e ≤ -1074)

variable {e : Int}

theorem place_eq (n d : Nat) (e : Int) : place n d e = max ((n / d).log2 + e - 52) (-1074) :=
  targetExponent_eq (n / d) e

theorem Ample.le_place (h : Ample n d e) : e ≤ place n d e := by
  rw [place_eq]
  obtain ⟨hd, hn | he⟩ := h
  · have hq : 2 ^ 52 ≤ n / d := (Nat.le_div_iff_mul_le hd).2 hn
    have hlog : 52 ≤ (n / d).log2 := (Nat.le_log2 (by omega)).2 hq
    omega
  · omega

theorem Ample.divisor_pos (h : Ample n d e) : 0 < divisor n d e :=
  Nat.mul_pos h.1 (Nat.two_pow_pos _)

theorem Ample.lt_full (h : Ample n d e) : n < 2 ^ 53 * divisor n d e := by
  have hlog : (n / d).log2 + 1 ≤ 53 + (place n d e - e).toNat := by
    rw [place_eq]
    omega
  have hquot : n / d < 2 ^ (53 + (place n d e - e).toNat) :=
    Nat.lt_of_lt_of_le Nat.lt_log2_self (Nat.pow_le_pow_right (by decide) hlog)
  have hlt := (Nat.div_lt_iff_lt_mul h.1).1 hquot
  rwa [Nat.pow_add, Nat.mul_assoc, Nat.mul_comm _ d] at hlt

theorem Ample.full_or_tiny (h : Ample n d e) :
    2 ^ 52 * divisor n d e ≤ n ∨ place n d e = -1074 := by
  by_cases htiny : place n d e = -1074
  · exact .inr htiny
  · have hle := h.le_place
    have hplace := place_eq n d e
    have hlog : (n / d).log2 = 52 + (place n d e - e).toNat := by omega
    have hquot : 2 ^ (52 + (place n d e - e).toNat) ≤ n / d := by
      rw [← hlog]
      refine Nat.log2_self_le fun hzero => ?_
      rw [hzero, Nat.log2_zero] at hlog
      omega
    have hmul := (Nat.le_div_iff_mul_le h.1).1 hquot
    rw [Nat.pow_add, Nat.mul_assoc, Nat.mul_comm _ d] at hmul
    exact .inl hmul

theorem roundDiv_le_of_le {q : Nat} (h : n ≤ q * d) (hd : 0 < d) : Decimal.roundDiv n d ≤ q := by
  have hround := Decimal.roundDiv_le n d
  by_contra hlt
  have hmul : (q + 1) * d ≤ Decimal.roundDiv n d * d := Nat.mul_le_mul_right d (by omega)
  rw [Nat.add_mul] at hmul
  omega

theorem le_roundDiv_of_le {q : Nat} (h : q * d ≤ n) (hd : 0 < d) : q ≤ Decimal.roundDiv n d := by
  have hround := Decimal.le_roundDiv n hd
  by_contra hlt
  have hmul : (Decimal.roundDiv n d + 1) * d ≤ q * d := Nat.mul_le_mul_right d (by omega)
  rw [Nat.add_mul] at hmul
  omega

theorem Ample.steps_le (h : Ample n d e) : steps n d e ≤ 2 ^ 53 :=
  roundDiv_le_of_le (Nat.le_of_lt h.lt_full) h.divisor_pos

theorem Ample.steps_full_or_tiny (h : Ample n d e) :
    2 ^ 52 ≤ steps n d e ∨ place n d e = -1074 :=
  h.full_or_tiny.imp_left fun hfull =>
    le_roundDiv_of_le hfull h.divisor_pos

def Fits (n d : Nat) (e : Int) : Prop :=
  place n d e < 971 ∨ place n d e = 971 ∧ steps n d e ≤ 2 ^ 53 - 1

theorem Ample.roundWithAccuracy_eq (h : Ample n d e) (s : Sign) :
    roundWithAccuracy binary64 s (n / d) e (accuracyOfFraction (n % d) d) =
      if hzero : steps n d e = 0 then .zero s
      else if steps n d e < 2 ^ 53 then
        .finite s (steps n d e) (place n d e) (Nat.pos_of_ne_zero hzero)
      else .finite s (2 ^ 52) (place n d e + 1) (by decide) := by
  have hplace : -1074 ≤ place n d e := by rw [place_eq]; omega
  have hfirst := shiftToTargetExponent_ofQuotient h.1 h.le_place
  have hrounded : (ofQuotient n (divisor n d e)).roundedMantissa =
      steps n d e := roundedMantissa_ofQuotient h.divisor_pos n
  simp only [roundWithAccuracy, hfirst, hrounded]
  split
  next hzero' =>
    by_cases hlt : steps n d e < 2 ^ 53
    · rw [shiftToTargetExponent_short hlt hplace] at hzero'
      rw [dif_pos hzero']
    · have hfull : steps n d e = 2 ^ 53 := by have := h.steps_le; omega
      rw [hfull, shiftToTargetExponent_full hplace] at hzero'
      cases hzero'
  next hne =>
    by_cases hlt : steps n d e < 2 ^ 53
    · simp only [shiftToTargetExponent_short hlt hplace] at hne ⊢
      rw [dif_neg hne, if_pos hlt]
    · have hfull : steps n d e = 2 ^ 53 := by have := h.steps_le; omega
      simp only [hfull, shiftToTargetExponent_full hplace]
      rfl

structure Canonical (m : Nat) (e : Int) : Prop where
  short : m < 2 ^ 53
  low : -1074 ≤ e
  high : e ≤ 971
  full : 2 ^ 52 ≤ m ∨ e = -1074

theorem Canonical.unpack_pack {m : Nat} (hc : Canonical m e) (s : Sign) (h : 0 < m) :
    unpack binary64 (pack binary64 (.finite s m e h)) = .finite s m e h := by
  by_cases hfull : 2 ^ 52 ≤ m
  · exact unpack_pack_finite h ((Nat.log2_eq_iff (by omega)).2 ⟨hfull, hc.short⟩) hc.low hc.high s
  · obtain rfl : e = -1074 := hc.full.resolve_left hfull
    have hlog : ¬ m.log2 + 1 = binary64.mantissaBits := by
      have hbits : binary64.mantissaBits = 53 := rfl
      have := (Nat.log2_lt (Nat.ne_of_gt h)).2 (Nat.lt_of_not_le hfull)
      omega
    have hpack : pack binary64 (.finite s m (-1074) h) =
        packComponents binary64 s 0#11 (BitVec.ofNat 52 m) := by
      have hbiased : ((-1074 : Int) + (binary64.exponentBias : Nat) +
          (binary64.mantissaBitsWithoutImplicit : Nat)).toNat = 1 := rfl
      have hfinite : ¬ 2 ^ binary64.exponentBits ≤ 1 + 1 := by
        have hexp : binary64.exponentBits = 11 := rfl
        rw [hexp]
        omega
      rw [pack.eq_4, hbiased, if_neg hfinite, if_neg hlog]
    rw [hpack, unpack_subnormal (m := m) _ _ h]
    · rw [unpackSign_packComponents, Sign.ofBitVec_toBitVec]
    · exact unpackExponent_packComponents
    · rw [unpackMantissa_packComponents]
      exact Nat.mod_eq_of_lt (Nat.lt_of_not_le hfull)

theorem pack_finite_large {m : Nat} (he : 971 < e) (h : 0 < m) (s : Sign) :
    pack binary64 (.finite s m e h) = pack binary64 (.infinity s) := by
  have hbias : (binary64.exponentBias : Int) = 1023 := rfl
  have hwithout : (binary64.mantissaBitsWithoutImplicit : Int) = 52 := rfl
  have hexp : binary64.exponentBits = 11 := rfl
  have hover : 2 ^ binary64.exponentBits ≤ (e + (binary64.exponentBias : Nat) +
      (binary64.mantissaBitsWithoutImplicit : Nat)).toNat + 1 := by
    rw [hexp, hbias, hwithout]
    omega
  rw [pack.eq_4, if_pos hover]
  rfl

theorem unpack_pack_infinity (s : Sign) :
    unpack binary64 (pack binary64 (.infinity s)) = .infinity s := by
  cases s <;> rfl

theorem canonical_of_unpack {b : BitVec binary64.numBits} {s : Sign} {m : Nat} {h : 0 < m}
    (hb : unpack binary64 b = .finite s m e h) : Canonical m e := by
  have hmantissa : (unpackMantissa b).toNat < 2 ^ 52 := (unpackMantissa b).isLt
  have hexponent : (unpackExponent b).toNat < 2 ^ 11 := (unpackExponent b).isLt
  have hbias : (binary64.exponentBias : Int) = 1023 := rfl
  have hwithout : (binary64.mantissaBitsWithoutImplicit : Int) = 52 := rfl
  rw [unpack.eq_1] at hb
  dsimp only at hb
  split at hb
  · split at hb <;> cases hb
  next hinf =>
    have hne : (unpackExponent b).toNat ≠ 2047 := fun heq => hinf (BitVec.eq_of_toNat_eq heq)
    split at hb
    next hzero =>
      split at hb
      · cases hb
      · cases hb
        have hexp : (unpackExponent b).toNat = 0 := congrArg BitVec.toNat hzero
        exact ⟨by omega, by omega, by omega, .inr (by omega)⟩
    next hpos =>
      cases hb
      have hne' : (unpackExponent b).toNat ≠ 0 := fun heq => hpos (BitVec.eq_of_toNat_eq heq)
      have hsum : (1#1 ++ unpackMantissa b).toNat = 2 ^ 52 + (unpackMantissa b).toNat := by
        rw [BitVec.toNat_append, ← Nat.shiftLeft_add_eq_or_of_lt hmantissa]
        rfl
      rw [hsum]
      exact ⟨by omega, by omega, by omega, .inl (by omega)⟩

def Sign.of (s : Sign) (q : ℚ) : ℚ :=
  match s with
  | .positive => q
  | .negative => -q

namespace Sign

variable (s t : Sign) (q r : ℚ)

@[simp]
theorem of_zero : s.of 0 = 0 := by
  cases s <;> simp [Sign.of]

@[simp]
theorem abs_of : |s.of q| = |q| := by
  cases s <;> simp [Sign.of]

theorem of_mul : (s * t).of (q * r) = s.of q * t.of r := by
  cases s <;> cases t
  · exact (neg_mul_neg q r).symm
  · exact (neg_mul q r).symm
  · exact (mul_neg q r).symm
  · rfl

theorem of_div : (s / t).of (q / r) = s.of q / t.of r := by
  cases s <;> cases t
  · exact (neg_div_neg_eq q r).symm
  · exact (neg_div r q).symm
  · exact (div_neg q).symm
  · rfl

theorem of_neg : (-s).of q = -s.of q := by
  cases s
  · exact (neg_neg q).symm
  · rfl

end Sign

def size : UnpackedFloat → ℚ
  | .finite _ m e _ => m * 2 ^ e
  | _ => 0

def value : UnpackedFloat → ℚ
  | .finite s m e _ => s.of (m * 2 ^ e)
  | _ => 0

@[simp]
theorem size_zero (s : Sign) : (zero s).size = 0 :=
  rfl

@[simp]
theorem size_finite (s : Sign) (m : Nat) (e : Int) (h : 0 < m) :
    (finite s m e h).size = m * 2 ^ e :=
  rfl

@[simp]
theorem value_zero (s : Sign) : (zero s).value = 0 :=
  rfl

@[simp]
theorem value_finite (s : Sign) (m : Nat) (e : Int) (h : 0 < m) :
    (finite s m e h).value = s.of (m * 2 ^ e) :=
  rfl

theorem zero_or_finite {u : UnpackedFloat} (h : u.isFinite = true) :
    (∃ s, u = .zero s) ∨ ∃ s m e hm, u = .finite s m e hm := by
  cases u with
  | zero s => exact .inl ⟨s, rfl⟩
  | finite s m e hm => exact .inr ⟨s, m, e, hm, rfl⟩
  | _ => cases h

theorem size_nonneg (u : UnpackedFloat) : 0 ≤ u.size := by
  cases u with
  | finite s m e h => exact mul_nonneg (Nat.cast_nonneg m) (zpow_pos two_pos e).le
  | _ => exact le_rfl

theorem abs_value (u : UnpackedFloat) : |u.value| = u.size := by
  cases u with
  | finite s m e h =>
    rw [value_finite, Sign.abs_of]
    exact abs_of_nonneg (size_nonneg (.finite s m e h))
  | _ => exact abs_zero

theorem unpack_pack_zero (s : Sign) : unpack binary64 (pack binary64 (.zero s)) = .zero s :=
  unpack_packedZero

/-- The magnitude of a float, not necessarily with all bits of its mantissa. -/
structure Representable (m : Nat) (e : Int) : Prop where
  short : m < 2 ^ 53
  low : -1074 ≤ e
  high : e ≤ 971

theorem representable_zero : Representable 0 0 :=
  ⟨by decide, by decide, by decide⟩

theorem representable_max : Representable (2 ^ 53 - 1) 971 :=
  ⟨by decide, by decide, by decide⟩

theorem Canonical.representable {m : Nat} {e : Int} (h : Canonical m e) : Representable m e :=
  ⟨h.short, h.low, h.high⟩

theorem two_zpow_add_toNat {a b : Int} (h : a ≤ b) :
    (2 : ℚ) ^ b = ((2 ^ (b - a).toNat : Nat) : ℚ) * 2 ^ a := by
  have hsum : ((b - a).toNat : Int) + a = b := by omega
  rw [Nat.cast_pow, Nat.cast_ofNat, ← zpow_natCast, ← zpow_add₀ two_ne_zero, hsum]

theorem Representable.lt_of_lt {m : Nat} {E place : Int} (hm : Representable m E)
    (h : E < place) : (m : ℚ) * 2 ^ E < 2 ^ 52 * 2 ^ place := by
  have hshort : (m : ℚ) < 2 ^ 53 := by exact_mod_cast hm.short
  have hstep : (2 : ℚ) * 2 ^ E ≤ 2 ^ place := by
    rw [← zpow_one_add₀ two_ne_zero]
    exact zpow_le_zpow_right₀ one_le_two (by omega)
  calc (m : ℚ) * 2 ^ E < 2 ^ 53 * 2 ^ E := mul_lt_mul_of_pos_right hshort (zpow_pos two_pos E)
    _ = 2 ^ 52 * (2 * 2 ^ E) := by ring
    _ ≤ 2 ^ 52 * 2 ^ place := mul_le_mul_of_nonneg_left hstep (by positivity)

def IsFloatValue (q : ℚ) : Prop :=
  ∃ m E, Representable m E ∧ |q| = m * 2 ^ E

theorem isFloatValue_zero : IsFloatValue 0 :=
  ⟨0, 0, representable_zero, by simp⟩

theorem isFloatValue_natCast {m : Nat} (hm : m < 2 ^ 53) : IsFloatValue m :=
  ⟨m, 0, ⟨hm, by decide, by decide⟩, by simp⟩

theorem isFloatValue_two_pow {k : Nat} (hk : k ≤ 971) : IsFloatValue (2 ^ k) := by
  refine ⟨1, k, ⟨by decide, by omega, by omega⟩, ?_⟩
  rw [Nat.cast_one, one_mul, zpow_natCast, abs_of_pos (by positivity)]

theorem IsFloatValue.neg {q : ℚ} (h : IsFloatValue q) : IsFloatValue (-q) := by
  obtain ⟨m, E, hm, hq⟩ := h
  exact ⟨m, E, hm, by rwa [abs_neg]⟩

theorem Canonical.isFloatValue {m : Nat} {e : Int} (h : Canonical m e) (s : Sign) :
    IsFloatValue (s.of (m * 2 ^ e)) := by
  refine ⟨m, e, h.representable, ?_⟩
  rw [Sign.abs_of, abs_of_nonneg]
  exact mul_nonneg (Nat.cast_nonneg m) (zpow_pos two_pos e).le

def maxFinite : ℚ :=
  (2 ^ 53 - 1 : Nat) * 2 ^ (971 : Int)

theorem Representable.le_maxFinite {m : Nat} {E : Int} (h : Representable m E) :
    (m : ℚ) * 2 ^ E ≤ maxFinite := by
  have hm : (m : ℚ) ≤ (2 ^ 53 - 1 : Nat) := Nat.cast_le.2 (Nat.le_sub_one_of_lt h.short)
  have hE : (2 : ℚ) ^ E ≤ 2 ^ (971 : Int) := zpow_le_zpow_right₀ one_le_two h.high
  exact mul_le_mul hm hE (zpow_pos two_pos E).le (Nat.cast_nonneg _)

theorem IsFloatValue.abs_le_maxFinite {q : ℚ} (h : IsFloatValue q) : |q| ≤ maxFinite := by
  obtain ⟨m, E, hm, hq⟩ := h
  exact hq.trans_le hm.le_maxFinite

structure Within (lo hi : ℚ) (u : UnpackedFloat) : Prop where
  finite : u.isFinite = true
  low : lo ≤ u.size
  high : u.size ≤ hi

theorem abs_roundDiv_sub_le (n : Nat) (hd : 0 < d) :
    |(Decimal.roundDiv n d : ℚ) - n / d| ≤ 1 / 2 := by
  have hdiv : (0 : ℚ) < d := Nat.cast_pos.2 hd
  have hle : (2 : ℚ) * (Decimal.roundDiv n d * d) ≤ 2 * n + d := by
    exact_mod_cast Decimal.roundDiv_le n d
  have hge : (2 : ℚ) * n ≤ 2 * (Decimal.roundDiv n d * d) + d := by
    exact_mod_cast Decimal.le_roundDiv n hd
  have hlow : (Decimal.roundDiv n d : ℚ) - 1 / 2 ≤ n / d := (le_div_iff₀ hdiv).2 (by linarith)
  have hhigh : (n : ℚ) / d ≤ Decimal.roundDiv n d + 1 / 2 := (div_le_iff₀ hdiv).2 (by linarith)
  rw [abs_le]
  constructor <;> linarith

theorem even_roundDiv_of_tie (hd : 0 < d) (htie : |(Decimal.roundDiv n d : ℚ) - n / d| = 1 / 2) :
    Even (Decimal.roundDiv n d) := by
  have hdiv : (d : ℚ) ≠ 0 := Nat.cast_ne_zero.2 (Nat.ne_of_gt hd)
  have hquot : (n : ℚ) / d * d = n := div_mul_cancel₀ _ hdiv
  refine Nat.even_iff.2 (Decimal.roundDiv_even_of_tie hd ?_)
  rcases (abs_eq (by norm_num)).1 htie with hup | hdown
  · left
    have hscaled : (2 : ℚ) * (Decimal.roundDiv n d * d) = 2 * n + d := by
      linear_combination 2 * d * hup + 2 * hquot
    exact_mod_cast hscaled
  · right
    have hscaled : (2 : ℚ) * n = 2 * (Decimal.roundDiv n d * d) + d := by
      linear_combination -2 * d * hdown - 2 * hquot
    exact_mod_cast hscaled

inductive Packs (s : Sign) (n d : Nat) (e : Int) : UnpackedFloat → Prop
  | zero (hzero : steps n d e = 0) : Packs s n d e (.zero s)
  | finite {m : Nat} {E : Int} (hcanonical : Canonical m E) (hpos : 0 < m)
      (hsize : (m : ℚ) * 2 ^ E = steps n d e * 2 ^ place n d e) (hfits : Fits n d e) :
      Packs s n d e (.finite s m E hpos)
  | infinity (hlarge : ¬ Fits n d e) : Packs s n d e (.infinity s)

namespace Packs

variable {s : Sign} {u : UnpackedFloat}

theorem isNaN_eq_false (h : Packs s n d e u) : u.isNaN = false := by
  cases h <;> rfl

theorem value_eq (h : Packs s n d e u) (hfinite : u.isFinite = true) :
    u.value = s.of (steps n d e * 2 ^ place n d e) := by
  cases h with
  | zero hzero => rw [hzero, Nat.cast_zero, zero_mul, s.of_zero, value_zero]
  | finite _ hpos hsize => rw [value_finite, hsize]
  | infinity => cases hfinite

theorem size_eq (h : Packs s n d e u) (hfinite : u.isFinite = true) :
    u.size = steps n d e * 2 ^ place n d e := by
  rw [← abs_value, h.value_eq hfinite, Sign.abs_of, abs_of_nonneg]
  exact mul_nonneg (Nat.cast_nonneg _) (zpow_pos two_pos _).le

theorem isFloatValue (h : Packs s n d e u) (hfinite : u.isFinite = true) :
    IsFloatValue (steps n d e * 2 ^ place n d e) := by
  cases h with
  | zero hzero =>
    rw [hzero, Nat.cast_zero, zero_mul]
    exact isFloatValue_zero
  | finite hcanonical _ hsize =>
    rw [← hsize]
    exact hcanonical.isFloatValue .positive
  | infinity => cases hfinite

theorem isFinite_of_fits (h : Packs s n d e u) (hfits : Fits n d e) : u.isFinite = true := by
  cases h with
  | infinity hlarge => exact absurd hfits hlarge
  | _ => rfl

end Packs

namespace Ample

variable {m : Nat} {E : Int}

theorem value_eq (h : Ample n d e) :
    (n : ℚ) / d * 2 ^ e = n / divisor n d e * 2 ^ place n d e := by
  have hd : (d : ℚ) ≠ 0 := Nat.cast_ne_zero.2 (Nat.ne_of_gt h.1)
  have hpow : ((2 ^ (place n d e - e).toNat : Nat) : ℚ) ≠ 0 :=
    Nat.cast_ne_zero.2 (Nat.ne_of_gt (Nat.two_pow_pos _))
  rw [two_zpow_add_toNat h.le_place, divisor, Nat.cast_mul]
  field_simp

theorem place_le (h : Ample n d e) (hm : Representable m E)
    (hle : (n : ℚ) / d * 2 ^ e ≤ m * 2 ^ E) : place n d e ≤ E := by
  by_contra hlt
  have hlow := hm.low
  have hfull := h.full_or_tiny.resolve_right (by omega)
  have hdiv : (0 : ℚ) < divisor n d e := Nat.cast_pos.2 h.divisor_pos
  have hquot : (2 : ℚ) ^ 52 ≤ n / divisor n d e := by
    rw [le_div_iff₀ hdiv]
    exact_mod_cast hfull
  rw [h.value_eq] at hle
  have hbelow : (2 : ℚ) ^ 52 * 2 ^ place n d e ≤ m * 2 ^ E :=
    (mul_le_mul_of_nonneg_right hquot (zpow_pos two_pos _).le).trans hle
  exact absurd hbelow (not_le_of_gt (hm.lt_of_lt (not_le.1 hlt)))

theorem steps_le_of_le (h : Ample n d e) (hm : Representable m E)
    (hle : (n : ℚ) / d * 2 ^ e ≤ m * 2 ^ E) :
    (steps n d e : ℚ) * 2 ^ place n d e ≤ m * 2 ^ E := by
  have hdiv : (0 : ℚ) < divisor n d e := Nat.cast_pos.2 h.divisor_pos
  have hpos : (0 : ℚ) < 2 ^ place n d e := zpow_pos two_pos _
  have hplace := two_zpow_add_toNat (h.place_le hm hle)
  rw [h.value_eq, hplace, ← mul_assoc, mul_le_mul_iff_left₀ hpos, div_le_iff₀ hdiv] at hle
  have hsteps : steps n d e ≤ m * 2 ^ (E - place n d e).toNat :=
    roundDiv_le_of_le (by exact_mod_cast hle) h.divisor_pos
  rw [hplace, ← mul_assoc, mul_le_mul_iff_left₀ hpos]
  exact_mod_cast hsteps

theorem le_steps_of_le (h : Ample n d e) (hm : Representable m E)
    (hle : (m : ℚ) * 2 ^ E ≤ n / d * 2 ^ e) :
    (m : ℚ) * 2 ^ E ≤ steps n d e * 2 ^ place n d e := by
  have hdiv : (0 : ℚ) < divisor n d e := Nat.cast_pos.2 h.divisor_pos
  have hpos : (0 : ℚ) < 2 ^ place n d e := zpow_pos two_pos _
  obtain hE | hE := le_or_gt (place n d e) E
  · have hplace := two_zpow_add_toNat hE
    rw [h.value_eq, hplace, ← mul_assoc, mul_le_mul_iff_left₀ hpos, le_div_iff₀ hdiv] at hle
    have hsteps : m * 2 ^ (E - place n d e).toNat ≤ steps n d e :=
      le_roundDiv_of_le (by exact_mod_cast hle) h.divisor_pos
    rw [hplace, ← mul_assoc, mul_le_mul_iff_left₀ hpos]
    exact_mod_cast hsteps
  · have hlow := hm.low
    have hfull : (2 : ℚ) ^ 52 ≤ steps n d e := by
      exact_mod_cast h.steps_full_or_tiny.resolve_right (by omega)
    exact (hm.lt_of_lt hE).le.trans (mul_le_mul_of_nonneg_right hfull hpos.le)

theorem packs (h : Ample n d e) (s : Sign) : Packs s n d e (unpack binary64 (pack binary64
    (roundWithAccuracy binary64 s (n / d) e (accuracyOfFraction (n % d) d)))) := by
  have hlow : -1074 ≤ place n d e := by rw [place_eq]; omega
  have hsteps := h.steps_le
  rw [h.roundWithAccuracy_eq]
  split
  next hzero =>
    rw [unpack_pack_zero]
    exact .zero hzero
  next hpos =>
    split
    next hshort =>
      by_cases hhigh : place n d e ≤ 971
      · have hcanonical : Canonical (steps n d e) (place n d e) :=
          ⟨hshort, hlow, hhigh, h.steps_full_or_tiny⟩
        rw [hcanonical.unpack_pack]
        exact .finite hcanonical _ rfl (by unfold Fits; omega)
      · rw [pack_finite_large (not_le.1 hhigh), unpack_pack_infinity]
        exact .infinity (by unfold Fits; omega)
    next hlong =>
      have hfull : steps n d e = 2 ^ 53 := by omega
      by_cases hhigh : place n d e + 1 ≤ 971
      · have hcanonical : Canonical (2 ^ 52) (place n d e + 1) :=
          ⟨by decide, by omega, hhigh, .inl (Nat.le_refl _)⟩
        rw [hcanonical.unpack_pack]
        refine .finite hcanonical _ ?_ (.inl (by omega))
        rw [hfull, zpow_add_one₀ two_ne_zero]
        push_cast
        ring
      · rw [pack_finite_large (not_le.1 hhigh), unpack_pack_infinity]
        exact .infinity (by unfold Fits; omega)

theorem fits_of_le {m : Nat} {E : Int} (h : Ample n d e) (hm : Representable m E)
    (hle : (n : ℚ) / d * 2 ^ e ≤ m * 2 ^ E) : Fits n d e := by
  have hplace := (h.place_le hm hle).trans hm.high
  obtain hlow | heq := hplace.lt_or_eq
  · exact .inl hlow
  · obtain rfl : E = 971 := le_antisymm hm.high (heq ▸ h.place_le hm hle)
    have hsteps := h.steps_le_of_le hm hle
    rw [heq, mul_le_mul_iff_left₀ (zpow_pos two_pos _), Nat.cast_le] at hsteps
    have hshort := hm.short
    exact .inr ⟨heq, by omega⟩

theorem value_nonneg (n d : Nat) (e : Int) : (0 : ℚ) ≤ n / d * 2 ^ e :=
  mul_nonneg (div_nonneg (Nat.cast_nonneg n) (Nat.cast_nonneg d)) (zpow_pos two_pos e).le

theorem steps_nonneg (n d : Nat) (e : Int) : (0 : ℚ) ≤ steps n d e * 2 ^ place n d e :=
  mul_nonneg (Nat.cast_nonneg _) (zpow_pos two_pos _).le

/-- Rounding passes no float, and no negative one either. -/
theorem steps_le_of_isFloatValue (h : Ample n d e) {q : ℚ} (hq : IsFloatValue q)
    (hle : (n : ℚ) / d * 2 ^ e ≤ q) : (steps n d e : ℚ) * 2 ^ place n d e ≤ q := by
  obtain ⟨m, E, hm, hq⟩ := hq
  rw [abs_of_nonneg ((value_nonneg n d e).trans hle)] at hq
  rw [hq] at hle ⊢
  exact h.steps_le_of_le hm hle

theorem le_steps_of_isFloatValue (h : Ample n d e) {q : ℚ} (hq : IsFloatValue q)
    (hle : q ≤ (n : ℚ) / d * 2 ^ e) : q ≤ (steps n d e : ℚ) * 2 ^ place n d e := by
  rcases le_or_gt 0 q with hpos | hneg
  · obtain ⟨m, E, hm, hq⟩ := hq
    rw [abs_of_nonneg hpos] at hq
    rw [hq] at hle ⊢
    exact h.le_steps_of_le hm hle
  · exact hneg.le.trans (steps_nonneg n d e)

theorem error_le (h : Ample n d e) :
    |(steps n d e : ℚ) * 2 ^ place n d e - n / d * 2 ^ e| ≤ 2 ^ place n d e / 2 := by
  have hpos : (0 : ℚ) < 2 ^ place n d e := zpow_pos two_pos _
  rw [h.value_eq, ← sub_mul, abs_mul, abs_of_pos hpos, div_eq_inv_mul (2 ^ place n d e),
    inv_eq_one_div]
  exact mul_le_mul_of_nonneg_right (abs_roundDiv_sub_le n h.divisor_pos) hpos.le

theorem place_full_or_tiny (h : Ample n d e) :
    (2 : ℚ) ^ 52 * 2 ^ place n d e ≤ n / d * 2 ^ e ∨ place n d e = -1074 := by
  have hdiv : (0 : ℚ) < divisor n d e := Nat.cast_pos.2 h.divisor_pos
  refine h.full_or_tiny.imp_left fun hfull => ?_
  rw [h.value_eq]
  refine mul_le_mul_of_nonneg_right ?_ (zpow_pos two_pos _).le
  rw [le_div_iff₀ hdiv]
  exact_mod_cast hfull

end Ample

theorem ample_one (hn : 2 ^ 52 ≤ n ∨ e ≤ -1074) : Ample n 1 e :=
  ⟨Nat.one_pos, hn.imp_left fun h => by rwa [Nat.mul_one]⟩

inductive RoundingOf : ℚ → UnpackedFloat → Prop
  | kept {u : UnpackedFloat} (hfinite : u.isFinite = true) (hvalue : IsFloatValue u.value) :
      RoundingOf u.value u
  | quotient {n d : Nat} {e : Int} (h : Ample n d e) (s : Sign) :
      RoundingOf (s.of (n / d * 2 ^ e)) (unpack binary64 (pack binary64
        (roundWithAccuracy binary64 s (n / d) e (accuracyOfFraction (n % d) d))))

theorem roundingOf_zero (s : Sign) : RoundingOf 0 (unpack binary64 (pack binary64 (.zero s))) := by
  rw [unpack_pack_zero]
  exact .kept (u := .zero s) rfl isFloatValue_zero

theorem roundingOf_exact (hn : 2 ^ 52 ≤ n ∨ e ≤ -1074) (s : Sign) :
    RoundingOf (s.of (n * 2 ^ e)) (unpack binary64 (pack binary64
      (roundWithAccuracy binary64 s n e .exact))) := by
  have hrounding := RoundingOf.quotient (ample_one hn) s
  rwa [Nat.cast_one, div_one, Nat.div_one, Nat.mod_one] at hrounding

structure Rounds (r : ℚ) (u : UnpackedFloat) : Prop where
  finite : u.isFinite = true
  le_of_le {q : ℚ} : IsFloatValue q → r ≤ q → u.value ≤ q
  le_of_ge {q : ℚ} : IsFloatValue q → q ≤ r → q ≤ u.value

namespace Rounds

variable {r q : ℚ} {u : UnpackedFloat}

theorem eq_of_isFloatValue (h : Rounds r u) (hr : IsFloatValue r) : u.value = r :=
  le_antisymm (h.le_of_le hr le_rfl) (h.le_of_ge hr le_rfl)

theorem abs_value_le (h : Rounds r u) (hq : IsFloatValue q) (hle : |r| ≤ q) : |u.value| ≤ q := by
  obtain ⟨hlow, hhigh⟩ := abs_le.1 hle
  exact abs_le.2 ⟨h.le_of_ge hq.neg hlow, h.le_of_le hq hhigh⟩

theorem of_magnitude {r t : ℚ} (hfinite : u.isFinite = true) (s : Sign)
    (hvalue : u.value = s.of t) (hup : ∀ q, IsFloatValue q → r ≤ q → t ≤ q)
    (hdown : ∀ q, IsFloatValue q → q ≤ r → q ≤ t) : Rounds (s.of r) u := by
  cases s with
  | positive =>
    refine ⟨hfinite, ?_, ?_⟩ <;> intro q hq hle <;> rw [hvalue]
    · exact hup q hq hle
    · exact hdown q hq hle
  | negative =>
    refine ⟨hfinite, ?_, ?_⟩ <;> intro q hq hle <;> rw [hvalue]
    · exact neg_le.1 (hdown _ hq.neg (neg_le.1 hle))
    · exact le_neg.1 (hup _ hq.neg (le_neg.1 hle))

end Rounds

namespace RoundingOf

variable {r : ℚ} {u : UnpackedFloat}

theorem isNaN_eq_false (h : RoundingOf r u) : u.isNaN = false := by
  cases h with
  | kept hfinite => obtain ⟨s, rfl⟩ | ⟨s, m, e, hm, rfl⟩ := zero_or_finite hfinite <;> rfl
  | quotient h s => exact (h.packs s).isNaN_eq_false

theorem rounds (h : RoundingOf r u) (hle : |r| ≤ maxFinite) : Rounds r u := by
  cases h with
  | kept hfinite =>
    exact ⟨hfinite, fun _ h => h, fun _ h => h⟩
  | @quotient n d e h s =>
    rw [Sign.abs_of, abs_of_nonneg (Ample.value_nonneg n d e)] at hle
    have hfinite := (h.packs s).isFinite_of_fits (h.fits_of_le representable_max hle)
    have hvalue := (h.packs s).value_eq hfinite
    exact .of_magnitude hfinite s hvalue (fun q => h.steps_le_of_isFloatValue)
      fun q => h.le_steps_of_isFloatValue

theorem exact (h : RoundingOf r u) (hr : IsFloatValue r) : u.isFinite = true ∧ u.value = r := by
  have hrounds := h.rounds hr.abs_le_maxFinite
  exact ⟨hrounds.finite, hrounds.eq_of_isFloatValue hr⟩

theorem within {m m' : Nat} {E E' : Int} (h : RoundingOf r u) (hm : Representable m E)
    (hm' : Representable m' E') (hlow : (m : ℚ) * 2 ^ E ≤ |r|) (hhigh : |r| ≤ m' * 2 ^ E') :
    Within (m * 2 ^ E) (m' * 2 ^ E') u := by
  cases h with
  | kept hfinite =>
    rw [abs_value] at hlow hhigh
    exact ⟨hfinite, hlow, hhigh⟩
  | @quotient n d e h s =>
    rw [Sign.abs_of, abs_of_nonneg (Ample.value_nonneg n d e)] at hlow hhigh
    have hfinite := (h.packs s).isFinite_of_fits (h.fits_of_le hm' hhigh)
    have hsize := (h.packs s).size_eq hfinite
    refine ⟨hfinite, ?_, ?_⟩
    · rw [hsize]
      exact h.le_steps_of_le hm hlow
    · rw [hsize]
      exact h.steps_le_of_le hm' hhigh

end RoundingOf

end Float.Model.UnpackedFloat
