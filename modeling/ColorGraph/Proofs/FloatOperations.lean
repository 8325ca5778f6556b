import ColorGraph.Proofs.RoundedFloats
/-!
Operations on floats. Main statements: products, quotients, sums and differences, and decimals with
a power of ten, are what their exact values are rounded to; and no product of finite floats is
undefined.
-/

set_option autoImplicit false

namespace Float.Model.UnpackedFloat

open Format ColorGraph

attribute [local instance (2000)] instPowNat

variable {n : Nat} {e : Int}

section

variable {a b : BitVec binary64.numBits} {m m' : Nat} {E E' : Int} {s s' : Sign} {h : 0 < m}
  {h' : 0 < m'}

theorem ample_mul (ha : unpack binary64 a = .finite s m E h)
    (hb : unpack binary64 b = .finite s' m' E' h') : 2 ^ 52 ≤ m * m' ∨ E + E' ≤ -1074 := by
  obtain hfull | htiny := (canonical_of_unpack ha).full
  · exact .inl (hfull.trans (Nat.le_mul_of_pos_right m h'))
  obtain hfull | htiny' := (canonical_of_unpack hb).full
  · exact .inl (hfull.trans (Nat.le_mul_of_pos_left m' h))
  · exact .inr (by omega)

theorem divCore_eq (m m' : Nat) (E E' : Int) : ∃ (k : Nat) (f : Int), divCore binary64 m E m' E' =
      (m * 2 ^ k / m', f, accuracyOfFraction (m * 2 ^ k % m') m') ∧
    f = E - E' - k ∧ (52 + (m'.log2 + 1) ≤ m.log2 + k ∨ f ≤ -1074) := by
  let target := min (E - E') (binary64.targetExponent (totalExponent m E - totalExponent m' E'))
  refine ⟨(E - E' - target).toNat, target, ?_, ?_, ?_⟩
  · rw [← Nat.shiftLeft_eq]
    rfl
  · omega
  · have hbits : (binary64.mantissaBits : Int) = 53 := rfl
    have hmin : binary64.minExponent = -1074 := by decide
    have htarget : target = min (E - E') (max (totalExponent m E - totalExponent m' E' - 53)
      (-1074)) := by rw [← hmin, ← hbits]; rfl
    rw [totalExponent, totalExponent] at htarget
    omega

theorem ample_div {k : Nat} {f : Int} (hm : 0 < m) (hm' : 0 < m')
    (h : 52 + (m'.log2 + 1) ≤ m.log2 + k ∨ f ≤ -1074) : Ample (m * 2 ^ k) m' f := by
  refine ⟨hm', h.imp_left fun hlog => ?_⟩
  have hlow : 2 ^ m.log2 ≤ m := Nat.log2_self_le (Nat.ne_of_gt hm)
  have hhigh : m' < 2 ^ (m'.log2 + 1) := Nat.lt_log2_self
  calc 2 ^ 52 * m' ≤ 2 ^ 52 * 2 ^ (m'.log2 + 1) := Nat.mul_le_mul_left _ (Nat.le_of_lt hhigh)
    _ = 2 ^ (52 + (m'.log2 + 1)) := (Nat.pow_add _ _ _).symm
    _ ≤ 2 ^ (m.log2 + k) := Nat.pow_le_pow_right (by decide) hlog
    _ = 2 ^ m.log2 * 2 ^ k := Nat.pow_add _ _ _
    _ ≤ m * 2 ^ k := Nat.mul_le_mul_right _ hlow

end

theorem roundingOf_divCore {m m' : Nat} (hm : 0 < m) (hm' : 0 < m') (f f' : Int) (s : Sign) :
    RoundingOf (s.of (m * 2 ^ f / (m' * 2 ^ f'))) (unpack binary64 (pack binary64
      (roundWithAccuracy binary64 s (divCore binary64 m f m' f').1 (divCore binary64 m f m' f').2.1
        (divCore binary64 m f m' f').2.2))) := by
  obtain ⟨k, t, hcore, ht, hlog⟩ := divCore_eq m m' f f'
  have hvalue : (m : ℚ) * 2 ^ f / (m' * 2 ^ f') = ((m * 2 ^ k : Nat) : ℚ) / m' * 2 ^ t := by
    have hm' : (m' : ℚ) ≠ 0 := Nat.cast_ne_zero.2 (Nat.ne_of_gt hm')
    have hf : f = t + k + f' := by omega
    rw [hf, zpow_add₀ two_ne_zero, zpow_add₀ two_ne_zero, zpow_natCast]
    push_cast
    field_simp
  rw [hcore, hvalue]
  exact .quotient (ample_div hm hm' hlog) s

theorem apply_decreaseExponent (s : Sign) (m : Nat) {f g : Int} (h : g ≤ f) :
    ((s.apply (decreaseExponent m f g).1 : Int) : ℚ) * 2 ^ g = s.of (m * 2 ^ f) := by
  have hpow : ((m <<< (f - g).toNat : Nat) : ℚ) * 2 ^ g = m * 2 ^ f := by
    rw [Nat.shiftLeft_eq, two_zpow_add_toNat h, Nat.cast_mul, mul_assoc]
  rw [← hpow]
  cases s with
  | positive => rfl
  | negative =>
    simp only [Sign.apply, Sign.of, decreaseExponent]
    rw [Int.cast_neg, Int.cast_natCast, neg_mul]

theorem round_eq (hn : 0 < n) (e : Int) (s : Sign) : ∃ n' e',
    round binary64 s n e = roundWithAccuracy binary64 s n' e' .exact ∧
      (n' : ℚ) * 2 ^ e' = n * 2 ^ e ∧ (2 ^ 52 ≤ n' ∨ e' ≤ -1074) := by
  let k := (e - binary64.targetExponent (totalExponent n e)).toNat
  have htarget : binary64.targetExponent (totalExponent n e) = max (n.log2 + e - 52) (-1074) :=
    targetExponent_eq n e
  refine ⟨n * 2 ^ k, e - k, ?_, ?_, ?_⟩
  · rw [← Nat.shiftLeft_eq]
    rfl
  · rw [zpow_sub₀ two_ne_zero, zpow_natCast]
    push_cast
    field_simp
  · by_cases hlow : -1074 < e - k
    · have hlog : 52 ≤ n.log2 + k := by omega
      have hpow : 2 ^ n.log2 ≤ n := Nat.log2_self_le (Nat.ne_of_gt hn)
      refine .inl ?_
      calc 2 ^ 52 ≤ 2 ^ (n.log2 + k) := Nat.pow_le_pow_right (by decide) hlog
        _ = 2 ^ n.log2 * 2 ^ k := Nat.pow_add _ _ _
        _ ≤ n * 2 ^ k := Nat.mul_le_mul_right _ hpow
    · exact .inr (by omega)

theorem roundingOf_round (hn : 0 < n) (e : Int) (s : Sign) :
    RoundingOf (s.of (n * 2 ^ e)) (unpack binary64 (pack binary64 (round binary64 s n e))) := by
  obtain ⟨n', e', hround, hvalue, hn'⟩ := round_eq hn e s
  rw [hround, ← hvalue]
  exact roundingOf_exact hn' s

theorem roundingOf_normalize (z e : Int) (s : Sign) :
    RoundingOf (z * 2 ^ e) (unpack binary64 (pack binary64 (normalize binary64 z e s))) := by
  rw [normalize]
  split
  next hlt =>
    have hneg : z < 0 := Int.compare_eq_lt.1 hlt
    have hcast : (z : ℚ) = -((-z).toNat : Nat) := by
      have hint : z = -((-z).toNat : Int) := by omega
      exact_mod_cast hint
    have hrounding := roundingOf_round (n := (-z).toNat) (by omega) e .negative
    rwa [Sign.of, ← neg_mul, ← hcast] at hrounding
  next heq =>
    rw [Int.compare_eq_eq.1 heq, Int.cast_zero, zero_mul]
    exact roundingOf_zero s
  next hgt =>
    have hpos : 0 < z := Int.compare_eq_gt.1 hgt
    have hcast : (z : ℚ) = (z.toNat : Nat) := by
      have hint : z = (z.toNat : Int) := by omega
      exact_mod_cast hint
    have hrounding := roundingOf_round (n := z.toNat) (by omega) e .positive
    rwa [Sign.of, ← hcast] at hrounding

section

variable {a b : BitVec binary64.numBits} (ha : (unpack binary64 a).isFinite = true)
  (hb : (unpack binary64 b).isFinite = true)
include ha hb

theorem roundingOf_mul : RoundingOf ((unpack binary64 a).value * (unpack binary64 b).value)
    (unpack binary64 (pack binary64 (mul binary64 (unpack binary64 a) (unpack binary64 b)))) := by
  obtain ⟨s, hua⟩ | ⟨s, n, f, h, hua⟩ := zero_or_finite ha <;>
    obtain ⟨s', hub⟩ | ⟨s', n', f', h', hub⟩ := zero_or_finite hb <;>
    rw [hua, hub]
  · rw [value_zero, zero_mul]
    exact roundingOf_zero _
  · rw [value_zero, zero_mul]
    exact roundingOf_zero _
  · rw [value_zero, mul_zero]
    exact roundingOf_zero _
  · have hvalue : (n : ℚ) * 2 ^ f * (n' * 2 ^ f') = ((n * n' : Nat) : ℚ) * 2 ^ (f + f') := by
      rw [Nat.cast_mul, zpow_add₀ two_ne_zero]
      ring
    rw [value_finite, value_finite, ← Sign.of_mul, hvalue]
    exact roundingOf_exact (ample_mul hua hub) (s * s')

theorem roundingOf_div (hne : (unpack binary64 b).value ≠ 0) :
    RoundingOf ((unpack binary64 a).value / (unpack binary64 b).value)
      (unpack binary64 (pack binary64 (div binary64 (unpack binary64 a) (unpack binary64 b)))) := by
  obtain ⟨s', hub⟩ | ⟨s', n', f', h', hub⟩ := zero_or_finite hb
  · rw [hub] at hne
    exact absurd rfl hne
  obtain ⟨s, hua⟩ | ⟨s, n, f, h, hua⟩ := zero_or_finite ha <;> rw [hua, hub]
  · rw [value_zero, zero_div]
    exact roundingOf_zero _
  · rw [value_finite, value_finite, ← Sign.of_div]
    exact roundingOf_divCore h h' f f' (s / s')

theorem roundingOf_add : RoundingOf ((unpack binary64 a).value + (unpack binary64 b).value)
    (unpack binary64 (pack binary64 (add binary64 (unpack binary64 a) (unpack binary64 b)))) := by
  have hkept : ∀ {s n f} {h : 0 < n} {c : BitVec binary64.numBits},
      unpack binary64 c = .finite s n f h → RoundingOf (s.of (n * 2 ^ f))
        (unpack binary64 (pack binary64 (.finite s n f h))) := by
    intro s n f h c hc
    have hcanonical := canonical_of_unpack hc
    rw [hcanonical.unpack_pack]
    exact .kept (u := .finite s n f h) rfl (hcanonical.isFloatValue s)
  obtain ⟨s, hua⟩ | ⟨s, n, f, h, hua⟩ := zero_or_finite ha <;>
    obtain ⟨s', hub⟩ | ⟨s', n', f', h', hub⟩ := zero_or_finite hb <;>
    rw [hua, hub]
  · rw [value_zero, value_zero, add_zero, add.eq_def]
    dsimp only
    split <;> exact roundingOf_zero _
  · rw [value_zero, zero_add]
    exact hkept hub
  · rw [value_zero, add_zero]
    exact hkept hua
  · have hsum : (((s.apply (decreaseExponent n f (min f f')).1 +
        s'.apply (decreaseExponent n' f' (min f f')).1 : Int) : ℚ)) * 2 ^ min f f' =
          s.of (n * 2 ^ f) + s'.of (n' * 2 ^ f') := by
      rw [Int.cast_add, add_mul, apply_decreaseExponent s n (min_le_left f f'),
        apply_decreaseExponent s' n' (min_le_right f f')]
    rw [value_finite, value_finite, ← hsum]
    exact roundingOf_normalize _ _ .positive

end

theorem sub_eq_add (spec : Format) (a b : UnpackedFloat) : sub spec a b = add spec a b.neg := by
  have happly : ∀ (s : Sign) (n : Int), (-s).apply n = -s.apply n := by
    intro s n
    cases s
    · exact (Int.neg_neg n).symm
    · rfl
  cases a with
  | finite s m e h =>
    cases b with
    | finite s' m' e' h' => simp only [sub, neg, add, happly, Int.sub_eq_add_neg]
    | _ => rfl
  | _ => cases b <;> rfl

end Float.Model.UnpackedFloat

namespace ColorGraph

open Float.Model Float.Model.UnpackedFloat

attribute [local instance (2000)] instPowNat

variable {x y : Float} {m m' n p : Nat} {E E' : Int}

def exactSize (x : Float) : ℚ :=
  x.toModel.unpack.size

def exactValue (x : Float) : ℚ :=
  x.toModel.unpack.value

theorem abs_exactValue (x : Float) : |exactValue x| = exactSize x :=
  abs_value _

section

variable (hx : x.isFinite = true) (hy : y.isFinite = true)
include hx

theorem representable_of_finite : ∃ m E, Representable m E ∧ exactSize x = m * 2 ^ E := by
  obtain ⟨s, hu⟩ | ⟨s, m, E, h, hu⟩ := zero_or_finite hx
  · exact ⟨0, 0, representable_zero, by rw [exactSize, hu, size_zero, Nat.cast_zero, zero_mul]⟩
  · exact ⟨m, E, (canonical_of_unpack hu).representable, by rw [exactSize, hu, size_finite]⟩

theorem isFloatValue_exactValue : IsFloatValue (exactValue x) := by
  obtain ⟨m, E, hm, hsize⟩ := representable_of_finite hx
  exact ⟨m, E, hm, by rw [abs_exactValue, hsize]⟩

theorem unpack_neg_of_finite : (-x).toModel.unpack = x.toModel.unpack.neg := by
  change unpack .binary64 (pack .binary64 x.toModel.unpack.neg) = _
  obtain ⟨s, hu⟩ | ⟨s, m, E, h, hu⟩ := zero_or_finite hx
  · rw [hu, UnpackedFloat.neg, unpack_pack_zero]
  · rw [hu, UnpackedFloat.neg, (canonical_of_unpack hu).unpack_pack]

theorem neg_spec : (-x).isFinite = true ∧ exactValue (-x) = -exactValue x := by
  change (-x).toModel.unpack.isFinite = true ∧ (-x).toModel.unpack.value = -x.toModel.unpack.value
  rw [unpack_neg_of_finite hx]
  obtain ⟨s, hu⟩ | ⟨s, m, E, h, hu⟩ := zero_or_finite hx <;> rw [hu]
  · exact ⟨rfl, neg_zero.symm⟩
  · exact ⟨rfl, s.of_neg _⟩

theorem isFinite_neg : (-x).isFinite = true :=
  (neg_spec hx).1

theorem abs_spec : x.abs.isFinite = true ∧ exactValue x.abs = |exactValue x| := by
  have hunpack : x.abs.toModel.unpack = x.toModel.unpack.abs := by
    change unpack .binary64 (pack .binary64 x.toModel.unpack.abs) = _
    obtain ⟨s, hu⟩ | ⟨s, m, E, h, hu⟩ := zero_or_finite hx
    · rw [hu, UnpackedFloat.abs, unpack_pack_zero]
    · rw [hu, UnpackedFloat.abs, (canonical_of_unpack hu).unpack_pack]
  change x.abs.toModel.unpack.isFinite = true ∧ x.abs.toModel.unpack.value = _
  rw [hunpack, abs_exactValue, exactSize]
  obtain ⟨s, hu⟩ | ⟨s, m, E, h, hu⟩ := zero_or_finite hx <;> rw [hu] <;> exact ⟨rfl, rfl⟩

include hy

theorem roundingOf_mul : RoundingOf (exactValue x * exactValue y) (x * y).toModel.unpack :=
  UnpackedFloat.roundingOf_mul hx hy

theorem roundingOf_div (hne : exactValue y ≠ 0) :
    RoundingOf (exactValue x / exactValue y) (x / y).toModel.unpack :=
  UnpackedFloat.roundingOf_div hx hy hne

theorem roundingOf_add : RoundingOf (exactValue x + exactValue y) (x + y).toModel.unpack :=
  UnpackedFloat.roundingOf_add hx hy

theorem roundingOf_sub : RoundingOf (exactValue x - exactValue y) (x - y).toModel.unpack := by
  have hadd : (x - y).toModel.unpack = (x + -y).toModel.unpack := by
    change unpack .binary64 (pack .binary64 (UnpackedFloat.sub .binary64 x.toModel.unpack
      y.toModel.unpack)) = unpack .binary64 (pack .binary64 (UnpackedFloat.add .binary64
        x.toModel.unpack (-y).toModel.unpack))
    rw [unpack_neg_of_finite hy, sub_eq_add]
  rw [hadd, sub_eq_add_neg, ← (neg_spec hy).2]
  exact roundingOf_add hx (isFinite_neg hy)

theorem isNaN_mul : (x * y).isNaN = false :=
  (roundingOf_mul hx hy).isNaN_eq_false

theorem within_mul (hm : Representable m E) (hm' : Representable m' E')
    (hlow : (m : ℚ) * 2 ^ E ≤ exactSize x * exactSize y)
    (hhigh : exactSize x * exactSize y ≤ m' * 2 ^ E') :
    Within (m * 2 ^ E) (m' * 2 ^ E') (x * y).toModel.unpack := by
  rw [← abs_exactValue, ← abs_exactValue, ← abs_mul] at hlow hhigh
  exact (roundingOf_mul hx hy).within hm hm' hlow hhigh

theorem isFinite_mul_of_le_one (hone : exactSize y ≤ 1) : (x * y).isFinite = true := by
  refine ((roundingOf_mul hx hy).rounds ?_).finite
  rw [abs_mul, abs_exactValue y]
  exact (mul_le_of_le_one_right (abs_nonneg _) hone).trans
    (isFloatValue_exactValue hx).abs_le_maxFinite

theorem isFinite_div (hone : 1 ≤ exactSize y) : (x / y).isFinite = true := by
  have hne : exactValue y ≠ 0 := by
    rw [← abs_pos, abs_exactValue]
    exact one_pos.trans_le hone
  refine ((roundingOf_div hx hy hne).rounds ?_).finite
  rw [abs_div, abs_exactValue y]
  exact (div_le_self (abs_nonneg _) hone).trans (isFloatValue_exactValue hx).abs_le_maxFinite

end

theorem isFinite_of_not (hinf : ¬ x.isInf = true) (hnan : x.isNaN = false) :
    x.isFinite = true := by
  change x.toModel.unpack.isFinite = true
  change ¬ x.toModel.unpack.isInf = true at hinf
  change x.toModel.unpack.isNaN = false at hnan
  cases hu : x.toModel.unpack with
  | infinity s =>
    rw [hu] at hinf
    exact absurd rfl hinf
  | notANumber =>
    rw [hu] at hnan
    cases hnan
  | _ => rfl

theorem isInf_of_finite (h : x.isFinite = true) : x.isInf = false := by
  change x.toModel.unpack.isInf = false
  obtain ⟨s, hu⟩ | ⟨s, m, E, hm, hu⟩ := zero_or_finite h <;> rw [hu] <;> rfl

theorem zero_spec : (0.0 : Float).isFinite = true ∧ exactValue 0.0 = 0 := by
  decide +kernel

theorem exactValue_one : exactValue 1.0 = 1 := by
  decide +kernel

theorem isFinite_of_exactValue (hne : exactValue x ≠ 0) : x.isFinite = true := by
  change x.toModel.unpack.isFinite = true
  cases hu : x.toModel.unpack with
  | infinity s => exact absurd (by rw [exactValue, hu]; rfl) hne
  | notANumber => exact absurd (by rw [exactValue, hu]; rfl) hne
  | _ => rfl

theorem exactValue_of_not_finite (hx : ¬ x.isFinite = true) : exactValue x = 0 :=
  not_not.1 fun hne => hx (isFinite_of_exactValue hne)

theorem exactValue_powerOfTen : ∀ p, (hp : p < Float.exactlyRepresentablePowersOfTen.size) →
    Float.exactlyRepresentablePowersOfTen[p].isFinite = true ∧
      exactValue Float.exactlyRepresentablePowersOfTen[p] = 10 ^ p := by
  decide +kernel

theorem toFloat_spec (hn : n < 2 ^ 53) :
    n.toUInt64.toFloat.isFinite = true ∧ exactValue n.toUInt64.toFloat = n := by
  have hmod : n.toUInt64.toNat = n := by
    rw [Nat.toUInt64, UInt64.toNat_ofNat', Nat.mod_eq_of_lt (by omega)]
  have hrounding := roundingOf_normalize (n : Int) 0 .positive
  rw [Int.cast_natCast, zpow_zero, mul_one] at hrounding
  refine RoundingOf.exact ?_ (isFloatValue_natCast hn)
  change RoundingOf n (unpack .binary64 (pack .binary64
    (UnpackedFloat.normalize .binary64 (n.toUInt64.toNat : Int) 0 .positive)))
  rw [hmod]
  exact hrounding

theorem ofScientific_eq (hn : n ≠ 0) (hp : p ≤ 2 ^ 11) :
    UnpackedFloat.ofScientific .binary64 n (p : Int) =
      roundWithAccuracy .binary64 .positive (n <<< 53 * 10 ^ p) (-53) .exact := by
  have hbits : (2 : Int) ^ Format.binary64.exponentBits = 2048 := rfl
  unfold UnpackedFloat.ofScientific
  rw [dif_neg hn, if_neg (by omega), if_neg (by omega), if_pos (Int.natCast_nonneg p)]
  rfl

theorem le_shiftLeft_mul (hn : n ≠ 0) (p : Nat) : 2 ^ 52 ≤ n <<< 53 * 10 ^ p := by
  have hpow : 0 < 10 ^ p := Nat.pow_pos (by decide)
  rw [Nat.shiftLeft_eq]
  calc 2 ^ 52 ≤ n * 2 ^ 53 := by omega
    _ ≤ n * 2 ^ 53 * 10 ^ p := Nat.le_mul_of_pos_right _ hpow

theorem cast_shiftLeft_mul (n p : Nat) :
    ((n <<< 53 * 10 ^ p : Nat) : ℚ) * 2 ^ (-53 : Int) = n * 10 ^ p := by
  rw [Nat.shiftLeft_eq]
  push_cast
  norm_num
  ring

theorem roundingOf_ofScientific (n : Nat) (hp : p ≤ 2 ^ 11) :
    RoundingOf (n * 10 ^ p) (Float.ofScientific n false p).toModel.unpack := by
  unfold Float.ofScientific
  split
  next hsmall =>
    have hp : p < Float.exactlyRepresentablePowersOfTen.size := Nat.lt_succ_of_le hsmall.2
    obtain ⟨hfinite, hvalue⟩ := toFloat_spec hsmall.1
    obtain ⟨hfinite', hvalue'⟩ := exactValue_powerOfTen p hp
    rw [← hvalue, ← hvalue']
    exact roundingOf_mul hfinite hfinite'
  next hlarge =>
    change RoundingOf _ (unpack .binary64 (pack .binary64
      (UnpackedFloat.ofScientific .binary64 n (p : Int))))
    by_cases hzero : n = 0
    · rw [hzero, Nat.cast_zero, zero_mul, UnpackedFloat.ofScientific, dif_pos rfl]
      exact roundingOf_zero .positive
    · rw [ofScientific_eq hzero hp, ← cast_shiftLeft_mul]
      exact roundingOf_exact (.inl (le_shiftLeft_mul hzero p)) .positive

theorem ofScientific_neg_eq (hn : 0 < n) (hp : 0 < p) (hlog : p ≤ 2 ^ 11 + n.log2) :
    UnpackedFloat.ofScientific .binary64 n (Int.negOfNat p) =
      UnpackedFloat.div .binary64 (.finite .positive n 0 hn)
        (.finite .positive (10 ^ p) 0 (Nat.pow_pos (by decide))) := by
  have hbits : (2 : Int) ^ Format.binary64.exponentBits = 2048 := rfl
  cases p with
  | zero => cases hp
  | succ p =>
    have hvalue : Int.negOfNat (p + 1) = -(p + 1 : Int) := rfl
    have hhigh : ¬ Int.negOfNat (p + 1) > 2 ^ Format.binary64.exponentBits := by omega
    have hlow : ¬ Int.negOfNat (p + 1) < -(2 ^ Format.binary64.exponentBits + n.log2) := by omega
    have hneg : ¬ 0 ≤ Int.negOfNat (p + 1) := by omega
    rw [UnpackedFloat.ofScientific, dif_neg (Nat.ne_of_gt hn), if_neg hhigh, if_neg hlow,
      if_neg hneg]
    rfl

theorem roundingOf_ofScientific_neg (hp : 0 < p) (hlog : p ≤ 2 ^ 11 + n.log2) :
    RoundingOf (n / 10 ^ p) (Float.ofScientific n true p).toModel.unpack := by
  unfold Float.ofScientific
  split
  next hsmall =>
    have hp : p < Float.exactlyRepresentablePowersOfTen.size := Nat.lt_succ_of_le hsmall.2
    obtain ⟨hfinite, hvalue⟩ := toFloat_spec hsmall.1
    obtain ⟨hfinite', hvalue'⟩ := exactValue_powerOfTen p hp
    rw [← hvalue, ← hvalue']
    refine roundingOf_div hfinite hfinite' ?_
    rw [hvalue']
    positivity
  next hlarge =>
    change RoundingOf _ (unpack .binary64 (pack .binary64
      (UnpackedFloat.ofScientific .binary64 n (Int.negOfNat p))))
    rcases Nat.eq_zero_or_pos n with hzero | hpos
    · rw [hzero, Nat.cast_zero, zero_div, UnpackedFloat.ofScientific, dif_pos rfl]
      exact roundingOf_zero .positive
    · have hpow : 0 < 10 ^ p := Nat.pow_pos (by decide)
      have hrounding := roundingOf_divCore hpos hpow 0 0 (.positive / .positive)
      rw [zpow_zero, mul_one, mul_one, Nat.cast_pow, Nat.cast_ofNat] at hrounding
      rw [ofScientific_neg_eq hpos hp hlog]
      exact hrounding

/-- The float of a whole number and a power of ten is between the floats around it. -/
theorem within_ofScientific (hp : p ≤ 308) (hm : Representable m E) (hm' : Representable m' E')
    (hlow : (m : ℚ) * 2 ^ E ≤ n * 10 ^ p) (hhigh : (n : ℚ) * 10 ^ p ≤ m' * 2 ^ E') :
    Within (m * 2 ^ E) (m' * 2 ^ E') (Float.ofScientific n false p).toModel.unpack := by
  have hnonneg : (0 : ℚ) ≤ n * 10 ^ p := by positivity
  rw [← abs_of_nonneg hnonneg] at hlow hhigh
  exact (roundingOf_ofScientific n (by omega)).within hm hm' hlow hhigh

theorem within_ofNat (hm : Representable m E) (hm' : Representable m' E')
    (hlow : (m : ℚ) * 2 ^ E ≤ n) (hhigh : (n : ℚ) ≤ m' * 2 ^ E') :
    Within (m * 2 ^ E) (m' * 2 ^ E') (Float.ofNat n).toModel.unpack :=
  within_ofScientific (Nat.zero_le 308) hm hm' (by rwa [pow_zero, mul_one])
    (by rwa [pow_zero, mul_one])

theorem representable_one : Representable 1 0 :=
  ⟨by decide, by decide, by decide⟩

theorem ofNat_spec (hn : n < 2 ^ 53) :
    (Float.ofNat n).isFinite = true ∧ exactValue (Float.ofNat n) = n := by
  have hrounding := roundingOf_ofScientific n (Nat.zero_le (2 ^ 11))
  rw [pow_zero, mul_one] at hrounding
  exact hrounding.exact (isFloatValue_natCast hn)

theorem natCast_le_max (h : n ≤ (2 ^ 53 - 1) * 2 ^ 971) :
    (n : ℚ) ≤ (2 ^ 53 - 1 : Nat) * 2 ^ (971 : Int) := by
  have hpow : (2 : ℚ) ^ (971 : Int) = ((2 ^ 971 : Nat) : ℚ) := by
    rw [Nat.cast_pow]
    exact zpow_natCast 2 971
  rw [hpow, ← Nat.cast_mul]
  exact Nat.cast_le.2 h

theorem powerOfTen_spec (hp : p ≤ 308) : (Float.ofScientific 1 false p).isFinite = true ∧
    1 ≤ exactSize (Float.ofScientific 1 false p) := by
  have hlow : ((1 : Nat) : ℚ) * 2 ^ (0 : Int) ≤ (1 : Nat) * 10 ^ p := by
    rw [zpow_zero, mul_one]
    exact_mod_cast Nat.le_mul_of_pos_right 1 (Nat.pow_pos (by decide))
  have hhigh : ((1 : Nat) : ℚ) * 10 ^ p ≤ (2 ^ 53 - 1 : Nat) * 2 ^ (971 : Int) := by
    have hle : 1 * 10 ^ p ≤ (2 ^ 53 - 1) * 2 ^ 971 := by
      rw [Nat.one_mul]
      exact (Nat.pow_le_pow_right (by decide) hp).trans (by decide +kernel)
    exact_mod_cast natCast_le_max hle
  have hwithin := within_ofScientific hp representable_one representable_max hlow hhigh
  refine ⟨hwithin.finite, le_trans ?_ hwithin.low⟩
  rw [Nat.cast_one, one_mul, zpow_zero]

end ColorGraph
