import ColorGraph.Decimal.Binary
import Mathlib
/-!
Whole numbers among the floats. Main statement: the float of a whole number that a float stands for
is that float, the negative zero aside.
-/

set_option autoImplicit false

namespace Float.Model.UnpackedFloat

open Format ExtendedMantissa

attribute [local instance (2000)] instPowNat

theorem repeat_shiftRightOne (m k : Nat) :
    Nat.repeat shiftRightOne k ⟨m * 2 ^ k, false, false⟩ = ⟨m, false, false⟩ := by
  induction k generalizing m with
  | zero => rw [Nat.pow_zero, Nat.mul_one]; rfl
  | succ k ih =>
    have hsplit : m * 2 ^ (k + 1) = m * 2 * 2 ^ k := by rw [Nat.pow_succ]; ac_rfl
    rw [hsplit, Nat.repeat, ih, shiftRightOne]
    simp

theorem log2_mul_two_pow {m : Nat} (h : 0 < m) (k : Nat) : (m * 2 ^ k).log2 = m.log2 + k := by
  induction k with
  | zero => rw [Nat.pow_zero, Nat.mul_one, Nat.add_zero]
  | succ k ih =>
    have hpos : m * 2 ^ k ≠ 0 := Nat.ne_of_gt (Nat.mul_pos h (Nat.two_pow_pos k))
    have hsplit : m * 2 ^ (k + 1) = 2 * (m * 2 ^ k) := by rw [Nat.pow_succ]; ac_rfl
    rw [hsplit, Nat.log2_two_mul hpos, ih]
    omega

theorem shiftToTargetExponent_exact {m : Nat} {e : Int} (h : 0 < m) (hm : m.log2 = 52)
    (he : -1074 ≤ e) (k : Nat) :
    shiftToTargetExponent binary64 (m * 2 ^ k) (e - k) .exact = (⟨m, false, false⟩, e) := by
  have htarget : binary64.targetExponent (totalExponent (m * 2 ^ k) (e - k)) = e := by
    have hbits : binary64.mantissaBits = 53 := rfl
    have hmin : binary64.minExponent = -1074 := by decide
    rw [targetExponent, totalExponent, log2_mul_two_pow h, hm, hbits, hmin]
    omega
  have hshift : (e - (e - k)).toNat = k := by omega
  rw [shiftToTargetExponent, htarget, shiftToExponent, hshift]
  refine Prod.ext (repeat_shiftRightOne m k) ?_
  simp

theorem roundWithAccuracy_exact {m : Nat} {e : Int} (h : 0 < m) (hm : m.log2 = 52)
    (he : -1074 ≤ e) (s : Sign) (k : Nat) :
    roundWithAccuracy binary64 s (m * 2 ^ k) (e - k) .exact = .finite s m e h := by
  have hzero := shiftToTargetExponent_exact h hm he 0
  rw [Nat.pow_zero, Nat.mul_one, Int.ofNat_zero, Int.sub_zero] at hzero
  have hround : roundedMantissa ⟨m, false, false⟩ = m := rfl
  simp [roundWithAccuracy, shiftToTargetExponent_exact h hm he, hround, hzero, Nat.ne_of_gt h]

theorem unpack_normal {b : BitVec binary64.numBits} {m : Nat} {e : Int}
    (he : ((unpackExponent b).toNat : Int) = e + 1075) (h0 : -1074 ≤ e) (h1 : e ≤ 971)
    (hm : 2 ^ 52 + (unpackMantissa b).toNat = m) (h : 0 < m) :
    unpack binary64 b = .finite (Sign.ofBitVec (unpackSign b)) m e h := by
  have hinf : unpackExponent b ≠ -1#11 := by
    intro heq
    rw [heq] at he
    have : ((-1#11).toNat : Int) = 2047 := rfl
    omega
  have hzero : unpackExponent b ≠ 0#11 := by
    intro heq
    rw [heq] at he
    have : ((0#11).toNat : Int) = 0 := rfl
    omega
  have hmantissa : (1#1 ++ unpackMantissa b).toNat = m := by
    have hlt : (unpackMantissa b).toNat < 2 ^ 52 := (unpackMantissa b).isLt
    rw [BitVec.toNat_append, ← Nat.shiftLeft_add_eq_or_of_lt hlt]
    exact hm
  rw [unpack.eq_1]
  dsimp only
  rw [if_neg hinf, if_neg hzero]
  congr 1
  rw [he]
  have : (binary64.exponentBias : Int) = 1023 := rfl
  omega

theorem unpack_subnormal {b : BitVec binary64.numBits} {m : Nat} (he : unpackExponent b = 0#11)
    (hm : (unpackMantissa b).toNat = m) (h : 0 < m) :
    unpack binary64 b = .finite (Sign.ofBitVec (unpackSign b)) m (-1074) h := by
  have hinf : unpackExponent b ≠ -1#11 := by
    rw [he]
    decide
  have hne : unpackMantissa b ≠ 0#52 := by
    intro hzero
    rw [hzero] at hm
    exact Nat.ne_of_lt h hm
  rw [unpack.eq_1]
  dsimp only
  rw [if_neg hinf, if_pos he, dif_neg hne]
  simp only [hm, he]
  rfl

theorem unpack_tiny {b : BitVec binary64.numBits} (he : unpackExponent b = 0#11)
    (hm : (unpackMantissa b).toNat = 0) :
    unpack binary64 b = .zero (Sign.ofBitVec (unpackSign b)) := by
  have hinf : unpackExponent b ≠ -1#11 := by
    rw [he]
    decide
  have hzero : unpackMantissa b = 0#52 := BitVec.eq_of_toNat_eq hm
  rw [unpack.eq_1]
  dsimp only
  rw [if_neg hinf, if_pos he, dif_pos hzero]

theorem pack_finite {m : Nat} {e : Int} (h : 0 < m) (hm : m.log2 = 52) (he' : e ≤ 971)
    (s : Sign) : pack binary64 (.finite s m e h) =
      packComponents binary64 s (BitVec.ofNat 11 (e + 1075).toNat) (BitVec.ofNat 52 m) := by
  have hbits : binary64.mantissaBits = 53 := rfl
  have hbiased : (e + (binary64.exponentBias : Nat) +
      (binary64.mantissaBitsWithoutImplicit : Nat)).toNat = (e + 1075).toNat := by
    have hbias : (binary64.exponentBias : Int) = 1023 := rfl
    have hwithout : (binary64.mantissaBitsWithoutImplicit : Int) = 52 := rfl
    rw [hbias, hwithout]
    omega
  have hfinite : ¬ 2 ^ binary64.exponentBits ≤ (e + 1075).toNat + 1 := by
    have hexp : binary64.exponentBits = 11 := rfl
    rw [hexp]
    omega
  rw [pack.eq_4, hbiased, if_neg hfinite, hm, hbits, if_pos rfl]

theorem unpack_pack_finite {m : Nat} {e : Int} (h : 0 < m) (hm : m.log2 = 52) (he : -1074 ≤ e)
    (he' : e ≤ 971) (s : Sign) :
    unpack binary64 (pack binary64 (.finite s m e h)) = .finite s m e h := by
  have hlow : 2 ^ 52 ≤ m := hm ▸ Nat.log2_self_le (Nat.ne_of_gt h)
  have hhigh : m < 2 ^ (52 + 1) := hm ▸ Nat.lt_log2_self (n := m)
  rw [pack_finite h hm he', unpack_normal (m := m) (e := e) _ he he' _ h]
  · rw [unpackSign_packComponents, Sign.ofBitVec_toBitVec]
  · rw [unpackExponent_packComponents]
    change (((e + 1075).toNat % 2 ^ 11 : Nat) : Int) = e + 1075
    omega
  · rw [unpackMantissa_packComponents]
    change 2 ^ 52 + m % 2 ^ 52 = m
    omega

/-- A whole number beyond 53 bits is scaled down from the bits it is scaled up to. -/
theorem ofScientific_of_long {m k : Nat} (h : 0 < m) (hm : m.log2 = 52) :
    UnpackedFloat.ofScientific binary64 (m * 2 ^ k) 0 = .finite .positive m k h := by
  have hpos : m * 2 ^ k ≠ 0 := Nat.ne_of_gt (Nat.mul_pos h (Nat.two_pow_pos k))
  have hshift : (m * 2 ^ k) <<< binary64.mantissaBits * 10 ^ (0 : Int).toNat =
      m * 2 ^ (k + 53) := by
    have hbits : binary64.mantissaBits = 53 := rfl
    rw [hbits, Nat.shiftLeft_eq, Int.toNat_zero, Nat.pow_zero, Nat.mul_one, Nat.mul_assoc,
      ← Nat.pow_add]
  have hexp : -(binary64.mantissaBits : Int) + 0 = k - ((k + 53 : Nat) : Int) := by
    have hbits : (binary64.mantissaBits : Int) = 53 := rfl
    omega
  have hexact := roundWithAccuracy_exact h hm (e := k) (by omega) .positive (k + 53)
  rw [← hshift, ← hexp] at hexact
  have hnottiny : ¬ (0 : Int) < -(2 ^ binary64.exponentBits + (m * 2 ^ k).log2) := by
    have hbits : (2 : Int) ^ binary64.exponentBits = 2048 := rfl
    omega
  rw [UnpackedFloat.ofScientific, dif_neg hpos, if_neg (by decide), if_neg hnottiny,
    if_pos (Int.le_refl 0)]
  exact hexact

theorem ofNat_of_short {m k n : Nat} (h : 0 < m) (hm : m.log2 = 52) (hk : k ≤ 52)
    (hn : n * 2 ^ k = m) : UnpackedFloat.ofNat binary64 n = .finite .positive m (-k) h := by
  have hpos : 0 < n := Nat.pos_of_mul_pos_right (hn ▸ h)
  have hlog : n.log2 + k = 52 := by rw [← log2_mul_two_pow hpos, hn, hm]
  have htarget : binary64.targetExponent (totalExponent n 0) = -k := by
    have hbits : binary64.mantissaBits = 53 := rfl
    have hmin : binary64.minExponent = -1074 := by decide
    rw [targetExponent, totalExponent, hbits, hmin]
    omega
  have hdecrease : decreaseExponent n 0 (-k) = (m, -(k : Int)) := by
    have hshift : (0 - -(k : Int)).toNat = k := by omega
    rw [decreaseExponent, hshift, Nat.shiftLeft_eq, hn, Int.zero_sub]
  have hsign : compare (n : Int) 0 = .gt := by
    rw [Int.compare_eq_gt]
    omega
  have hexact := roundWithAccuracy_exact h hm (e := -k) (by omega) .positive 0
  rw [Nat.pow_zero, Nat.mul_one, Int.ofNat_zero, Int.sub_zero] at hexact
  rw [UnpackedFloat.ofNat, UnpackedFloat.ofInt, UnpackedFloat.normalize, hsign]
  dsimp only
  rw [UnpackedFloat.round, Int.toNat_natCast, htarget, hdecrease]
  exact hexact

end Float.Model.UnpackedFloat

namespace ColorGraph

attribute [local instance (2000)] instPowNat

open Float.Model Float.Model.UnpackedFloat

theorem unpack_inj {x y : Float} (h : x.toModel.unpack = y.toModel.unpack) : x = y :=
  Float.toBits_inj.1 (UInt64.toBitVec_inj.1
    ((unpack_inj_of_valid x.toModel.valid y.toModel.valid).1 h))

theorem unpack_ofNat_large {m k : Nat} (h : 0 < m) (hm : m.log2 = 52) (hk : 0 < k) (hk' : k ≤ 971) :
    (Float.ofNat (m * 2 ^ k)).toModel.unpack = .finite .positive m k h := by
  have hpos : m * 2 ^ k ≠ 0 := Nat.ne_of_gt (Nat.mul_pos h (Nat.two_pow_pos k))
  have hlarge : ¬ (m * 2 ^ k < 2 ^ 53 ∧ 0 ≤ 22) := by
    rw [← Nat.log2_lt hpos, log2_mul_two_pow h]
    omega
  change (if h : m * 2 ^ k < 2 ^ 53 ∧ 0 ≤ 22 then _ else _ : Float).toModel.unpack = _
  rw [dif_neg hlarge]
  change unpack .binary64 (pack .binary64 (UnpackedFloat.ofScientific .binary64 (m * 2 ^ k) 0)) = _
  rw [ofScientific_of_long h hm]
  exact unpack_pack_finite h hm (by omega) (by omega) _

theorem unpack_ofNat_small {m k n : Nat} (h : 0 < m) (hm : m.log2 = 52) (hk : k ≤ 52)
    (hn : n * 2 ^ k = m) :
    (Float.ofNat n).toModel.unpack = .finite .positive m (-k) h := by
  have hsmall : n < 2 ^ 53 :=
    calc n ≤ n * 2 ^ k := Nat.le_mul_of_pos_right n (Nat.two_pow_pos k)
      _ = m := hn
      _ < 2 ^ 53 := (Nat.log2_lt (Nat.ne_of_gt h)).1 (by omega)
  have hone : (Float.exactlyRepresentablePowersOfTen[0]).toModel.unpack =
      .finite .positive (2 ^ 52) (-52) (by decide) := rfl
  have hfloat : (n.toUInt64.toFloat).toModel.unpack = .finite .positive m (-k) h := by
    change unpack .binary64 (pack .binary64 (UnpackedFloat.ofNat .binary64 n.toUInt64.toNat)) = _
    rw [Nat.toUInt64, UInt64.toNat_ofNat', Nat.mod_eq_of_lt (by omega), ofNat_of_short h hm hk hn]
    exact unpack_pack_finite h hm (by omega) (by omega) _
  have hexact := roundWithAccuracy_exact h hm (e := -k) (by omega) .positive 52
  change (if h : n < 2 ^ 53 ∧ 0 ≤ 22 then _ else _ : Float).toModel.unpack = _
  rw [dif_pos ⟨hsmall, by decide⟩]
  change unpack .binary64 (pack .binary64 (UnpackedFloat.mul .binary64
    (n.toUInt64.toFloat).toModel.unpack
    (Float.exactlyRepresentablePowersOfTen[0]).toModel.unpack)) = _
  rw [hfloat, hone]
  change unpack .binary64 (pack .binary64 (roundWithAccuracy .binary64 .positive (m * 2 ^ 52)
    (-k - (52 : Nat)) .exact)) = _
  rw [hexact]
  exact unpack_pack_finite h hm (by omega) (by omega) _

namespace Binary

variable {x : Float} {b : Binary}

def sign (b : Binary) : Sign :=
  if b.negative then .negative else .positive

def bits (x : Float) : BitVec Format.binary64.numBits :=
  x.toBits.toBitVec

theorem toNat_unpackExponent (x : Float) :
    (unpackExponent (bits x)).toNat = x.toBits.toNat / 2 ^ 52 % 2 ^ 11 := by
  rw [unpackExponent_def, BitVec.extractLsb'_toNat, Nat.shiftRight_eq_div_pow]
  rfl

theorem toNat_unpackMantissa (x : Float) :
    (unpackMantissa (bits x)).toNat = x.toBits.toNat % 2 ^ 52 := by
  rw [unpackMantissa_def, BitVec.extractLsb'_toNat, Nat.shiftRight_zero]
  rfl

theorem ofBitVec_unpackSign (x : Float) :
    Sign.ofBitVec (unpackSign (bits x)) =
      if x.toBits.toNat / 2 ^ 63 == 1 then .negative else .positive := by
  have hlt : x.toBits.toNat < 2 ^ 64 := x.toBits.toNat_lt
  have htoNat : (unpackSign (bits x)).toNat = x.toBits.toNat / 2 ^ 63 % 2 ^ 1 := by
    rw [unpackSign_def, BitVec.extractLsb'_toNat, Nat.shiftRight_eq_div_pow]
    rfl
  have hone : unpackSign (bits x) = 0#1 ↔ x.toBits.toNat / 2 ^ 63 ≠ 1 := by
    rw [← BitVec.toNat_inj, htoNat, BitVec.toNat_ofNat]
    omega
  rw [Sign.ofBitVec]
  simp only [hone, ite_not, beq_iff_eq]

theorem fields_of_ofFloat? (hb : ofFloat? x = some b) :
    b.sign = Sign.ofBitVec (unpackSign (bits x)) ∧
      (unpackExponent (bits x) = 0#11 ∧ b.mantissa = (unpackMantissa (bits x)).toNat ∧
          b.exponent = -1074 ∨
        ((unpackExponent (bits x)).toNat : Int) = b.exponent + 1075 ∧ -1074 ≤ b.exponent ∧
          b.exponent ≤ 971 ∧ 2 ^ 52 + (unpackMantissa (bits x)).toNat = b.mantissa) := by
  have hexp := toNat_unpackExponent x
  rw [sign, ofBitVec_unpackSign, toNat_unpackMantissa]
  unfold ofFloat? at hb
  dsimp only at hb
  split at hb
  · cases hb
  split at hb
  next hzero =>
    cases hb
    exact ⟨rfl, .inl ⟨BitVec.eq_of_toNat_eq (hexp.trans hzero), rfl, rfl⟩⟩
  · cases hb
    refine ⟨rfl, .inr ⟨?_, ?_, ?_, rfl⟩⟩ <;> dsimp only <;> omega

theorem unpack_of_ofFloat? (hb : ofFloat? x = some b) (h : 0 < b.mantissa) :
    x.toModel.unpack = .finite b.sign b.mantissa b.exponent h ∧
      (b.exponent = -1074 ∧ b.mantissa < 2 ^ 52 ∨
        b.mantissa.log2 = 52 ∧ -1074 ≤ b.exponent ∧ b.exponent ≤ 971) := by
  have hlt : (unpackMantissa (bits x)).toNat < 2 ^ 52 := (unpackMantissa (bits x)).isLt
  obtain ⟨hsign, ⟨hexp, hmant, htiny⟩ | ⟨hexp, hlow, hhigh, hmant⟩⟩ := fields_of_ofFloat? hb
  · refine ⟨?_, .inl ⟨htiny, hmant ▸ hlt⟩⟩
    simp only [hsign, htiny]
    exact unpack_subnormal (b := bits x) hexp hmant.symm h
  · refine ⟨?_, .inr ⟨?_, hlow, hhigh⟩⟩
    · rw [hsign]
      exact unpack_normal (b := bits x) hexp hlow hhigh hmant h
    · rw [Nat.log2_eq_iff (by omega)]
      omega

theorem unpack_of_zero (hb : ofFloat? x = some b) (h : b.mantissa = 0) :
    x.toModel.unpack = .zero b.sign := by
  obtain ⟨hsign, ⟨hexp, hmant, -⟩ | ⟨-, -, -, hmant⟩⟩ := fields_of_ofFloat? hb
  · rw [hsign]
    exact unpack_tiny (b := bits x) hexp (hmant.symm.trans h)
  · omega

def whole (b : Binary) : Nat :=
  b.mantissa / 2 ^ (-b.exponent).toNat * 2 ^ b.exponent.toNat

theorem eq_of_toInt? {n : Int} (h : b.toInt? = some n) :
    b.mantissa % 2 ^ (-b.exponent).toNat = 0 ∧
      n = if b.negative then -(b.whole : Int) else b.whole := by
  unfold toInt? at h
  dsimp only at h
  split at h
  next hmod =>
    refine ⟨hmod, ?_⟩
    rw [whole, Int.natCast_mul, Int.natCast_ediv]
    exact (Option.some.inj h).symm
  · cases h

theorem unpack_ofNat_whole (h : 0 < b.mantissa) (hm : b.mantissa.log2 = 52) (he : b.exponent ≤ 971)
    (hmod : b.mantissa % 2 ^ (-b.exponent).toNat = 0) :
    (Float.ofNat b.whole).toModel.unpack = .finite .positive b.mantissa b.exponent h := by
  rw [whole]
  rcases Int.le_total b.exponent 0 with hneg | hpos
  · have hk : 2 ^ (-b.exponent).toNat ≤ b.mantissa := Nat.le_of_dvd h (Nat.dvd_of_mod_eq_zero hmod)
    have hlog : (-b.exponent).toNat ≤ 52 := hm ▸ (Nat.le_log2 (Nat.ne_of_gt h)).2 hk
    have hmul := Nat.div_mul_cancel (Nat.dvd_of_mod_eq_zero hmod)
    have hzero : b.exponent.toNat = 0 := by omega
    have hexp : -((-b.exponent).toNat : Int) = b.exponent := by omega
    rw [hzero, Nat.pow_zero, Nat.mul_one, unpack_ofNat_small h hm hlog hmul]
    simp only [hexp]
  · have hzero : (-b.exponent).toNat = 0 := by omega
    have hexp : (b.exponent.toNat : Int) = b.exponent := by omega
    rw [hzero, Nat.pow_zero, Nat.div_one]
    obtain hk | hk := Nat.eq_zero_or_pos b.exponent.toNat
    · have hexp0 : -((0 : Nat) : Int) = b.exponent := by omega
      rw [hk, Nat.pow_zero, Nat.mul_one,
        unpack_ofNat_small (k := 0) h hm (by omega) (Nat.mul_one b.mantissa)]
      simp only [hexp0]
    · rw [unpack_ofNat_large h hm hk (by omega)]
      simp only [hexp]

theorem whole_pos (h : 0 < b.mantissa) (hmod : b.mantissa % 2 ^ (-b.exponent).toNat = 0) :
    0 < b.whole :=
  Nat.mul_pos (Nat.div_pos (Nat.le_of_dvd h (Nat.dvd_of_mod_eq_zero hmod)) (Nat.two_pow_pos _))
    (Nat.two_pow_pos _)

end Binary

theorem unpack_neg {x : Float} {m : Nat} {e : Int} {h : 0 < m} (hm : m.log2 = 52)
    (he : -1074 ≤ e) (he' : e ≤ 971) (hx : x.toModel.unpack = .finite .positive m e h) :
    x.neg.toModel.unpack = .finite .negative m e h := by
  change unpack .binary64 (pack .binary64 x.toModel.unpack.neg) = _
  rw [hx]
  exact unpack_pack_finite h hm he he' .negative

theorem ofInt_neg_natCast {n : Nat} (h : 0 < n) :
    Float.ofInt (-(n : Int)) = (Float.ofNat n).neg := by
  obtain ⟨k, rfl⟩ := Nat.exists_eq_succ_of_ne_zero (Nat.ne_of_gt h)
  rfl

/-- A float that stands for a whole number is the float of that number, unless it is the negative
zero. -/
theorem ofInt_of_toInt? {x : Float} {n : Int} (h : (Binary.ofFloat? x).bind Binary.toInt? = some n)
    (hx : x ≠ -0.0) : Float.ofInt n = x := by
  obtain ⟨b, hb, hn⟩ := Option.bind_eq_some_iff.1 h
  obtain ⟨hmod, rfl⟩ := Binary.eq_of_toInt? hn
  apply unpack_inj
  obtain hzero | hpos := Nat.eq_zero_or_pos b.mantissa
  · have hunpack := Binary.unpack_of_zero hb hzero
    have hwhole : b.whole = 0 := by rw [Binary.whole, hzero, Nat.zero_div, Nat.zero_mul]
    have hsign : b.negative = false := by
      by_contra hneg
      refine hx (unpack_inj ?_)
      rw [hunpack, Binary.sign, if_pos (by simpa using hneg)]
      rfl
    rw [hunpack, hwhole, Binary.sign, hsign]
    rfl
  · obtain ⟨hunpack, ⟨he, hlt⟩ | ⟨hm, hlow, hhigh⟩⟩ := Binary.unpack_of_ofFloat? hb hpos
    · have hbig : b.mantissa < 2 ^ (-b.exponent).toNat :=
        Nat.lt_trans hlt (he ▸ Nat.pow_lt_pow_right (by omega) (by decide))
      rw [Nat.mod_eq_of_lt hbig] at hmod
      omega
    · have hsize := Binary.unpack_ofNat_whole hpos hm hhigh hmod
      rw [hunpack, Binary.sign]
      split
      · rw [ofInt_neg_natCast (Binary.whole_pos hpos hmod)]
        exact unpack_neg hm hlow hhigh hsize
      · exact hsize

end ColorGraph
