import ColorGraph.Decimal.Shortest
import ColorGraph.Proofs.FloatOperations
/-!
The figures that a float is written with. Main statements: some multiple of a power of ten reads
back as soon as seventeen figures are allowed, so that the fewest figures are seventeen at most and
read back; and no float is written as more than the greatest one is.
-/

set_option autoImplicit false

namespace ColorGraph

attribute [local instance (2000)] instPowNat

theorem zpow_mul_toNat {r : ℚ} (hr : r ≠ 0) (i : Int) :
    r ^ i * r ^ (-i).toNat = r ^ i.toNat := by
  have hsum : i + ((-i).toNat : Int) = (i.toNat : Int) := by omega
  rw [← zpow_natCast, ← zpow_add₀ hr, hsum, zpow_natCast]

namespace Binary

def size (b : Binary) : ℚ :=
  b.mantissa * 2 ^ b.exponent

theorem size_eq_ratio (b : Binary) (e : Int) :
    b.size = ((b.ratio e).1 : ℚ) / (b.ratio e).2 * 10 ^ e := by
  have htwo := zpow_mul_toNat (r := 2) two_ne_zero b.exponent
  have hten := zpow_mul_toNat (r := 10) (by norm_num) (-e)
  rw [neg_neg, zpow_neg] at hten
  rw [ratio, size]
  push_cast
  rw [← htwo, ← hten]
  field_simp

theorem isBelow_iff {b : Binary} {e : Int} : b.isBelow e = true ↔ b.size < 10 ^ e := by
  have hden : (0 : ℚ) < (b.ratio e).2 := Nat.cast_pos.2 (b.ratio_den_pos e)
  have hten : (0 : ℚ) < 10 ^ e := zpow_pos (by norm_num) e
  rw [isBelow, decide_eq_true_eq, ← Nat.cast_lt (α := ℚ), size_eq_ratio b e,
    mul_lt_iff_lt_one_left hten, div_lt_one hden]

theorem floor_spec (b : Binary) (e : Int) :
    ((b.ratio e).1 / (b.ratio e).2 : Nat) * (10 : ℚ) ^ e ≤ b.size ∧
      b.size < (((b.ratio e).1 / (b.ratio e).2 + 1 : Nat) : ℚ) * 10 ^ e := by
  have hden : (0 : ℚ) < (b.ratio e).2 := Nat.cast_pos.2 (b.ratio_den_pos e)
  have hten : (0 : ℚ) < 10 ^ e := zpow_pos (by norm_num) e
  have hhigh : (b.ratio e).1 < ((b.ratio e).1 / (b.ratio e).2 + 1) * (b.ratio e).2 :=
    Nat.lt_mul_of_div_lt (Nat.lt_succ_self _) (b.ratio_den_pos e)
  rw [size_eq_ratio b e]
  refine ⟨mul_le_mul_of_nonneg_right Nat.cast_div_le hten.le, mul_lt_mul_of_pos_right ?_ hten⟩
  rw [div_lt_iff₀ hden]
  exact_mod_cast hhigh

theorem ten_pow_bounds : (10 : ℚ) ^ 1233 ≤ 2 ^ 4096 ∧ (2 : ℚ) ^ 4096 ≤ 10 ^ 1234 := by
  have hpow : 10 ^ 1233 ≤ 2 ^ 4096 ∧ 2 ^ 4096 ≤ 10 ^ 1234 := by decide +kernel
  exact_mod_cast hpow

theorem two_zpow_bounds (j : Int) :
    (10 : ℚ) ^ min (1233 * j) (1234 * j) ≤ (2 ^ j) ^ 4096 ∧
      ((2 : ℚ) ^ j) ^ 4096 ≤ 10 ^ max (1233 * j) (1234 * j) := by
  obtain ⟨hlow, hhigh⟩ := ten_pow_bounds
  have hnat : ∀ n : Nat, (10 : ℚ) ^ (1233 * n) ≤ (2 ^ n) ^ 4096 ∧
      ((2 : ℚ) ^ n) ^ 4096 ≤ 10 ^ (1234 * n) := by
    intro n
    rw [pow_mul, pow_mul, pow_right_comm (2 : ℚ) n 4096]
    exact ⟨pow_le_pow_left₀ (by positivity) hlow n, pow_le_pow_left₀ (by positivity) hhigh n⟩
  obtain ⟨n, rfl | rfl⟩ := j.eq_nat_or_neg
  · obtain ⟨hfloor, hceil⟩ := hnat n
    rw [min_eq_left (by omega), max_eq_right (by omega), zpow_natCast]
    exact_mod_cast And.intro hfloor hceil
  · obtain ⟨hfloor, hceil⟩ := hnat n
    have hneg : ∀ i : Int, i * -(n : Int) = -(i * n) := fun i => Int.mul_neg i n
    rw [min_eq_right (by omega), max_eq_left (by omega), hneg, hneg, zpow_neg, zpow_neg, zpow_neg,
      zpow_natCast, inv_pow]
    refine ⟨inv_anti₀ (by positivity) ?_, inv_anti₀ (by positivity) ?_⟩
    · exact_mod_cast hceil
    · exact_mod_cast hfloor

/-- The powers of ten around a power of two that floats have, by the binary logarithm times
`log 2`. -/
theorem power_estimate {l k : Int} (hlow : -1074 ≤ l) (hhigh : l ≤ 1023)
    (hk : k = (l * 1233).fdiv 4096) :
    (10 : ℚ) ^ (k - 1) ≤ 2 ^ l ∧ (2 : ℚ) ^ (l + 1) < 10 ^ (k + 2) := by
  rw [Int.fdiv_eq_ediv_of_nonneg _ (by decide)] at hk
  have hpow : ∀ i : Int, ((10 : ℚ) ^ i) ^ 4096 = 10 ^ (4096 * i) := fun i => by
    rw [← zpow_natCast, ← zpow_mul, mul_comm, Nat.cast_ofNat]
  constructor
  · refine le_of_pow_le_pow_left₀ (n := 4096) (by decide) (zpow_pos two_pos l).le ?_
    refine le_trans ?_ (two_zpow_bounds l).1
    rw [hpow]
    exact zpow_le_zpow_right₀ (by norm_num) (by omega)
  · refine lt_of_pow_lt_pow_left₀ 4096 (zpow_pos (by norm_num) _).le ?_
    refine (two_zpow_bounds (l + 1)).2.trans_lt ?_
    rw [hpow]
    exact zpow_lt_zpow_right₀ (by norm_num) (by omega)

def IsFloat (b : Binary) : Prop :=
  Float.Model.UnpackedFloat.Canonical b.mantissa b.exponent

theorem isFloat_of_ofFloat? {x : Float} {b : Binary} (h : ofFloat? x = some b) : b.IsFloat := by
  have hlt := (Float.Model.UnpackedFloat.unpackMantissa (bits x)).isLt
  change _ < 2 ^ 52 at hlt
  obtain ⟨-, ⟨-, hmant, htiny⟩ | ⟨-, hlow, hhigh, hmant⟩⟩ := fields_of_ofFloat? h
  · exact ⟨by omega, htiny.ge, by omega, .inr htiny⟩
  · exact ⟨by omega, hlow, hhigh, .inl (by omega)⟩

theorem exists_ofFloat? {x : Float} (hx : x.isFinite = true) : ∃ b, ofFloat? x = some b := by
  have hexponent := toNat_unpackExponent x
  unfold ofFloat?
  dsimp only
  split
  next hfield =>
    have hinf : Float.Model.UnpackedFloat.unpackExponent (bits x) = -1#11 :=
      BitVec.eq_of_toNat_eq (hexponent.trans hfield)
    change (Float.Model.UnpackedFloat.unpack .binary64 (bits x)).isFinite = true at hx
    rw [Float.Model.UnpackedFloat.unpack.eq_1] at hx
    dsimp only at hx
    rw [if_pos hinf] at hx
    split at hx <;> cases hx
  · split <;> exact ⟨_, rfl⟩

theorem isFinite_of_ofFloat? {x : Float} {b : Binary} (h : ofFloat? x = some b) :
    x.isFinite = true := by
  change x.toModel.unpack.isFinite = true
  rcases Nat.eq_zero_or_pos b.mantissa with hzero | hpos
  · rw [unpack_of_zero h hzero]
    rfl
  · rw [(unpack_of_ofFloat? h hpos).1]
    rfl

theorem magnitude_bounds {b : Binary} (hb : b.IsFloat) (hpos : 0 < b.mantissa) :
    -400 ≤ b.magnitude ∧ b.magnitude ≤ 400 := by
  have hlog : b.mantissa.log2 < 53 := (Nat.log2_lt (Nat.ne_of_gt hpos)).2 hb.short
  have hlow := hb.low
  have hhigh := hb.high
  unfold magnitude
  dsimp only
  rw [Int.fdiv_eq_ediv_of_nonneg _ (by decide)]
  split
  · omega
  split <;> omega

theorem magnitude_spec {b : Binary} (hb : b.IsFloat) (hpos : 0 < b.mantissa) :
    (10 : ℚ) ^ (b.magnitude - 1) ≤ b.size ∧ b.size < 10 ^ b.magnitude := by
  have hlow : 2 ^ b.mantissa.log2 ≤ b.mantissa := Nat.log2_self_le (Nat.ne_of_gt hpos)
  have hhigh : b.mantissa < 2 ^ (b.mantissa.log2 + 1) := Nat.lt_log2_self
  have hlog : b.mantissa.log2 < 53 := (Nat.log2_lt (Nat.ne_of_gt hpos)).2 hb.short
  have htwo : (0 : ℚ) < 2 ^ b.exponent := zpow_pos two_pos _
  have hfloor : (2 : ℚ) ^ (b.mantissa.log2 + b.exponent) ≤ b.size := by
    rw [zpow_add₀ two_ne_zero, zpow_natCast, size]
    exact mul_le_mul_of_nonneg_right (by exact_mod_cast hlow) htwo.le
  have hceil : b.size < (2 : ℚ) ^ (b.mantissa.log2 + b.exponent + 1) := by
    have hsum : (b.mantissa.log2 : Int) + b.exponent + 1 =
        ((b.mantissa.log2 + 1 : Nat) : Int) + b.exponent := by omega
    rw [hsum, zpow_add₀ two_ne_zero, zpow_natCast, size]
    exact mul_lt_mul_of_pos_right (by exact_mod_cast hhigh) htwo
  have hexp := hb.low
  have hexp' := hb.high
  obtain ⟨hbelow, habove⟩ := power_estimate (l := b.mantissa.log2 + b.exponent) (by omega)
    (by omega) rfl
  unfold magnitude
  dsimp only
  split
  next h => exact ⟨hbelow.trans hfloor, isBelow_iff.1 h⟩
  next h =>
    rw [isBelow_iff, not_lt] at h
    split
    next h' =>
      refine ⟨?_, isBelow_iff.1 h'⟩
      rwa [add_sub_cancel_right]
    next h' =>
      rw [isBelow_iff, not_lt] at h'
      refine ⟨?_, hceil.trans habove⟩
      rwa [add_sub_assoc]

end Binary

namespace Decimal

def size (d : Decimal) : ℚ :=
  d.digits * 10 ^ d.exponent

section

variable {a n : Nat} {i j : Int}

theorem scaled_mul (a n : Nat) (i j : Int) :
    ((a * 10 ^ i.toNat * 2 ^ (-j).toNat : Nat) : ℚ) =
        (a : ℚ) * 10 ^ i * (10 ^ (-i).toNat * 2 ^ (-j).toNat) ∧
      ((n * 2 ^ j.toNat * 10 ^ (-i).toNat : Nat) : ℚ) =
        (n : ℚ) * 2 ^ j * (10 ^ (-i).toNat * 2 ^ (-j).toNat) := by
  have hten := zpow_mul_toNat (r := 10) (by norm_num) i
  have htwo := zpow_mul_toNat (r := 2) two_ne_zero j
  push_cast
  rw [← hten, ← htwo]
  constructor <;> ring

theorem scaled_pos (i j : Int) : (0 : ℚ) < 10 ^ (-i).toNat * 2 ^ (-j).toNat := by
  positivity

theorem compareScaled_eq_lt : compareScaled a i n j = .lt ↔ (a : ℚ) * 10 ^ i < n * 2 ^ j := by
  obtain ⟨hleft, hright⟩ := scaled_mul a n i j
  rw [compareScaled, Nat.compare_eq_lt, ← Nat.cast_lt (α := ℚ), hleft, hright,
    mul_lt_mul_iff_left₀ (scaled_pos i j)]

theorem compareScaled_eq_eq : compareScaled a i n j = .eq ↔ (a : ℚ) * 10 ^ i = n * 2 ^ j := by
  obtain ⟨hleft, hright⟩ := scaled_mul a n i j
  rw [compareScaled, Nat.compare_eq_eq, ← Nat.cast_inj (R := ℚ), hleft, hright,
    mul_left_inj' (scaled_pos i j).ne']

theorem compareScaled_eq_gt : compareScaled a i n j = .gt ↔ (n : ℚ) * 2 ^ j < a * 10 ^ i := by
  obtain ⟨hleft, hright⟩ := scaled_mul a n i j
  rw [compareScaled, Nat.compare_eq_gt, ← Nat.cast_lt (α := ℚ), hleft, hright,
    mul_lt_mul_iff_left₀ (scaled_pos i j)]

end

def below (b : Binary) : Nat :=
  4 * b.mantissa - if b.isNarrowBelow then 1 else 2

def above (b : Binary) : Nat :=
  4 * b.mantissa + 2

variable {b : Binary} {d : Decimal} {e : Int} {tie : Tie}

theorem lt_or_eq_iff {x y : ℚ} {p : Prop} : (x < y ∨ p ∧ x = y) ↔ x ≤ y ∧ (x = y → p) := by
  rw [le_iff_lt_or_eq]
  constructor
  · rintro (hlt | ⟨hp, heq⟩)
    · exact ⟨.inl hlt, fun heq => absurd heq hlt.ne⟩
    · exact ⟨.inr heq, fun _ => hp⟩
  · rintro ⟨hlt | heq, hp⟩
    · exact .inl hlt
    · exact .inr ⟨hp heq, heq⟩

/-- Read back are the values up to halfway to each neighbour, the ends only by an even mantissa. -/
theorem readsBack_iff : readsBack b d = true ↔
    ((below b : ℚ) * 2 ^ (b.exponent - 2) ≤ d.size ∧
      (below b * 2 ^ (b.exponent - 2) = d.size → b.mantissa % 2 = 0)) ∧
    d.size ≤ above b * 2 ^ (b.exponent - 2) ∧
      (d.size = above b * 2 ^ (b.exponent - 2) → b.mantissa % 2 = 0) := by
  have hlow : below b * 2 ^ (b.exponent - 2) = d.size ↔
      compareScaled d.digits d.exponent (below b) (b.exponent - 2) = .eq :=
    eq_comm.trans compareScaled_eq_eq.symm
  rw [← lt_or_eq_iff, ← lt_or_eq_iff, hlow, size, ← compareScaled_eq_lt, ← compareScaled_eq_eq,
    ← compareScaled_eq_gt]
  simp [readsBack, below, above]

theorem readsBack_of_between (hlow : (below b : ℚ) * 2 ^ (b.exponent - 2) < d.size)
    (hhigh : d.size < above b * 2 ^ (b.exponent - 2)) : readsBack b d = true :=
  readsBack_iff.2 ⟨⟨hlow.le, fun heq => absurd heq hlow.ne⟩, hhigh.le, fun heq => absurd heq hhigh.ne⟩

theorem size_eq_quarters (b : Binary) :
    b.size = (4 * b.mantissa : Nat) * 2 ^ (b.exponent - 2) := by
  have hexp : b.exponent = 2 + (b.exponent - 2) := by omega
  rw [Binary.size]
  nth_rewrite 1 [hexp]
  rw [zpow_add₀ two_ne_zero]
  push_cast
  ring

theorem size_between_halves (hpos : 0 < b.mantissa) :
    (below b : ℚ) * 2 ^ (b.exponent - 2) < b.size ∧
      b.size < above b * 2 ^ (b.exponent - 2) := by
  have hquarter : (0 : ℚ) < 2 ^ (b.exponent - 2) := zpow_pos two_pos _
  have hbelow : below b < 4 * b.mantissa := by
    unfold below
    split <;> omega
  have habove : 4 * b.mantissa < above b := by
    unfold above
    omega
  rw [size_eq_quarters]
  exact ⟨mul_lt_mul_of_pos_right (Nat.cast_lt.2 hbelow) hquarter,
    mul_lt_mul_of_pos_right (Nat.cast_lt.2 habove) hquarter⟩

theorem onGrid_eq_none (h : onGrid tie b e = none) :
    readsBack b ⟨(b.ratio e).1 / (b.ratio e).2, e⟩ = false ∧
      readsBack b ⟨(b.ratio e).1 / (b.ratio e).2 + 1, e⟩ = false := by
  unfold onGrid at h
  dsimp only at h
  split at h
  · cases h
  · cases h
  next hlow hhigh => exact ⟨hlow, hhigh⟩
  · split at h <;> cases h

theorem exists_gap (hb : b.IsFloat) (hpos : 0 < b.mantissa) :
    ∃ n, above b = below b + n ∧ 4 * b.mantissa < 2 ^ 53 * n := by
  have hshort := hb.short
  by_cases hnarrow : b.isNarrowBelow = true
  · have hmantissa := (Binary.isNarrowBelow_iff.1 hnarrow).1
    refine ⟨3, ?_, by omega⟩
    rw [above, below, if_pos hnarrow]
    omega
  · refine ⟨4, ?_, by omega⟩
    rw [above, below, if_neg hnarrow]
    omega

/-- Where multiples of a power of ten are closer than floats, one of them reads back. -/
theorem isSome_onGrid (hb : b.IsFloat) (hpos : 0 < b.mantissa)
    (h : (10 : ℚ) ^ 16 * 10 ^ e ≤ b.size) : (onGrid tie b e).isSome = true := by
  have hquarter : (0 : ℚ) < 2 ^ (b.exponent - 2) := zpow_pos two_pos _
  obtain ⟨hfloor, hceil⟩ := b.floor_spec e
  obtain ⟨hbelow, habove⟩ := size_between_halves hpos
  obtain ⟨n, hgap, hn⟩ := exists_gap hb hpos
  rw [Option.isSome_iff_ne_none]
  intro hnone
  obtain ⟨hlow, hhigh⟩ := onGrid_eq_none hnone
  rw [Bool.eq_false_iff] at hlow hhigh
  have hlow' : ((b.ratio e).1 / (b.ratio e).2 : Nat) * (10 : ℚ) ^ e ≤
      below b * 2 ^ (b.exponent - 2) :=
    not_lt.1 fun hlt => hlow (readsBack_of_between hlt (hfloor.trans_lt habove))
  have hhigh' : above b * 2 ^ (b.exponent - 2) ≤
      (((b.ratio e).1 / (b.ratio e).2 + 1 : Nat) : ℚ) * 10 ^ e :=
    not_lt.1 fun hlt => hhigh (readsBack_of_between (hbelow.trans hceil) hlt)
  have hstep : (n : ℚ) * 2 ^ (b.exponent - 2) ≤ 10 ^ e := by
    rw [hgap] at hhigh'
    push_cast at hhigh'
    linarith
  have hsize : b.size < 2 ^ 53 * (n * 2 ^ (b.exponent - 2)) := by
    rw [size_eq_quarters, ← mul_assoc]
    exact mul_lt_mul_of_pos_right (by exact_mod_cast hn) hquarter
  have hpos' : (0 : ℚ) < 10 ^ e := zpow_pos (by norm_num) e
  linarith

theorem floor_bounds (hb : b.IsFloat) (hpos : 0 < b.mantissa) (i : Nat) :
    10 ^ i ≤ (b.ratio (b.magnitude - 1 - i)).1 / (b.ratio (b.magnitude - 1 - i)).2 ∧
      (b.ratio (b.magnitude - 1 - i)).1 / (b.ratio (b.magnitude - 1 - i)).2 < 10 ^ (i + 1) := by
  obtain ⟨hlow, hhigh⟩ := Binary.magnitude_spec hb hpos
  obtain ⟨hfloor, hceil⟩ := b.floor_spec (b.magnitude - 1 - i)
  have hten : (0 : ℚ) < 10 ^ (b.magnitude - 1 - i) := zpow_pos (by norm_num) _
  have hfirst : (10 : ℚ) ^ (b.magnitude - 1) = (10 ^ i : Nat) * 10 ^ (b.magnitude - 1 - i) := by
    rw [Nat.cast_pow, ← zpow_natCast, Nat.cast_ofNat, ← zpow_add₀ (by norm_num)]
    congr 1
    omega
  have hnext : (10 : ℚ) ^ b.magnitude = (10 ^ (i + 1) : Nat) * 10 ^ (b.magnitude - 1 - i) := by
    rw [Nat.cast_pow, ← zpow_natCast, Nat.cast_ofNat, ← zpow_add₀ (by norm_num)]
    congr 1
    omega
  rw [hfirst] at hlow
  rw [hnext] at hhigh
  have hlow' := lt_of_mul_lt_mul_right (hlow.trans_lt hceil) hten.le
  have hhigh' := lt_of_mul_lt_mul_right (hfloor.trans_lt hhigh) hten.le
  exact ⟨Nat.le_of_lt_succ (Nat.cast_lt.1 hlow'), Nat.cast_lt.1 hhigh'⟩

/-- Seventeen figures always read back, so that the fewest that do are no more. -/
theorem shortest_spec (tie : Tie) (hb : b.IsFloat) (hpos : 0 < b.mantissa) :
    ∃ i ≤ 16, (shortest tie b).exponent = b.magnitude - 1 - (i : Nat) ∧
      readsBack b (shortest tie b) = true ∧ 10 ^ i ≤ (shortest tie b).digits ∧
      (shortest tie b).digits ≤ 10 ^ (i + 1) := by
  have hseventeen : (onGrid tie b (b.magnitude - 1 - (16 : Nat))).isSome = true := by
    have hten : (0 : ℚ) < 10 ^ (b.magnitude - 1 - (16 : Nat)) := zpow_pos (by norm_num) _
    have hfigures : (10 : ℚ) ^ 16 ≤ ((b.ratio (b.magnitude - 1 - (16 : Nat))).1 /
        (b.ratio (b.magnitude - 1 - (16 : Nat))).2 : Nat) := by
      exact_mod_cast (floor_bounds hb hpos 16).1
    exact isSome_onGrid hb hpos
      ((mul_le_mul_of_nonneg_right hfigures hten.le).trans (b.floor_spec _).1)
  have hfound : ((List.range 17).findSome? fun (i : Nat) =>
      onGrid tie b (b.magnitude - 1 - i)).isSome = true :=
    List.findSome?_isSome_iff.2 ⟨16, by decide, hseventeen⟩
  obtain ⟨d, hd⟩ := Option.isSome_iff_exists.1 hfound
  have hshortest : shortest tie b = d := by
    rw [shortest, if_neg (Nat.ne_of_gt hpos)]
    dsimp only
    rw [hd, Option.getD_some]
  obtain ⟨i, hi, hgrid⟩ := List.exists_of_findSome?_eq_some hd
  obtain ⟨hreads, hneighbour⟩ := eq_or_eq_of_onGrid hgrid
  obtain ⟨hlow, hhigh⟩ := floor_bounds hb hpos i
  have hi' := List.mem_range.1 hi
  rw [hshortest]
  refine ⟨i, by omega, ?_, hreads, ?_⟩
  · rcases hneighbour with rfl | rfl <;> rfl
  · rcases hneighbour with rfl | rfl <;> dsimp only <;> omega

def greatest : Decimal :=
  ⟨17976931348623157, 292⟩

theorem shortest_greatest (tie : Tie) (negative : Bool) :
    shortest tie ⟨negative, 2 ^ 53 - 1, 971⟩ = greatest := by
  cases tie <;> cases negative <;> decide +kernel

theorem above_le_greatest (hb : b.IsFloat) (h : ¬ (b.mantissa = 2 ^ 53 - 1 ∧ b.exponent = 971)) :
    (above b : ℚ) * 2 ^ (b.exponent - 2) ≤ greatest.size := by
  have hshort := hb.short
  have hhigh := hb.high
  have hten : (10 : ℚ) ^ (292 : Int) = ((10 ^ 292 : Nat) : ℚ) := by
    rw [Nat.cast_pow]
    exact zpow_natCast 10 292
  have htwo : (2 : ℚ) ^ (969 : Int) = ((2 ^ 969 : Nat) : ℚ) := by
    rw [Nat.cast_pow]
    exact zpow_natCast 2 969
  have hgreatest : ((2 ^ 55 - 6 : Nat) : ℚ) * 2 ^ (969 : Int) ≤ greatest.size := by
    rw [size, greatest, hten, htwo, ← Nat.cast_mul, ← Nat.cast_mul]
    exact Nat.cast_le.2 (by decide +kernel)
  refine le_trans ?_ hgreatest
  by_cases hmax : b.exponent = 971
  · have habove : above b ≤ 2 ^ 55 - 6 := by
      rw [above]
      omega
    rw [hmax]
    exact mul_le_mul_of_nonneg_right (Nat.cast_le.2 habove) (zpow_pos two_pos _).le
  · have habove : above b ≤ (2 ^ 55 - 6) * 2 := by
      rw [above]
      omega
    have hpow : (2 : ℚ) * 2 ^ (b.exponent - 2) ≤ 2 ^ (969 : Int) := by
      rw [← zpow_one_add₀ two_ne_zero]
      exact zpow_le_zpow_right₀ one_le_two (by omega)
    calc (above b : ℚ) * 2 ^ (b.exponent - 2)
        ≤ ((2 ^ 55 - 6) * 2 : Nat) * 2 ^ (b.exponent - 2) :=
          mul_le_mul_of_nonneg_right (Nat.cast_le.2 habove) (zpow_pos two_pos _).le
      _ = (2 ^ 55 - 6 : Nat) * (2 * 2 ^ (b.exponent - 2)) := by rw [Nat.cast_mul]; ring
      _ ≤ (2 ^ 55 - 6 : Nat) * 2 ^ (969 : Int) :=
          mul_le_mul_of_nonneg_left hpow (Nat.cast_nonneg _)

theorem size_shortest_le (tie : Tie) (hb : b.IsFloat) (hpos : 0 < b.mantissa) :
    (shortest tie b).size ≤ greatest.size := by
  by_cases hmax : b.mantissa = 2 ^ 53 - 1 ∧ b.exponent = 971
  · obtain ⟨negative, mantissa, exponent⟩ := b
    obtain ⟨rfl, rfl⟩ := hmax
    rw [shortest_greatest]
  · obtain ⟨i, -, -, hreads, -⟩ := shortest_spec tie hb hpos
    exact (readsBack_iff.1 hreads).2.1.trans (above_le_greatest hb hmax)

end Decimal
end ColorGraph
