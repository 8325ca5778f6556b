import ColorGraph.Proofs.FloatOperations
/-!
The order of floats. Main statement: finite floats are compared as their values are.
-/

set_option autoImplicit false

namespace Float.Model.UnpackedFloat

open Format ColorGraph

attribute [local instance (2000)] instPowNat

variable {m : Nat} {e : Int}

theorem Canonical.lt_of_lt {m' : Nat} {e' : Int} (h : Canonical m e) (h' : Canonical m' e')
    (he : e < e') : (m : ℚ) * 2 ^ e < m' * 2 ^ e' := by
  have hlow := h.low
  have hfull : ((2 ^ 52 : Nat) : ℚ) ≤ m' := Nat.cast_le.2 (h'.full.resolve_right (by omega))
  push_cast at hfull
  exact (h.representable.lt_of_lt he).trans_le
    (mul_le_mul_of_nonneg_right hfull (zpow_pos two_pos _).le)

theorem compare_magnitudes {m' : Nat} {e' : Int} (h : Canonical m e) (h' : Canonical m' e') :
    (compare e e').then (compare m m') = cmp ((m : ℚ) * 2 ^ e) (m' * 2 ^ e') := by
  have hpow : (0 : ℚ) < 2 ^ e := zpow_pos two_pos e
  rcases lt_trichotomy e e' with he | rfl | he
  · rw [Int.compare_eq_lt.2 he, (cmp_eq_lt_iff _ _).2 (h.lt_of_lt h' he)]
    rfl
  · rw [Int.compare_eq_eq.2 rfl]
    rcases lt_trichotomy m m' with hm | rfl | hm
    · rw [Nat.compare_eq_lt.2 hm, (cmp_eq_lt_iff _ _).2]
      · rfl
      · exact mul_lt_mul_of_pos_right (Nat.cast_lt.2 hm) hpow
    · rw [Nat.compare_eq_eq.2 rfl, cmp_self_eq_eq]
      rfl
    · rw [Nat.compare_eq_gt.2 hm, (cmp_eq_gt_iff _ _).2]
      · rfl
      · exact mul_lt_mul_of_pos_right (Nat.cast_lt.2 hm) hpow
  · rw [Int.compare_eq_gt.2 he, (cmp_eq_gt_iff _ _).2 (h'.lt_of_lt h he)]
    rfl

theorem cmp_neg_neg (q r : ℚ) : cmp (-q) (-r) = (cmp q r).swap := by
  rw [cmp_swap]
  rcases lt_trichotomy q r with h | rfl | h
  · rw [(cmp_eq_gt_iff _ _).2 (neg_lt_neg h), (cmp_eq_gt_iff _ _).2 h]
  · rw [cmp_self_eq_eq, cmp_self_eq_eq]
  · rw [(cmp_eq_lt_iff _ _).2 (neg_lt_neg h), (cmp_eq_lt_iff _ _).2 h]

theorem compare_eq_cmp {a b : BitVec binary64.numBits} (ha : (unpack binary64 a).isFinite = true)
    (hb : (unpack binary64 b).isFinite = true) :
    (unpack binary64 a).compare (unpack binary64 b) =
      some (cmp (unpack binary64 a).value (unpack binary64 b).value) := by
  have hpos : ∀ {m : Nat} (_ : 0 < m) (e : Int), (0 : ℚ) < m * 2 ^ e := fun h e =>
    mul_pos (Nat.cast_pos.2 h) (zpow_pos two_pos e)
  obtain ⟨s, hua⟩ | ⟨s, n, f, h, hua⟩ := zero_or_finite ha <;>
    obtain ⟨s', hub⟩ | ⟨s', n', f', h', hub⟩ := zero_or_finite hb <;>
    rw [hua, hub]
  · rw [value_zero, value_zero, cmp_self_eq_eq]
    rfl
  · have hn := hpos h' f'
    rw [value_zero, value_finite]
    cases s' with
    | negative => exact congrArg some ((cmp_eq_gt_iff _ _).2 (neg_lt_zero.2 hn)).symm
    | positive => exact congrArg some ((cmp_eq_lt_iff _ _).2 hn).symm
  · have hn := hpos h f
    rw [value_zero, value_finite]
    cases s with
    | negative => exact congrArg some ((cmp_eq_lt_iff _ _).2 (neg_lt_zero.2 hn)).symm
    | positive => exact congrArg some ((cmp_eq_gt_iff _ _).2 hn).symm
  · have hn := hpos h f
    have hn' := hpos h' f'
    have hmagnitudes := compare_magnitudes (canonical_of_unpack hua) (canonical_of_unpack hub)
    rw [value_finite, value_finite]
    cases s <;> cases s'
    · simp only [UnpackedFloat.compare, Sign.of, hmagnitudes, cmp_neg_neg]
    · have hlt : -((n : ℚ) * 2 ^ f) < n' * 2 ^ f' := (neg_lt_zero.2 hn).trans hn'
      exact congrArg some ((cmp_eq_lt_iff _ _).2 hlt).symm
    · have hlt : -((n' : ℚ) * 2 ^ f') < n * 2 ^ f := (neg_lt_zero.2 hn').trans hn
      exact congrArg some ((cmp_eq_gt_iff _ _).2 hlt).symm
    · simp only [UnpackedFloat.compare, Sign.of, hmagnitudes]

end Float.Model.UnpackedFloat

namespace ColorGraph

open Float.Model Float.Model.UnpackedFloat

theorem eq_of_not_finite {x : Float} (h : ¬ x.isFinite = true) :
    x = Decimal.infinity ∨ x = -Decimal.infinity ∨ x = notANumber := by
  change ¬ x.toModel.unpack.isFinite = true at h
  cases hu : x.toModel.unpack with
  | infinity s =>
    cases s with
    | positive => exact .inl (unpack_inj hu)
    | negative => exact .inr (.inl (unpack_inj hu))
  | notANumber => exact .inr (.inr (unpack_inj hu))
  | _ => exact absurd (by rw [hu]; rfl) h

variable {x y : Float} (hx : x.isFinite = true) (hy : y.isFinite = true)

include hx hy

theorem lt_iff : x < y ↔ exactValue x < exactValue y := by
  have hcompare := compare_eq_cmp hx hy
  change decide ((_ == some Ordering.lt) = true) = true ↔ _
  rw [decide_eq_true_eq, beq_iff_eq]
  exact (congrArg (· = some .lt) hcompare).to_iff.trans
    ((Option.some_inj).trans (cmp_eq_lt_iff _ _))

theorem le_iff : x ≤ y ↔ exactValue x ≤ exactValue y := by
  have hcompare := congrArg (fun o : Option Ordering => o.any (·.isLE)) (compare_eq_cmp hx hy)
  have hle : ∀ q r : ℚ, (cmp q r).isLE = true ↔ q ≤ r := by
    intro q r
    rw [← not_lt, ← cmp_eq_gt_iff]
    cases cmp q r <;> simp
  change decide ((Option.any _ _) = true) = true ↔ _
  rw [decide_eq_true_eq]
  exact (congrArg (· = true) hcompare).to_iff.trans (hle _ _)

theorem beq_iff : (x == y) = true ↔ exactValue x = exactValue y := by
  have hcompare := compare_eq_cmp hx hy
  change ((_ == some Ordering.eq) = true) ↔ _
  rw [beq_iff_eq]
  exact (congrArg (· = some .eq) hcompare).to_iff.trans
    ((Option.some_inj).trans (cmp_eq_eq_iff _ _))

end ColorGraph
