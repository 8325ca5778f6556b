import ColorGraph.Proofs.JsonText
import ColorGraph.Proofs.SeventeenFigures
/-!
The text of floats in JSON. Main statement: the text of every finite float is read as a number. What
it is read as may be another number than the one that was written, but it is never refused: the text
has the form of a number, and no scaling on the way is to a float that is too large.
-/

set_option autoImplicit false

namespace ColorGraph.Json

open Decimal Float.Model.UnpackedFloat

namespace Numeral

attribute [local instance (2000)] instPowNat

section Scale

variable {n p m : Nat} {E : Int}

/-- A significand is scaled to a float when its product with a power of ten, both rounded, is not
beyond all floats. -/
theorem isSome_scale_of_le {r : ℚ} (hp : p ≤ 308) (hm : Representable m E)
    (hn : (n : ℚ) ≤ m * 2 ^ E) (hpow : exactSize (Float.ofScientific 1 false p) ≤ r)
    (hmax : (m : ℚ) * 2 ^ E * r ≤ (2 ^ 53 - 1 : Nat) * 2 ^ (971 : Int)) :
    (scale (Float.ofNat n) p).isSome = true := by
  have hzero : ∀ {r : ℚ}, 0 ≤ r → ((0 : Nat) : ℚ) * 2 ^ (0 : Int) ≤ r := fun h => by
    rwa [Nat.cast_zero, zero_mul]
  have hfloat := within_ofNat representable_zero hm (hzero (Nat.cast_nonneg n)) hn
  have hproduct : exactSize (Float.ofNat n) * exactSize (Float.ofScientific 1 false p) ≤
      (2 ^ 53 - 1 : Nat) * 2 ^ (971 : Int) :=
    (mul_le_mul hfloat.high hpow (size_nonneg _) ((size_nonneg _).trans hfloat.high)).trans hmax
  have hwithin := within_mul hfloat.finite (powerOfTen_spec hp).1 representable_zero
    representable_max (hzero (mul_nonneg (size_nonneg _) (size_nonneg _))) hproduct
  have hinf := isInf_of_finite hwithin.finite
  have hpower : ¬ (308 : Int) < p := by omega
  simp only [scale, Int.natCast_nonneg, if_true, if_neg hpower, Int.toNat_natCast, hinf]
  rfl

theorem exactSize_powerOfTen_le (hp : p ≤ 291) :
    exactSize (Float.ofScientific 1 false p) ≤ (1 : Nat) * 2 ^ (967 : Int) := by
  have hlow : ((0 : Nat) : ℚ) * 2 ^ (0 : Int) ≤ (1 : Nat) * 10 ^ p := by
    rw [Nat.cast_zero, zero_mul]
    positivity
  have hhigh : ((1 : Nat) : ℚ) * 10 ^ p ≤ (1 : Nat) * 2 ^ (967 : Int) := by
    have hle : 10 ^ p ≤ 2 ^ 967 :=
      (Nat.pow_le_pow_right (by decide) hp).trans (by decide +kernel)
    have htwo : (2 : ℚ) ^ (967 : Int) = ((2 ^ 967 : Nat) : ℚ) := by
      rw [Nat.cast_pow]
      exact zpow_natCast 2 967
    rw [Nat.cast_one, one_mul, one_mul, htwo]
    exact_mod_cast hle
  exact (within_ofScientific (by omega) representable_zero ⟨by decide, by decide, by decide⟩ hlow
    hhigh).high

theorem greatest_powers : ∀ j : Nat, j < 17 →
    ((17976931348623156 / 10 ^ j : Nat) : ℚ) * exactSize (Float.ofScientific 1 false (292 + j)) ≤
      (2 ^ 53 - 1 : Nat) * 2 ^ (971 : Int) := by
  decide +kernel

theorem isSome_scale_greatest :
    (scale (Float.ofNat 17976931348623157) (292 : Nat)).isSome = true := by
  decide +kernel

theorem isSome_scale_of_small (hp : p ≤ 291) (hn : n ≤ 10 ^ 17) :
    (scale (Float.ofNat n) p).isSome = true := by
  have hm : Representable (5 ^ 17) 17 := ⟨by decide, by decide, by decide⟩
  refine isSome_scale_of_le (by omega) hm ?_ (exactSize_powerOfTen_le hp) ?_
  · have hten : ((5 ^ 17 : Nat) : ℚ) * 2 ^ (17 : Int) = ((10 ^ 17 : Nat) : ℚ) := by norm_num
    rw [hten]
    exact_mod_cast hn
  · have hpow : (2 : ℚ) ^ (17 : Int) * 2 ^ (967 : Int) = 2 ^ (13 : Int) * 2 ^ (971 : Int) := by
      rw [← zpow_add₀ two_ne_zero, ← zpow_add₀ two_ne_zero]
      congr 1
    have hmax : ((5 ^ 17 : Nat) : ℚ) * 2 ^ (13 : Int) ≤ (2 ^ 53 - 1 : Nat) := by norm_num
    rw [Nat.cast_one, one_mul, mul_assoc, hpow, ← mul_assoc]
    exact mul_le_mul_of_nonneg_right hmax (zpow_pos two_pos _).le

/-- One less than the figures of the greatest float is a float, and so is what is left of it without
the last figures. -/
theorem representable_greatest (j : Nat) : ∃ m E, Representable m E ∧
    (m : ℚ) * 2 ^ E = (17976931348623156 / 10 ^ j : Nat) := by
  cases j with
  | zero => exact ⟨8988465674311578, 1, ⟨by decide, by decide, by decide⟩, by norm_num⟩
  | succ i =>
    refine ⟨_, 0, ⟨?_, by decide, by decide⟩, by rw [zpow_zero, mul_one]⟩
    have hpow : 10 ^ 1 ≤ 10 ^ (i + 1) := Nat.pow_le_pow_right (by decide) (by omega)
    have hdiv := Nat.div_le_div_left (a := 17976931348623156) hpow (by decide)
    omega

theorem isSome_scale_of_large {j : Nat} (hpos : 0 < n) (hn : n * 10 ^ j ≤ 17976931348623157) :
    (scale (Float.ofNat n) (292 + j : Nat)).isSome = true := by
  have hj : j < 17 := by
    by_contra hlarge
    have hpow : 10 ^ 17 ≤ 10 ^ j := Nat.pow_le_pow_right (by decide) (by omega)
    have hle : 1 * 10 ^ j ≤ n * 10 ^ j := Nat.mul_le_mul_right _ hpos
    omega
  by_cases heq : n * 10 ^ j = 17976931348623157
  · have hzero : j = 0 := by
      by_contra hne
      obtain ⟨i, rfl⟩ := Nat.exists_eq_succ_of_ne_zero hne
      rw [Nat.pow_succ, ← Nat.mul_assoc] at heq
      omega
    obtain rfl := hzero
    rw [Nat.pow_zero, Nat.mul_one] at heq
    rw [heq]
    exact isSome_scale_greatest
  · have hle : n ≤ 17976931348623156 / 10 ^ j :=
      (Nat.le_div_iff_mul_le (Nat.pow_pos (by decide))).2 (by omega)
    obtain ⟨m, E, hm, hvalue⟩ := representable_greatest j
    refine isSome_scale_of_le (by omega) hm (hvalue ▸ Nat.cast_le.2 hle) le_rfl ?_
    rw [hvalue]
    exact greatest_powers j hj

theorem isSome_scale {power : Int} (hpos : 0 < n) (hn : n ≤ 10 ^ 17)
    (h : (n : ℚ) * 10 ^ power ≤ greatest.size) : (scale (Float.ofNat n) power).isSome = true := by
  obtain hneg | hnonneg := lt_or_ge power 0
  · rw [scale, if_neg (not_le.2 hneg)]
    rfl
  obtain ⟨p, rfl⟩ := Int.eq_ofNat_of_zero_le hnonneg
  obtain hp | hp := Nat.lt_or_ge p 292
  · exact isSome_scale_of_small (by omega) hn
  obtain ⟨j, rfl⟩ := Nat.exists_eq_add_of_le hp
  refine isSome_scale_of_large hpos ?_
  have hpow : (10 : ℚ) ^ ((292 + j : Nat) : Int) = (10 ^ j : Nat) * 10 ^ (292 : Int) := by
    rw [Nat.cast_pow, ← zpow_natCast, Nat.cast_ofNat, ← zpow_add₀ (by norm_num)]
    congr 1
    omega
  rw [hpow, ← mul_assoc, ← Nat.cast_mul] at h
  exact Nat.cast_le.1 (le_of_mul_le_mul_right h (zpow_pos (by norm_num) _))

end Scale

section Value

variable {n : Numeral} {cs : List Char}

theorem isSome_value_of_fraction (hfraction : n.fraction = some cs) (hcs : cs ≠ [])
    (hexponent : n.exponent = none) (h : extend 0 n.significand ≤ maxSignificand) :
    n.value.isSome = true := by
  have hint : n.toInt? n.reading = none := by
    rw [toInt?, hfraction]
    rfl
  have hlength : ¬ (0 : Int) ≤ -(cs.length : Int) := by
    have hpos := List.length_pos_iff.2 hcs
    omega
  rw [value]
  dsimp only
  rw [hint, hexponent, reading_eq h, hfraction, Option.getD_some]
  dsimp only
  rw [scale, if_neg hlength]
  rfl

theorem isSome_value_of_exponent {negative : Bool} (hexponent : n.exponent = some (negative, cs))
    (hcs : (extend 0 cs : Int) ≤ maxPower) (h : extend 0 n.significand ≤ maxSignificand)
    (hscale : (scale (Float.ofNat (extend 0 n.significand))
      (-((n.fraction.getD []).length : Int) +
        if negative then -(extend 0 cs : Int) else extend 0 cs)).isSome = true) :
    n.value.isSome = true := by
  have hint : n.toInt? n.reading = none := by
    rw [toInt?, hexponent, Option.isSome_some, Bool.or_true]
    rfl
  have hfigures : ¬ maxPower < (Decimal.ofFigures cs : Int) := not_lt.2 hcs
  rw [value]
  dsimp only
  rw [hint, hexponent, reading_eq h]
  dsimp only
  rw [if_neg hfigures, Option.isSome_map]
  exact hscale

end Value

section Layout

variable {figures : List Char} {point : Int} {negative : Bool} {d : Decimal}

theorem extend_zeros (n k : Nat) : extend n (List.replicate k '0') = n * 10 ^ k := by
  induction k generalizing n with
  | zero => simp [extend]
  | succ k ih =>
    have hzero : figure '0' = 0 := rfl
    rw [List.replicate_succ, extend, List.foldl_cons, ← extend, ih, hzero, Nat.pow_succ]
    ring

theorem extend_lt {cs : List Char} (hcs : ∀ c ∈ cs, c.isDigit = true) (n : Nat) :
    extend n cs < (n + 1) * 10 ^ cs.length := by
  induction cs generalizing n with
  | nil => simp [extend]
  | cons c cs ih =>
    have hfigure : figure c < 10 := by
      have hdigit := hcs c (.head _)
      simp only [Char.isDigit, Bool.and_eq_true, decide_eq_true_eq,
        UInt32.le_iff_toNat_le] at hdigit
      have hnine : c.toNat ≤ 57 := hdigit.2
      have hzero : '0'.toNat = 48 := rfl
      rw [figure, hzero]
      omega
    have hrest := ih (fun c hc => hcs c (.tail _ hc)) (10 * n + figure c)
    have hle : (10 * n + figure c + 1) * 10 ^ cs.length ≤ 10 * (n + 1) * 10 ^ cs.length :=
      Nat.mul_le_mul_right _ (by omega)
    rw [extend, List.foldl_cons, ← extend, List.length_cons, Nat.pow_succ]
    calc extend (10 * n + figure c) cs < 10 * (n + 1) * 10 ^ cs.length := hrest.trans_le hle
      _ = (n + 1) * (10 ^ cs.length * 10) := by ring

structure Laid (figures : List Char) (point : Int) : Prop where
  areFigures : AreFigures figures
  zero : figures.head? = some '0' → figures = ['0'] ∧ point = 1
  nonzero : extend 0 figures = 0 → point = 1
  few : extend 0 figures ≤ 10 ^ 17
  near : (point - 1).natAbs ≤ 1000
  small : (extend 0 figures : ℚ) * 10 ^ (point - figures.length) ≤ greatest.size

theorem areFigures_zero : AreFigures ['0'] :=
  ⟨List.cons_ne_nil _ _, fun _ hc => List.mem_singleton.1 hc ▸ rfl⟩

theorem laid_zero : Laid ['0'] 1 where
  areFigures := areFigures_zero
  zero _ := ⟨rfl, rfl⟩
  nonzero _ := rfl
  few := Nat.zero_le _
  near := by decide
  small := by
    have hzero : extend 0 ['0'] = 0 := rfl
    rw [hzero, Nat.cast_zero, zero_mul, greatest, Decimal.size]
    positivity

theorem toDigits_eq_figures (d : Decimal) :
    ∃ k, Nat.toDigits 10 d.digits = d.figures.1 ++ List.replicate k '0' := by
  have hzeros : ∀ c ∈ (Nat.toDigits 10 d.digits).reverse.takeWhile (· == '0'), c = '0' :=
    fun c hc => by simpa using List.mem_takeWhile_imp hc
  have hsplit := congrArg List.reverse
    (List.takeWhile_append_dropWhile (p := (· == '0')) (l := (Nat.toDigits 10 d.digits).reverse))
  rw [List.reverse_append, List.reverse_reverse, List.eq_replicate_of_mem hzeros,
    List.reverse_replicate] at hsplit
  exact ⟨_, hsplit.symm⟩

theorem figures_spec (hpos : 0 < d.digits) : AreFigures d.figures.1 ∧
    ∃ k, Nat.toDigits 10 d.digits = d.figures.1 ++ List.replicate k '0' ∧
      extend 0 d.figures.1 * 10 ^ k = d.digits := by
  obtain ⟨k, hk⟩ := toDigits_eq_figures d
  have hdigits : extend 0 d.figures.1 * 10 ^ k = d.digits := by
    rw [← extend_zeros, ← extend_append, ← hk, extend_toDigits]
  refine ⟨⟨fun hnil => ?_, fun c hc => isDigit_of_mem_figures hc⟩, k, hk, hdigits⟩
  have hnone : extend 0 [] = 0 := rfl
  rw [hnil, hnone, Nat.zero_mul] at hdigits
  omega

theorem size_figures (hpos : 0 < d.digits) :
    (extend 0 d.figures.1 : ℚ) * 10 ^ (d.figures.2 - d.figures.1.length) = d.size := by
  obtain ⟨-, k, hk, hdigits⟩ := figures_spec hpos
  have hpower : d.figures.2 - d.figures.1.length = k + d.exponent := by
    have hcount := congrArg List.length hk
    rw [List.length_append, List.length_replicate] at hcount
    have hpoint : d.figures.2 = d.exponent + (Nat.toDigits 10 d.digits).length := rfl
    omega
  rw [hpower, Decimal.size, ← hdigits, zpow_add₀ (by norm_num), zpow_natCast]
  push_cast
  ring

theorem laid_figures (hpos : 0 < d.digits) (hfew : d.digits ≤ 10 ^ 17)
    (hexponent : d.exponent.natAbs ≤ 900) (hsize : d.size ≤ greatest.size) :
    Laid d.figures.1 d.figures.2 := by
  obtain ⟨hfigures, k, hk, hdigits⟩ := figures_spec hpos
  have hpoint : d.figures.2 = d.exponent + (d.figures.1.length + k : Nat) := by
    have hcount := congrArg List.length hk
    rw [List.length_append, List.length_replicate] at hcount
    rw [← hcount]
    rfl
  have hlength : d.figures.1.length + k ≤ 18 := by
    have hcount := (Nat.length_toDigits_le_iff (b := 10) (n := d.digits) (k := 18) (by decide)
      (by decide)).2 (by omega)
    rwa [hk, List.length_append, List.length_replicate] at hcount
  have hle : extend 0 d.figures.1 ≤ d.digits :=
    hdigits ▸ Nat.le_mul_of_pos_right _ (Nat.pow_pos (by decide))
  have hnonzero : extend 0 d.figures.1 ≠ 0 := by
    intro hzero
    rw [hzero, Nat.zero_mul] at hdigits
    omega
  refine ⟨hfigures, ?_, fun h => absurd h hnonzero, hle.trans hfew, by omega, ?_⟩
  · intro hhead
    obtain ⟨cs, hcs⟩ := List.head?_eq_some_iff.1 hhead
    rw [hcs, List.cons_append] at hk
    exact absurd (eq_zero_of_toDigits hk) (Nat.ne_of_gt hpos)
  · rw [size_figures hpos]
    exact hsize

def Spells (negative : Bool) (cs : List Char) : Prop :=
  ∃ n : Numeral, n.WellSpelt ∧ n.negative = negative ∧ n.chars = cs ∧ n.value.isSome = true

theorem ten_pow_le_maxSignificand : 10 ^ 17 ≤ maxSignificand := by
  decide +kernel

theorem isDigit_of_mem_zeros {c : Char} {i : Int} (h : c ∈ zeros i) : c.isDigit = true := by
  rw [List.eq_of_mem_replicate h]
  rfl

section

variable (h : AreFigures figures)
include h

theorem areFigures_append_zeros (k : Int) : AreFigures (figures ++ zeros k) := by
  refine ⟨by simp [h.ne_nil], fun c hc => ?_⟩
  exact (List.mem_append.1 hc).elim (h.isDigit c) isDigit_of_mem_zeros

theorem areFigures_zeros_append (k : Int) : AreFigures (zeros k ++ figures) := by
  refine ⟨by simp [h.ne_nil], fun c hc => ?_⟩
  exact (List.mem_append.1 hc).elim isDigit_of_mem_zeros (h.isDigit c)

theorem areFigures_take {n : Nat} (hn : 0 < n) : AreFigures (figures.take n) := by
  refine ⟨?_, fun c hc => h.isDigit c (List.mem_of_mem_take hc)⟩
  rw [Ne, List.take_eq_nil_iff, not_or]
  exact ⟨Nat.ne_of_gt hn, h.ne_nil⟩

theorem areFigures_drop {n : Nat} (hn : n < figures.length) : AreFigures (figures.drop n) := by
  refine ⟨?_, fun c hc => h.isDigit c (List.mem_of_mem_drop hc)⟩
  rw [Ne, List.drop_eq_nil_iff]
  exact Nat.not_le_of_gt hn

end

theorem Laid.length_pos (h : Laid figures point) : 0 < figures.length :=
  List.length_pos_iff.2 h.areFigures.ne_nil

theorem Laid.spells_small (h : Laid figures point) (hpoint : point ≤ 0) :
    Spells negative (positional figures point) := by
  have hfraction := areFigures_zeros_append h.areFigures (-point)
  have hvalue : extend 0 (['0'] ++ (zeros (-point) ++ figures)) = extend 0 figures := by
    have hzero : extend 0 ['0'] = 0 := rfl
    rw [extend_append, hzero, extend_append, zeros, extend_zeros, Nat.zero_mul]
  refine ⟨⟨negative, ['0'], some (zeros (-point) ++ figures), none⟩,
    ⟨areFigures_zero, fun _ => rfl, by simpa using hfraction, by simp⟩, rfl, ?_, ?_⟩
  · rw [positional, if_pos hpoint]
    exact List.append_nil _
  · refine isSome_value_of_fraction rfl hfraction.ne_nil rfl ?_
    rw [significand, Option.getD_some, hvalue]
    exact h.few.trans ten_pow_le_maxSignificand

theorem Laid.spells_whole (h : Laid figures point) (hlow : figures.length ≤ point)
    (hhigh : point ≤ 16) : Spells negative (positional figures point ++ ['.', '0']) := by
  have hlength := h.length_pos
  have hwhole := areFigures_append_zeros h.areFigures (point - figures.length)
  have hzero : (figures ++ zeros (point - figures.length)).head? = some '0' →
      figures ++ zeros (point - figures.length) = ['0'] := by
    intro hhead
    rw [List.head?_append_of_ne_nil _ h.areFigures.ne_nil] at hhead
    obtain ⟨rfl, rfl⟩ := h.zero hhead
    rfl
  refine ⟨⟨negative, figures ++ zeros (point - figures.length), some ['0'], none⟩,
    ⟨hwhole, hzero, by simpa using areFigures_zero, by simp⟩, rfl, ?_, ?_⟩
  · rw [positional, if_neg (by omega), if_pos hlow]
    exact List.append_nil _
  · refine isSome_value_of_fraction rfl areFigures_zero.ne_nil rfl ?_
    have hfigures : ∀ c ∈ figures ++ zeros (point - figures.length) ++ ['0'], c.isDigit = true :=
      fun c hc => (List.mem_append.1 hc).elim (hwhole.isDigit c) (areFigures_zero.isDigit c)
    have hlt := extend_lt hfigures 0
    have hpow : 10 ^ (figures ++ zeros (point - figures.length) ++ ['0']).length ≤ 10 ^ 17 := by
      refine Nat.pow_le_pow_right (by decide) ?_
      simp only [List.length_append, zeros, List.length_replicate, List.length_singleton]
      omega
    have hmax := ten_pow_le_maxSignificand
    rw [significand, Option.getD_some]
    dsimp only
    omega

theorem Laid.spells_mixed (h : Laid figures point) (hlow : 0 < point)
    (hhigh : point < figures.length) : Spells negative (positional figures point) := by
  have hwhole : AreFigures (figures.take point.toNat) := areFigures_take h.areFigures (by omega)
  have hfraction : AreFigures (figures.drop point.toNat) :=
    areFigures_drop h.areFigures (by omega)
  have hzero : (figures.take point.toNat).head? = some '0' →
      figures.take point.toNat = ['0'] := by
    intro hhead
    rw [List.head?_take, if_neg (by omega)] at hhead
    obtain ⟨rfl, rfl⟩ := h.zero hhead
    rfl
  refine ⟨⟨negative, figures.take point.toNat, some (figures.drop point.toNat), none⟩,
    ⟨hwhole, hzero, by simpa using hfraction, by simp⟩, rfl, ?_, ?_⟩
  · rw [positional, if_neg (by omega), if_neg (by omega)]
    exact List.append_nil _
  · refine isSome_value_of_fraction rfl hfraction.ne_nil rfl ?_
    rw [significand, Option.getD_some, List.take_append_drop]
    exact h.few.trans ten_pow_le_maxSignificand

theorem Laid.spells_scientific (h : Laid figures point) (hpoint : point ≠ 1) :
    Spells negative (scientific figures point) := by
  obtain ⟨c, cs, rfl⟩ := List.exists_cons_of_ne_nil h.areFigures.ne_nil
  have hdigits := areFigures_toDigits (point - 1).natAbs
  have hwhole : AreFigures [c] :=
    ⟨by simp, fun d hd => h.areFigures.isDigit d (List.mem_singleton.1 hd ▸ .head _)⟩
  let fraction := if cs = [] then none else some cs
  have hfraction : ∀ ds ∈ fraction, AreFigures ds := by
    intro ds hds
    obtain ⟨hne, hds⟩ : cs ≠ [] ∧ cs = ds := by simpa [fraction] using hds
    exact ⟨hds ▸ hne, fun d hd => h.areFigures.isDigit d (.tail _ (hds ▸ hd))⟩
  have hgetD : fraction.getD [] = cs := by
    by_cases hcs : cs = [] <;> simp [fraction, hcs]
  refine ⟨⟨negative, [c], fraction,
      some (decide (point - 1 < 0), Nat.toDigits 10 (point - 1).natAbs)⟩,
    ⟨hwhole, fun hhead => ?_, hfraction, by simpa using hdigits⟩, rfl, ?_, ?_⟩
  · exact absurd (h.zero hhead).2 hpoint
  · cases cs <;> simp [chars, fraction, scientific, signedPower]
  · have hpower : (-(cs.length : Int) + if decide (point - 1 < 0) then
        -((point - 1).natAbs : Int) else (point - 1).natAbs) = point - (c :: cs).length := by
      rw [List.length_cons]
      simp only [decide_eq_true_eq]
      split <;> omega
    have hmax : (1000 : Int) ≤ maxPower := by decide
    have hnear := h.near
    refine isSome_value_of_exponent rfl ?_ ?_ ?_
    · rw [extend_toDigits]
      omega
    · rw [significand, hgetD]
      exact h.few.trans ten_pow_le_maxSignificand
    · rw [significand, hgetD, extend_toDigits, hpower]
      exact isSome_scale (Nat.pos_of_ne_zero fun hzero => hpoint (h.nonzero hzero)) h.few h.small

/-- What is laid out is spelt as numbers are in JSON text. -/
theorem spells_unsigned (h : Laid (if d.digits = 0 then (['0'], 1) else d.figures).1
    (if d.digits = 0 then (['0'], 1) else d.figures).2) :
    Spells negative (floatLayout.unsigned d) := by
  rw [Layout.unsigned]
  generalize (if d.digits = 0 then (['0'], 1) else d.figures) = f at h
  obtain ⟨figures, point⟩ := f
  dsimp only at h ⊢
  have hlength := h.length_pos
  split
  next hpositional =>
    simp only [floatLayout, Bool.and_eq_true, decide_eq_true_eq] at hpositional
    simp only [floatLayout, Bool.and_true, decide_eq_true_eq]
    obtain hpoint | hpoint := Int.lt_or_le 0 point
    · split
      next hle => exact h.spells_whole hle hpositional.2
      next hlt =>
        rw [List.append_nil]
        exact h.spells_mixed hpoint (Int.lt_of_not_ge hlt)
    · rw [if_neg (by omega), List.append_nil]
      exact h.spells_small hpoint
  next hscientific =>
    refine h.spells_scientific ?_
    rintro rfl
    exact hscientific rfl

theorem spells_shortest (negative : Bool) {b : Binary} (hb : b.IsFloat) :
    Spells negative (floatLayout.unsigned (shortest floatLayout.tie b)) := by
  refine spells_unsigned ?_
  obtain hzero | hpos := Nat.eq_zero_or_pos b.mantissa
  · rw [shortest, if_pos hzero, if_pos rfl]
    exact laid_zero
  obtain ⟨i, hi, hexponent, -, hlow, hhigh⟩ := shortest_spec floatLayout.tie hb hpos
  have hdigits : 0 < (shortest floatLayout.tie b).digits :=
    (Nat.pow_pos (by decide)).trans_le hlow
  have hfew : 10 ^ (i + 1) ≤ 10 ^ 17 := Nat.pow_le_pow_right (by decide) (by omega)
  have hmagnitude := Binary.magnitude_bounds hb hpos
  rw [if_neg (Nat.ne_of_gt hdigits)]
  exact laid_figures hdigits (hhigh.trans hfew) (by omega) (size_shortest_le _ hb hpos)

end Layout

end Numeral

namespace Number

/-- Every finite float is written as text that is read as a number. -/
theorem exists_readsAs {x : Float} (hx : x.isFinite = true) : ∃ m, (Number.float x).ReadsAs m := by
  obtain ⟨b, hb⟩ := Binary.exists_ofFloat? hx
  obtain ⟨n, hform, hsign, hchars, hvalue⟩ :=
    Numeral.spells_shortest b.negative (Binary.isFloat_of_ofFloat? hb)
  obtain ⟨m, hm⟩ := Option.isSome_iff_exists.1 hvalue
  refine ⟨m, readsAs_of_chars hform hm ?_⟩
  rw [chars, text, Decimal.Layout.text, hb, String.toList_ofList, hchars, hsign]

def reread (n : Number) : Number :=
  match readValue n.text with
  | .ok (.number m) => m
  | _ => n

theorem reread_of_readValue {n m : Number} (h : readValue n.text = .ok (.number m)) :
    n.reread = m := by
  rw [reread, h]

theorem ReadsAs.reread {n m : Number} (h : n.ReadsAs m) : n.reread = m := by
  have htext : (Json.number n).prettyText = n.text := String.ofList_toList
  have hdraft : Draft.ofText (Json.number n).prettyText = ((Json.number m).toDraft, false) :=
    Draft.ofText_prettyText_mapNumbers (f := fun _ => m) fun k hk => List.mem_singleton.1 hk ▸ h
  refine reread_of_readValue ?_
  rw [← htext, readValue, readText_eq_ok, hdraft]
  exact ⟨rfl, rfl⟩

/-- Whole numbers are read as they were written, and other numbers as some number. -/
theorem readsAs_reread {n : Number} (hfits : n.Fits) : n.ReadsAs n.reread := by
  obtain ⟨m, hm⟩ : ∃ m, n.ReadsAs m := by
    cases n with
    | int i => exact ⟨_, legible_int hfits⟩
    | float x => exact exists_readsAs hfits
  rwa [hm.reread]

theorem legible_of_readValue {n : Number} (hfits : n.Fits)
    (h : readValue n.text = .ok (.number n)) : n.Legible := by
  have hreads := readsAs_reread hfits
  rwa [reread_of_readValue h] at hreads

end Number

end ColorGraph.Json
