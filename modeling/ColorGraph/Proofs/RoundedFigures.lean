import ColorGraph.Proofs.NearestFloats
/-!
Rounding to a few decimal figures. Main statements: what a float is rounded to is a nearest value of
so many figures; what is close enough to such a value is rounded to it; and a float that was rounded
to at most fifteen figures is not changed when it is rounded again.
-/

set_option autoImplicit false

namespace ColorGraph.Decimal

open Float.Model.UnpackedFloat

attribute [local instance (2000)] instPowNat

variable {n : Nat} {g j k : ℤ} {q q' r D : ℚ} {b : Binary} {x y : Float}

theorem ten_zpow_pos (j : ℤ) : (0 : ℚ) < 10 ^ j :=
  zpow_pos (by norm_num) j

theorem ten_zpow_le (h : j ≤ k) : (10 : ℚ) ^ j ≤ 10 ^ k :=
  zpow_le_zpow_right₀ (by norm_num) h

theorem lt_of_ten_zpow_lt (h : (10 : ℚ) ^ j < 10 ^ k) : j < k :=
  (zpow_lt_zpow_iff_right₀ (by norm_num)).1 h

theorem ten_zpow_add (j : ℤ) (n : Nat) : (10 : ℚ) ^ (j + n) = 10 ^ n * 10 ^ j := by
  rw [zpow_add₀ (by norm_num), zpow_natCast, mul_comm]

theorem ten_zpow_add_sub_one (j : ℤ) (hn : 0 < n) :
    (10 : ℚ) ^ (j + n - 1) = 10 ^ (n - 1) * 10 ^ j := by
  rw [← ten_zpow_add]
  congr 1
  omega

def HasFigures (n : Nat) (q : ℚ) : Prop :=
  ∃ g j : ℤ, |g| ≤ 10 ^ n ∧ q = g * 10 ^ j

namespace HasFigures

theorem abs_le_mul_abs_sub {g' : ℤ} (hg : |g| ≤ 10 ^ n) (hle : j ≤ k)
    (hne : (g : ℚ) * 10 ^ j ≠ g' * 10 ^ k) :
    |(g : ℚ) * 10 ^ j| ≤ 10 ^ n * |(g : ℚ) * 10 ^ j - g' * 10 ^ k| := by
  have hten := ten_zpow_pos j
  obtain ⟨m, rfl⟩ := Int.le.dest hle
  have hdiff : (g : ℚ) * 10 ^ j - g' * 10 ^ (j + m) = ((g - g' * 10 ^ m : ℤ) : ℚ) * 10 ^ j := by
    rw [ten_zpow_add]
    push_cast
    ring
  have hone : (1 : ℚ) ≤ |((g - g' * 10 ^ m : ℤ) : ℚ)| := by
    have hwhole : 1 ≤ |g - g' * 10 ^ m| := Int.one_le_abs fun hzero => by
      rw [hzero, Int.cast_zero, zero_mul, sub_eq_zero] at hdiff
      exact hne hdiff
    exact_mod_cast hwhole
  have hg' : |(g : ℚ)| ≤ 10 ^ n := by exact_mod_cast hg
  rw [hdiff, abs_mul, abs_mul, abs_of_pos hten, ← mul_assoc]
  refine mul_le_mul_of_nonneg_right ?_ hten.le
  calc |(g : ℚ)| ≤ 10 ^ n := hg'
    _ ≤ 10 ^ n * |((g - g' * 10 ^ m : ℤ) : ℚ)| := le_mul_of_one_le_right (by positivity) hone

theorem min_le (h : HasFigures n q) (h' : HasFigures n q') (hne : q ≠ q') :
    min |q| |q'| ≤ 10 ^ n * |q - q'| := by
  obtain ⟨g, j, hg, rfl⟩ := h
  obtain ⟨g', k, hg', rfl⟩ := h'
  rcases le_total j k with hle | hle
  · exact (min_le_left _ _).trans (abs_le_mul_abs_sub hg hle hne)
  · rw [abs_sub_comm]
    exact (min_le_right _ _).trans (abs_le_mul_abs_sub hg' hle hne.symm)

theorem exists_multiple (h : HasFigures n q) (hn : 0 < n) (hlow : (10 : ℚ) ^ (j + n - 1) ≤ |q|) :
    ∃ z : ℤ, q = z * 10 ^ j := by
  obtain ⟨g, i, hg, rfl⟩ := h
  have hten := ten_zpow_pos i
  rcases le_or_gt j i with hle | hlt
  · obtain ⟨m, rfl⟩ := Int.le.dest hle
    refine ⟨g * 10 ^ m, ?_⟩
    rw [ten_zpow_add]
    push_cast
    ring
  · have hg' : |(g : ℚ)| ≤ 10 ^ n := by exact_mod_cast hg
    rw [abs_mul, abs_of_pos hten] at hlow
    have hpower : (10 : ℚ) ^ (i + n) ≤ 10 ^ (j + n - 1) := ten_zpow_le (by omega)
    have hsame : |g| = 10 ^ n := by
      refine le_antisymm hg ?_
      rw [ten_zpow_add] at hpower
      exact_mod_cast le_of_mul_le_mul_right (hpower.trans hlow) hten
    obtain rfl : j = i + 1 := by
      have hhigh : (10 : ℚ) ^ (j + n - 1) < 10 ^ (i + n + 1) := by
        rw [zpow_add_one₀ (by norm_num), ten_zpow_add]
        have := mul_le_mul_of_nonneg_right hg' hten.le
        have := ten_zpow_pos (i + n)
        rw [ten_zpow_add] at this
        linarith
      have := lt_of_ten_zpow_lt hhigh
      omega
    obtain ⟨m, rfl⟩ := Nat.exists_eq_add_of_lt hn
    rw [zpow_add_one₀ (by norm_num)]
    rcases (abs_eq (by positivity)).1 hsame with rfl | rfl
    · exact ⟨10 ^ m, by push_cast; ring⟩
    · exact ⟨-10 ^ m, by push_cast; ring⟩

theorem next_le (h : HasFigures n q) (hn : 0 < n) (hlow : 10 ^ (n - 1) ≤ g)
    (hgt : g * 10 ^ k < q) : (g + 1) * 10 ^ k ≤ q := by
  have hten := ten_zpow_pos k
  have hlow' : (10 : ℚ) ^ (n - 1) ≤ g := by exact_mod_cast hlow
  have hdecade := (mul_le_mul_of_nonneg_right hlow' hten.le).trans_lt hgt
  rw [← ten_zpow_add_sub_one k hn] at hdecade
  obtain ⟨z, rfl⟩ := h.exists_multiple hn (hdecade.le.trans (le_abs_self q))
  have hz : g + 1 ≤ z := Int.cast_lt.1 (lt_of_mul_lt_mul_right hgt hten.le)
  exact mul_le_mul_of_nonneg_right (by exact_mod_cast hz) hten.le

end HasFigures

/-- What `r` is rounded to is `D`: it has `n` figures, the last of them at `10 ^ j`, and a half goes
to the even one. -/
structure FiguresOf (n : Nat) (j : ℤ) (r D : ℚ) : Prop where
  low : 10 ^ (j + n - 1) ≤ |r|
  high : |r| < 10 ^ (j + n)
  near : ∃ g : ℤ, D = g * 10 ^ j ∧ |D - r| ≤ 10 ^ j / 2 ∧ (|D - r| = 10 ^ j / 2 → Even g)

namespace FiguresOf

theorem neg (h : FiguresOf n j r D) : FiguresOf n j (-r) (-D) := by
  obtain ⟨g, hD, herror, htie⟩ := h.near
  have hsame : |-D - -r| = |D - r| := by rw [neg_sub_neg, abs_sub_comm]
  refine ⟨by rw [abs_neg]; exact h.low, by rw [abs_neg]; exact h.high, -g, ?_, ?_, ?_⟩
  · rw [hD]
    push_cast
    ring
  · rwa [hsame]
  · rw [hsame]
    exact fun heq => (htie heq).neg

theorem le_multiple (h : FiguresOf n j r D) (hle : r ≤ g * 10 ^ j) : D ≤ g * 10 ^ j := by
  obtain ⟨f, rfl, herror, -⟩ := h.near
  have hten := ten_zpow_pos j
  refine mul_le_mul_of_nonneg_right ?_ hten.le
  by_contra hlt
  have hone : (g : ℚ) + 1 ≤ f := by exact_mod_cast not_le.1 hlt
  have hmul := mul_le_mul_of_nonneg_right hone hten.le
  have := (abs_le.1 herror).2
  linarith

theorem multiple_le (h : FiguresOf n j r D) (hle : g * 10 ^ j ≤ r) : g * 10 ^ j ≤ D := by
  have hmirror := h.neg.le_multiple (g := -g) (by push_cast; linarith)
  push_cast at hmirror
  linarith

theorem abs (h : FiguresOf n j r D) : FiguresOf n j |r| |D| := by
  rcases le_total 0 r with hr | hr
  · have hD : 0 ≤ D := by simpa using h.multiple_le (g := 0) (by simpa using hr)
    rwa [abs_of_nonneg hr, abs_of_nonneg hD]
  · have hD : D ≤ 0 := by simpa using h.le_multiple (g := 0) (by simpa using hr)
    rw [abs_of_nonpos hr, abs_of_nonpos hD]
    exact h.neg

theorem bounds (h : FiguresOf n j r D) (hn : 0 < n) :
    10 ^ (j + n - 1) ≤ |D| ∧ |D| ≤ 10 ^ (j + n) := by
  have hlow := h.low
  have hhigh := h.high
  rw [ten_zpow_add_sub_one j hn] at hlow ⊢
  rw [ten_zpow_add] at hhigh ⊢
  have hfloor := h.abs.multiple_le (g := 10 ^ (n - 1)) (by exact_mod_cast hlow)
  have hceil := h.abs.le_multiple (g := 10 ^ n) (by exact_mod_cast hhigh.le)
  exact ⟨by exact_mod_cast hfloor, by exact_mod_cast hceil⟩

theorem hasFigures (h : FiguresOf n j r D) (hn : 0 < n) : HasFigures n D := by
  obtain ⟨g, hD, -⟩ := h.near
  have hten := ten_zpow_pos j
  have hhigh := (h.bounds hn).2
  rw [ten_zpow_add, hD, abs_mul, abs_of_pos hten] at hhigh
  exact ⟨g, j, by exact_mod_cast le_of_mul_le_mul_right hhigh hten, hD⟩

theorem nearest_multiple (h : FiguresOf n j r D) (g : ℤ) : |D - r| ≤ |g * 10 ^ j - r| := by
  obtain ⟨f, rfl, herror, -⟩ := h.near
  have hten := ten_zpow_pos j
  rcases eq_or_ne g f with rfl | hne
  · exact le_rfl
  have hone : (1 : ℚ) ≤ |((g - f : ℤ) : ℚ)| := by
    exact_mod_cast Int.one_le_abs (sub_ne_zero.2 hne)
  have hstep : 10 ^ j ≤ |(g : ℚ) * 10 ^ j - f * 10 ^ j| := by
    rw [← sub_mul, abs_mul, abs_of_pos hten]
    exact le_mul_of_one_le_left hten.le (by exact_mod_cast hone)
  have htriangle := abs_sub_le ((g : ℚ) * 10 ^ j) r (f * 10 ^ j)
  rw [abs_sub_comm r] at htriangle
  linarith

/-- No value of so many figures is nearer. -/
theorem nearest (h : FiguresOf n j r D) (hn : 0 < n) (hq : HasFigures n q) :
    |D - r| ≤ |q - r| := by
  have hlow := h.low
  rcases le_or_gt (10 ^ (j + n - 1)) |q| with hle | hlt
  · obtain ⟨z, rfl⟩ := hq.exists_multiple hn hle
    exact h.nearest_multiple z
  · rw [ten_zpow_add_sub_one j hn] at hlow hlt
    obtain ⟨hqlow, hqhigh⟩ := abs_lt.1 hlt
    rcases le_abs.1 hlow with hpos | hneg
    · have hmultiple := h.nearest_multiple (10 ^ (n - 1))
      push_cast at hmultiple
      refine hmultiple.trans ?_
      rw [abs_of_nonpos (by linarith), abs_of_nonpos (by linarith)]
      linarith
    · have hmultiple := h.nearest_multiple (-10 ^ (n - 1))
      push_cast at hmultiple
      refine hmultiple.trans ?_
      rw [abs_of_nonneg (by linarith), abs_of_nonneg (by linarith)]
      linarith

theorem le_of_hasFigures (h : FiguresOf n j r D) (hn : 0 < n) (hq : HasFigures n q)
    (hle : r ≤ q) : D ≤ q := by
  by_contra hlt
  have hbest := h.nearest hn hq
  rw [abs_of_nonneg (sub_nonneg.2 hle), abs_of_nonneg (by linarith)] at hbest
  linarith

/-- What is within half a step of a value of so many figures, in its decade, is rounded to it. -/
theorem eq_of_near (h : FiguresOf n j r D) (hn : 0 < n) (hq : HasFigures n q)
    (hlow : (10 : ℚ) ^ (k + n - 1) ≤ |r|) (hlow' : (10 : ℚ) ^ (k + n - 1) ≤ |q|)
    (hnear : 2 * |q - r| < 10 ^ k) : D = q := by
  have hle : k ≤ j := by
    have := lt_of_ten_zpow_lt (hlow.trans_lt h.high)
    omega
  have hD : (10 : ℚ) ^ (k + n - 1) ≤ |D| := (ten_zpow_le (by omega)).trans (h.bounds hn).1
  have hbest := h.nearest hn hq
  obtain ⟨y, hy⟩ := (h.hasFigures hn).exists_multiple hn hD
  obtain ⟨z, hz⟩ := hq.exists_multiple hn hlow'
  have htriangle := abs_sub_le D r q
  rw [abs_sub_comm r] at htriangle
  by_contra hne
  have hone : (1 : ℚ) ≤ |((y - z : ℤ) : ℚ)| := by
    have hwhole : y - z ≠ 0 := fun hzero => hne (by rw [hy, hz, sub_eq_zero.1 hzero])
    exact_mod_cast Int.one_le_abs hwhole
  have hstep : 10 ^ k ≤ |D - q| := by
    rw [hy, hz, ← sub_mul, abs_mul, abs_of_pos (ten_zpow_pos k)]
    exact le_mul_of_one_le_left (ten_zpow_pos k).le (by exact_mod_cast hone)
  linarith

/-- Among the multiples of the last figure's power, what is rounded to at most this one is below
halfway to the next, or there when this one is even. -/
theorem le_multiple_iff (h : FiguresOf n j r D) (g : ℤ) : D ≤ g * 10 ^ j ↔
    r ≤ (g + 1 / 2) * 10 ^ j ∧ (r = (g + 1 / 2) * 10 ^ j → Even g) := by
  obtain ⟨f, rfl, herror, htie⟩ := h.near
  have hten := ten_zpow_pos j
  obtain ⟨herror', herror''⟩ := abs_le.1 herror
  rw [mul_le_mul_iff_left₀ hten, Int.cast_le]
  constructor
  · intro hle
    have hle' := mul_le_mul_of_nonneg_right (Int.cast_le (R := ℚ).2 hle) hten.le
    refine ⟨by linarith, fun heq => ?_⟩
    have hsame : (f : ℚ) * 10 ^ j = g * 10 ^ j := by linarith
    have hgap : (f : ℚ) * 10 ^ j - r = -(10 ^ j / 2) := by linarith
    obtain rfl : f = g := by exact_mod_cast mul_right_cancel₀ hten.ne' hsame
    exact htie (by rw [hgap, abs_neg, abs_of_pos (half_pos hten)])
  · rintro ⟨hle, heven⟩
    by_contra hlt
    have hone : (g : ℚ) + 1 ≤ f := by exact_mod_cast not_le.1 hlt
    have hone' := mul_le_mul_of_nonneg_right hone hten.le
    have hr : r = (g + 1 / 2) * 10 ^ j := by linarith
    have hgap : (f : ℚ) * 10 ^ j - r = 10 ^ j / 2 := by linarith
    have hnext : (f : ℚ) * 10 ^ j = ((g + 1 : ℤ) : ℚ) * 10 ^ j := by
      push_cast
      linarith
    obtain rfl : f = g + 1 := by exact_mod_cast mul_right_cancel₀ hten.ne' hnext
    have hodd : Even (g + 1) := htie (by rw [hgap, abs_of_pos (half_pos hten)])
    exact Int.even_add_one.1 hodd (heven hr)

theorem le_iff (h : FiguresOf n j r D) (hn : 0 < n) (hr : 0 ≤ r) (hlow : 10 ^ (n - 1) ≤ g)
    (hhigh : g < 10 ^ n) : D ≤ g * 10 ^ k ↔
      r ≤ (g + 1 / 2) * 10 ^ k ∧ (r = (g + 1 / 2) * 10 ^ k → Even g) := by
  rcases eq_or_ne j k with rfl | hne
  · exact h.le_multiple_iff g
  have hten := ten_zpow_pos k
  have hfloor := h.low
  have hceil := h.high
  obtain ⟨hfloor', hceil'⟩ := h.abs.bounds hn
  have hD : 0 ≤ D := by simpa using h.multiple_le (g := 0) (by simpa using hr)
  rw [abs_abs, abs_of_nonneg hD] at hfloor' hceil'
  rw [abs_of_nonneg hr] at hfloor hceil
  have hlow' : (10 : ℚ) ^ (n - 1) ≤ g := by exact_mod_cast hlow
  have hhigh' : (g : ℚ) + 1 ≤ 10 ^ n := by exact_mod_cast hhigh
  have hlow'' := mul_le_mul_of_nonneg_right hlow' hten.le
  have hhigh'' := mul_le_mul_of_nonneg_right hhigh' hten.le
  rw [← ten_zpow_add_sub_one k hn] at hlow''
  rw [← ten_zpow_add] at hhigh''
  rcases hne.lt_or_gt with hlt | hgt
  · have hpower : (10 : ℚ) ^ (j + n) ≤ 10 ^ (k + n - 1) := ten_zpow_le (by omega)
    have hbelow : r < (g + 1 / 2) * 10 ^ k := by linarith
    exact iff_of_true (hceil'.trans (hpower.trans hlow'')) ⟨hbelow.le, fun heq =>
      absurd heq hbelow.ne⟩
  · have hpower : (10 : ℚ) ^ (k + n) ≤ 10 ^ (j + n - 1) := ten_zpow_le (by omega)
    have habove : (g + 1 / 2) * 10 ^ k < r := by linarith
    refine iff_of_false (fun hle => ?_) fun hle => absurd hle.1 (not_le_of_gt habove)
    linarith

end FiguresOf

theorem figuresOf_ofBinarySignificant (hb : b.IsFloat) (hpos : 0 < b.mantissa) (n : Nat) :
    FiguresOf n (b.magnitude - n) b.size (ofBinarySignificant b n).size := by
  have hdecade : b.magnitude - n + n = b.magnitude := Int.sub_add_cancel _ _
  have hden := b.ratio_den_pos (b.magnitude - n)
  have hten := ten_zpow_pos (b.magnitude - n)
  obtain ⟨hlow, hhigh⟩ := Binary.magnitude_spec hb hpos
  have hsize : |b.size| = b.size := by
    rw [Binary.size]
    exact abs_of_nonneg (mul_nonneg (Nat.cast_nonneg _) (zpow_pos two_pos _).le)
  refine ⟨by rwa [hdecade, hsize], by rwa [hdecade, hsize], _, rfl, ?_⟩
  rw [b.size_eq_ratio (b.magnitude - n), size, ofBinarySignificant]
  generalize (b.ratio (b.magnitude - n)).1 = a
  generalize (b.ratio (b.magnitude - n)).2 = d at hden ⊢
  generalize (10 : ℚ) ^ (b.magnitude - n) = step at hten ⊢
  dsimp only
  rw [← sub_mul, abs_mul, abs_of_pos hten, div_eq_inv_mul step, inv_eq_one_div]
  exact ⟨mul_le_mul_of_nonneg_right (abs_roundDiv_sub_le a hden) hten.le, fun heq =>
    (Int.even_coe_nat _).2 (even_roundDiv_of_tie hden (mul_right_cancel₀ hten.ne' heq))⟩

theorem significant_of_zero (h : exactValue x = 0) (n : Nat) : significant x n = 0.0 := by
  unfold significant
  split
  · rfl
  next b hb =>
    refine if_pos (Nat.eq_zero_of_not_pos fun hpos => ?_)
    have hsize : 0 < b.size := mul_pos (Nat.cast_pos.2 hpos) (zpow_pos two_pos _)
    rw [Binary.exactValue_of_ofFloat? hb, ← abs_eq_zero, Sign.abs_of, abs_of_pos hsize] at h
    exact hsize.ne' h

/-- A float other than zero is rounded to figures, and these to the nearest float unless they are
too large. -/
theorem significant_spec (hne : exactValue x ≠ 0) (n : Nat) : ∃ j D,
    FiguresOf n j (exactValue x) D ∧ ((significant x n).isFinite = true ↔ |D| < overflow) ∧
      ((significant x n).isFinite = true → IsNearest D (exactValue (significant x n))) := by
  obtain ⟨b, hb⟩ := Binary.exists_ofFloat? (isFinite_of_exactValue hne)
  have hvalue := Binary.exactValue_of_ofFloat? hb
  have hpos : 0 < b.mantissa := Nat.pos_of_ne_zero fun hzero => hne (by
    rw [hvalue, Binary.size, hzero, Nat.cast_zero, zero_mul, Sign.of_zero])
  have hfigures := figuresOf_ofBinarySignificant (Binary.isFloat_of_ofFloat? hb) hpos n
  have hbelow := finiteBelow_toFloat (ofBinarySignificant b n)
  have hsize : |(ofBinarySignificant b n).size| = (ofBinarySignificant b n).size :=
    abs_of_nonneg (mul_nonneg (Nat.cast_nonneg _) (ten_zpow_pos _).le)
  unfold significant
  rw [hb, hvalue, Binary.sign]
  dsimp only
  rw [if_neg hpos.ne']
  cases b.negative
  · refine ⟨_, _, hfigures, ?_, isNearest_toFloat _⟩
    rw [hsize]
    exact hbelow.finite_iff
  · have hneg : (-(ofBinarySignificant b n).toFloat).isFinite = true ↔
        (ofBinarySignificant b n).size < overflow := hbelow.neg.finite_iff
    refine ⟨_, _, hfigures.neg, ?_, fun hfinite => ?_⟩
    · rw [abs_neg, hsize]
      exact hneg
    · have hfinite' := hbelow.finite_iff.2 (hneg.1 hfinite)
      have hnearest := (isNearest_toFloat _ hfinite').neg
      rwa [← (neg_spec hfinite').2] at hnearest

theorem isNaN_significant (x : Float) (n : Nat) : (significant x n).isNaN = false := by
  unfold significant
  split
  · exact finiteBelow_zero.number
  next b hb =>
    have hbelow := finiteBelow_toFloat (ofBinarySignificant b n)
    dsimp only
    split
    · exact finiteBelow_zero.number
    · split
      · exact hbelow.neg.number
      · exact hbelow.number

theorem significant_ne_zero (hn : 0 < n) (hne : exactValue x ≠ 0)
    (hfinite : (significant x n).isFinite = true) : exactValue (significant x n) ≠ 0 := by
  obtain ⟨j, D, hfigures, -, hnearest⟩ := significant_spec hne n
  obtain ⟨g, -, herror, -⟩ := hfigures.near
  have hlow := (hfigures.bounds hn).1
  have hten : (10 : ℚ) ^ j ≤ 10 ^ (j + n - 1) := ten_zpow_le (by omega)
  have hleast := (isFloatValue_exactValue (isFinite_of_exactValue hne)).least_le hne
  have hpos := least_pos
  have htriangle := abs_sub_abs_le_abs_sub (exactValue x) D
  rw [abs_sub_comm] at htriangle
  intro hzero
  have herror' := (hnearest hfinite).error_le
  rw [hzero, zero_sub, abs_neg] at herror'
  linarith

theorem significant_eq (hn : 0 < n) (hy : exactValue y ≠ 0)
    (hfinite : (significant x n).isFinite = true) (hbelow : |D| < overflow)
    (hnearest : IsNearest D (exactValue (significant x n)))
    (h : ∀ j D', FiguresOf n j (exactValue y) D' → D' = D) : significant y n = significant x n := by
  obtain ⟨j, D', hfigures, hbelow', hnearest'⟩ := significant_spec hy n
  obtain rfl := h j D' hfigures
  have hfinite' := hbelow'.2 hbelow
  exact eq_of_exactValue hfinite' hfinite (significant_ne_zero hn hy hfinite')
    ((hnearest' hfinite').unique hnearest)

theorem significant_congr (h : exactValue x = exactValue y) (n : Nat) :
    significant x n = significant y n := by
  by_cases hzero : exactValue x = 0
  · rw [significant_of_zero hzero, significant_of_zero (h ▸ hzero)]
  · have hx := isFinite_of_exactValue hzero
    have hy := isFinite_of_exactValue (h ▸ hzero)
    rw [eq_of_exactValue hx hy hzero h]

theorem significant_nonneg (hfinite : (significant x n).isFinite = true)
    (h : 0 ≤ exactValue x) : 0 ≤ exactValue (significant x n) := by
  by_cases hzero : exactValue x = 0
  · rw [significant_of_zero hzero, zero_spec.2]
  · obtain ⟨j, D, hfigures, -, hnearest⟩ := significant_spec hzero n
    refine (hnearest hfinite).nonneg ?_
    simpa using hfigures.multiple_le (g := 0) (by simpa using h)

theorem significant_neg (hn : 0 < n) (hfinite : (significant x n).isFinite = true)
    (h : exactValue x < 0) : exactValue (significant x n) < 0 := by
  obtain ⟨j, D, hfigures, -, hnearest⟩ := significant_spec h.ne n
  have hD : D ≤ 0 := by simpa using hfigures.le_multiple (g := 0) (by simpa using h.le)
  exact lt_of_le_of_ne ((hnearest hfinite).le_of_le isFloatValue_zero hD)
    (significant_ne_zero hn h.ne hfinite)

theorem abs_significant_le (hn : 0 < n) (hfinite : (significant x n).isFinite = true) :
    |exactValue (significant x n)| ≤ 3 * |exactValue x| := by
  by_cases hzero : exactValue x = 0
  · rw [significant_of_zero hzero, hzero, zero_spec.2, abs_zero, mul_zero]
  obtain ⟨j, D, hfigures, -, hnearest⟩ := significant_spec hzero n
  obtain ⟨g, -, herror, -⟩ := hfigures.near
  have hleast := (isFloatValue_exactValue (isFinite_of_exactValue hzero)).least_le hzero
  have hten : (10 : ℚ) ^ j ≤ 10 ^ (j + n - 1) := ten_zpow_le (by omega)
  have hlow := hfigures.low
  have herror' := (hnearest hfinite).error_le
  have hD := abs_nonneg D
  have htriangle := abs_sub_abs_le_abs_sub D (exactValue x)
  have htriangle' := abs_sub_abs_le_abs_sub (exactValue (significant x n)) D
  linarith

/-- What a float of so many figures or the floats beside it come to when it is rounded: either the
figures are found again, or the float is a multiple of the least one that they are nearest to. -/
theorem FiguresOf.eq_or_tiny {v D' : ℚ} (h : FiguresOf n j v D') (hn : 0 < n) (hmax : n ≤ 15)
    (hD : HasFigures n D) (hne : D ≠ 0) (hv : IsNearest D v) : D' = D ∨
      ∃ z : ℤ, v = z * least ∧ |z| ≤ 2 ^ 52 ∧ |D' - v| ≤ least / 2 ∧
        (|D' - v| = least / 2 → Even z) := by
  obtain ⟨p, z, hz, herror, htie, hp⟩ := hv.near
  have hbest := h.nearest hn hD
  rw [abs_sub_comm D] at hbest
  by_cases hfull : 2 ^ 52 * 2 ^ p ≤ |D|
  · left
    by_contra hother
    have hapart := (h.hasFigures hn).min_le hD hother
    have htriangle := abs_sub_le D' v D
    have hfew : (10 : ℚ) ^ n ≤ 10 ^ 15 := pow_le_pow_right₀ (by norm_num) hmax
    have hgap : |D' - D| ≤ 2 ^ p := by linarith
    have hpos : 0 < |D| := abs_pos.2 hne
    have hclose : 10 ^ n * |D' - D| ≤ 10 ^ 15 * 2 ^ p :=
      mul_le_mul hfew hgap (abs_nonneg _) (by positivity)
    have hless := abs_sub_abs_le_abs_sub D D'
    rw [abs_sub_comm] at hless
    have hpow : (0 : ℚ) < 2 ^ p := zpow_pos two_pos p
    have hmin : |D| - 2 ^ p ≤ min |D'| |D| := le_min (by linarith) (by linarith)
    norm_num at hfull hclose
    linarith
  -- among the least floats other figures may be nearer, but these are the nearest to one float
  · obtain rfl : p = -1074 := hp.resolve_left hfull
    have hpos := least_pos
    rw [← least] at hz herror htie hfull
    right
    refine ⟨z, hz, ?_, hbest.trans herror, fun heq => htie (le_antisymm herror (heq ▸ hbest))⟩
    have hfloat : IsFloatValue (2 ^ 52 * least) :=
      ⟨2 ^ 52, -1074, ⟨by decide, by decide, by decide⟩, by
        rw [abs_of_pos (mul_pos (by norm_num) hpos), Nat.cast_pow, Nat.cast_ofNat, least]⟩
    have hsmall := hv.abs.le_of_le hfloat (not_le.1 hfull).le
    rw [hz, abs_mul, abs_of_pos hpos] at hsmall
    exact_mod_cast le_of_mul_le_mul_right hsmall hpos

theorem significant_significant (hn : 0 < n) (hmax : n ≤ 15)
    (hfinite : (significant x n).isFinite = true) :
    significant (significant x n) n = significant x n := by
  by_cases hzero : exactValue x = 0
  · rw [significant_of_zero hzero]
    exact significant_of_zero zero_spec.2 n
  obtain ⟨j, D, hfigures, hbelow, hnearest⟩ := significant_spec hzero n
  have hne := significant_ne_zero hn hzero hfinite
  obtain ⟨j', D', hfigures', hbelow', hnearest'⟩ := significant_spec hne n
  have hD := hfigures.hasFigures hn
  have hDne : D ≠ 0 := by
    rw [← abs_pos]
    exact (ten_zpow_pos _).trans_le (hfigures.bounds hn).1
  rcases hfigures'.eq_or_tiny hn hmax hD hDne (hnearest hfinite) with rfl | htiny
  · have hfinite' := hbelow'.2 (hbelow.1 hfinite)
    exact eq_of_exactValue hfinite' hfinite (significant_ne_zero hn hne hfinite')
      ((hnearest' hfinite').unique (hnearest hfinite))
  · obtain ⟨z, hz, hsmall, herror, htie⟩ := htiny
    have hfinite' : (significant (significant x n) n).isFinite = true := by
      refine hbelow'.2 (lt_of_le_of_lt ?_ one_lt_overflow)
      have hleast := least_le_one
      have hpos := least_pos
      have hsmall' : |(z : ℚ)| ≤ 2 ^ 52 := by exact_mod_cast hsmall
      have hvalue := mul_le_mul_of_nonneg_right hsmall' hpos.le
      have htriangle := abs_sub_abs_le_abs_sub D' (exactValue (significant x n))
      rw [← abs_of_pos hpos, ← abs_mul, ← hz, abs_of_pos hpos] at hvalue
      linarith
    rw [hz] at herror htie
    refine eq_of_exactValue hfinite' hfinite (significant_ne_zero hn hne hfinite') ?_
    rw [(hnearest' hfinite').eq_of_tiny hsmall herror htie, hz]

theorem significant_of_tiny (hn : 0 < n) (hmax : n ≤ 15) (hne : exactValue x ≠ 0)
    (hsmall : exactSize x < 10 ^ (n - 1) * least) : significant x n = x := by
  have hpos := least_pos
  have hfinite := isFinite_of_exactValue hne
  obtain ⟨j, D, hfigures, hbelow, hnearest⟩ := significant_spec hne n
  obtain ⟨g, -, herror, -⟩ := hfigures.near
  have hlow := hfigures.low
  have hscale : (0 : ℚ) < 10 ^ (n - 1) := by positivity
  have hfew : (10 : ℚ) ^ (n - 1) ≤ 10 ^ 14 := pow_le_pow_right₀ (by norm_num) (by omega)
  rw [← abs_exactValue] at hsmall
  rw [ten_zpow_add_sub_one j hn] at hlow
  have hstep : (10 : ℚ) ^ j < least := lt_of_mul_lt_mul_left (hlow.trans_lt hsmall) hscale.le
  obtain ⟨z, hz⟩ := (isFloatValue_exactValue hfinite).exists_multiple
  have hfinite' : (significant x n).isFinite = true := by
    refine hbelow.2 (lt_of_le_of_lt ?_ one_lt_overflow)
    have hleast := least_le_one
    have hvalue := mul_le_mul_of_nonneg_right hfew hpos.le
    have htriangle := abs_sub_abs_le_abs_sub D (exactValue x)
    linarith
  refine eq_of_exactValue hfinite' hfinite (significant_ne_zero hn hne hfinite') ?_
  rw [hz] at herror hsmall ⊢
  rw [abs_mul, abs_of_pos hpos] at hsmall
  have hz' : |(z : ℚ)| < 2 ^ 52 :=
    (lt_of_mul_lt_mul_right hsmall hpos.le).trans_le (hfew.trans (by norm_num))
  exact (hnearest hfinite').eq_of_tiny (by exact_mod_cast hz'.le) (by linarith)
    fun heq => absurd heq (by linarith)

theorem lt_exactSize_significant {m : Nat} (hn : 0 < n) (hmax : n ≤ 15)
    (hm : 2 * (m + 1) ≤ 10 ^ (n - 1)) (hfinite : (significant x n).isFinite = true) (h : m * least < exactSize x) :
    m * least < exactSize (significant x n) := by
  have hpos := least_pos
  have hnonneg : (0 : ℚ) ≤ m * least := mul_nonneg (Nat.cast_nonneg m) hpos.le
  have hne : exactValue x ≠ 0 := by
    rw [← abs_pos, abs_exactValue]
    exact hnonneg.trans_lt h
  rcases lt_or_ge (exactSize x) (10 ^ (n - 1) * least) with hsmall | hlarge
  · rwa [significant_of_tiny hn hmax hne hsmall]
  obtain ⟨j, D, hfigures, -, hnearest⟩ := significant_spec hne n
  obtain ⟨g, -, herror, -⟩ := hfigures.near
  have hlow := hfigures.low
  have hscale : (1 : ℚ) ≤ 10 ^ (n - 1) := one_le_pow₀ (by norm_num)
  have hm' : 2 * ((m : ℚ) + 1) ≤ 10 ^ (n - 1) := by exact_mod_cast hm
  have hfloat : IsFloatValue (((m + 1 : Nat) : ℤ) * least) := by
    have hshort : 10 ^ (n - 1) ≤ 10 ^ 14 := Nat.pow_le_pow_right (by decide) (by omega)
    exact isFloatValue_mul_zpow (by rw [abs_lt]; omega) (by decide) (by decide)
  rw [← abs_exactValue] at hlarge ⊢
  rw [ten_zpow_add_sub_one j hn] at hlow
  have hstep := (le_mul_of_one_le_left (ten_zpow_pos j).le hscale).trans hlow
  have htriangle := abs_sub_abs_le_abs_sub (exactValue x) D
  rw [abs_sub_comm] at htriangle
  have hdouble := mul_le_mul_of_nonneg_right hm' hpos.le
  have hmore := (hnearest hfinite).abs.le_of_ge hfloat (by push_cast; linarith)
  push_cast at hmore
  linarith

def largestFive : ℚ :=
  179765 * 10 ^ 303

theorem exists_ends : ∃ zeros limit : Nat, (10 : ℚ) ^ (304 : ℤ) = zeros ∧ overflow = limit ∧
    (2 ^ 50 + 1) * (17976 * zeros) + 2 ^ 50 < 2 ^ 50 * limit ∧ limit ≤ 17977 * zeros := by
  refine ⟨10 ^ 304, (2 ^ 54 - 1) * 2 ^ 970, ?_, ?_, by decide +kernel, by decide +kernel⟩
  · rw [Nat.cast_pow]
    exact zpow_natCast 10 304
  · have htwo : (2 : ℚ) ^ (970 : ℤ) = ((2 ^ 970 : Nat) : ℚ) := by
      rw [Nat.cast_pow]
      exact zpow_natCast 2 970
    have hbits : (2 ^ 54 - 1 : ℚ) = ((2 ^ 54 - 1 : Nat) : ℚ) := by norm_num
    rw [overflow, htwo, hbits, Nat.cast_mul]

theorem five_lt_overflow : (17976 : ℚ) * 10 ^ (304 : ℤ) < overflow ∧
    overflow ≤ 17977 * 10 ^ (304 : ℤ) := by
  obtain ⟨zeros, limit, hten, hoverflow, hlow, hhigh⟩ := exists_ends
  have hbelow : 17976 * zeros < limit := by omega
  rw [hoverflow, hten]
  exact ⟨by exact_mod_cast hbelow, by exact_mod_cast hhigh⟩

theorem add_error_lt_overflow (h : D ≤ 17976 * 10 ^ (304 : ℤ)) : D + D / 2 ^ 50 + 1 < overflow := by
  obtain ⟨zeros, limit, hten, hoverflow, hlow, -⟩ := exists_ends
  have hcast : ((2 ^ 50 + 1) * (17976 * zeros) + 2 ^ 50 : ℚ) < 2 ^ 50 * limit := by
    exact_mod_cast hlow
  rw [hten] at h
  rw [hoverflow]
  linarith

theorem le_largestFive (h : q ≤ 179765) : q ≤ largestFive :=
  h.trans (le_mul_of_one_le_right (by norm_num) (one_le_pow₀ (by norm_num)))

theorem overflow_le_two_mul_largestFive : overflow ≤ 2 * largestFive := by
  refine five_lt_overflow.2.trans ?_
  have hpow : (0 : ℚ) < 10 ^ 303 := by positivity
  rw [largestFive, show (304 : ℤ) = (303 : ℕ) + 1 from rfl, zpow_add_one₀ (by norm_num),
    zpow_natCast]
  generalize (10 : ℚ) ^ 303 = big at hpow ⊢
  linarith

theorem HasFigures.lt_overflow_iff (h : HasFigures 5 q) :
    q < overflow ↔ q ≤ 17976 * 10 ^ (304 : ℤ) := by
  obtain ⟨hlow, hhigh⟩ := five_lt_overflow
  refine ⟨fun hlt => not_lt.1 fun hmore => ?_, fun hle => hle.trans_lt hlow⟩
  have hnext := h.next_le (g := 17976) (k := 304) (by decide) (by decide)
    (by rwa [Int.cast_ofNat])
  have hsum : ((17976 : ℤ) + 1 : ℚ) = 17977 := by norm_num
  rw [hsum] at hnext
  exact absurd hlt (not_lt_of_ge (hhigh.trans hnext))

theorem isFinite_significant_iff (x : Float) :
    (significant x 5).isFinite = true ↔ exactSize x ≤ largestFive := by
  by_cases hzero : exactValue x = 0
  · rw [significant_of_zero hzero, ← abs_exactValue, hzero, abs_zero, largestFive]
    exact iff_of_true zero_spec.1 (by positivity)
  obtain ⟨j, D, hfigures, hbelow, -⟩ := significant_spec hzero 5
  have habs := hfigures.abs
  rw [hbelow, (habs.hasFigures (by decide)).lt_overflow_iff]
  have hle := habs.le_iff (g := 17976) (k := 304) (by decide) (abs_nonneg _) (by decide) (by decide)
  have heven : Even (17976 : ℤ) := by decide
  have hlargest : ((17976 : ℤ) + 1 / 2 : ℚ) * 10 ^ (304 : ℤ) = largestFive := by
    rw [largestFive, show (304 : ℤ) = (303 : ℕ) + 1 from rfl, zpow_add_one₀ (by norm_num),
      zpow_natCast]
    generalize (10 : ℚ) ^ 303 = big
    push_cast
    ring
  rw [hlargest, abs_exactValue, Int.cast_ofNat] at hle
  rw [hle]
  exact ⟨fun h => h.1, fun h => ⟨h, fun _ => heven⟩⟩

section

variable (hn : 0 < n) (hlow : 10 ^ (n - 1) ≤ g) (hhigh : g < 10 ^ n)
  (hfinite : (significant x n).isFinite = true) (hx : 0 ≤ exactValue x)
include hn hlow hhigh hfinite hx

/-- What is below the half step after `g` steps is not rounded to more than these. -/
theorem significant_le (hq : IsFloatValue q) (hle : g * 10 ^ k ≤ q)
    (hlt : exactValue x < (g + 1 / 2) * 10 ^ k) : exactValue (significant x n) ≤ q := by
  by_cases hzero : exactValue x = 0
  · rw [significant_of_zero hzero]
    have hg : (0 : ℚ) ≤ g := by
      exact_mod_cast (pow_pos (by norm_num : (0 : ℤ) < 10) (n - 1)).le.trans hlow
    have hsteps := mul_nonneg hg (ten_zpow_pos k).le
    exact zero_spec.2.le.trans (hsteps.trans hle)
  obtain ⟨j, D, hfigures, -, hnearest⟩ := significant_spec hzero n
  have hD := (hfigures.le_iff hn hx hlow hhigh).2 ⟨hlt.le, fun heq => absurd heq hlt.ne⟩
  exact (hnearest hfinite).le_of_le hq (hD.trans hle)

theorem le_significant (hq : IsFloatValue q) (hle : q ≤ (g + 1) * 10 ^ k)
    (hgt : (g + 1 / 2) * 10 ^ k < exactValue x) : q ≤ exactValue (significant x n) := by
  have hten := ten_zpow_pos k
  have hg : (0 : ℚ) < g := by
    exact_mod_cast (pow_pos (by norm_num : (0 : ℤ) < 10) (n - 1)).trans_le hlow
  have hpos : 0 < exactValue x := (mul_pos (by linarith) hten).trans hgt
  obtain ⟨j, D, hfigures, -, hnearest⟩ := significant_spec hpos.ne' n
  have hD : g * 10 ^ k < D := not_le.1 fun hD =>
    absurd ((hfigures.le_iff hn hx hlow hhigh).1 hD).1 (not_le_of_gt hgt)
  exact (hnearest hfinite).le_of_ge hq
    (hle.trans ((hfigures.hasFigures hn).next_le hn hlow hD))

theorem significant_eq_next (hodd : ¬ Even g) (hq : IsFloatValue ((g + 1) * 10 ^ k))
    (hge : (g + 1 / 2) * 10 ^ k ≤ exactValue x) (hlt : exactValue x < (g + 1) * 10 ^ k) :
    exactValue (significant x n) = (g + 1) * 10 ^ k := by
  have hten := ten_zpow_pos k
  have hg : (0 : ℚ) < g := by
    exact_mod_cast (pow_pos (by norm_num : (0 : ℤ) < 10) (n - 1)).trans_le hlow
  have hpos : 0 < exactValue x := (mul_pos (by linarith) hten).trans_le hge
  obtain ⟨j, D, hfigures, -, hnearest⟩ := significant_spec hpos.ne' n
  have hD : g * 10 ^ k < D := not_le.1 fun hD => by
    obtain ⟨hle, htie⟩ := (hfigures.le_iff hn hx hlow hhigh).1 hD
    exact hodd (htie (le_antisymm hle hge))
  have hnext : HasFigures n ((g + 1) * 10 ^ k) := by
    refine ⟨g + 1, k, ?_, by push_cast; rfl⟩
    rw [abs_of_pos (by have := Int.cast_pos.1 hg; omega)]
    omega
  have hD' : D = (g + 1) * 10 ^ k :=
    le_antisymm (hfigures.le_of_hasFigures hn hnext hlt.le)
      ((hfigures.hasFigures hn).next_le hn hlow hD)
  rw [hD'] at hnearest
  exact (hnearest hfinite).eq_of_isFloatValue hq

end

end ColorGraph.Decimal
