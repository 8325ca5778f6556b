import ColorGraph.Proofs.NearestFloats
import ColorGraph.Proofs.NumberGrammar
import ColorGraph.Proofs.NumberTexts
/-!
The plain text of floats. Main statement: every finite float is read back from its text, its sign
included, so that no two of them have one text.
-/

set_option autoImplicit false

namespace ColorGraph.Decimal

open Float.Model.UnpackedFloat
open Json.Numeral (AreFigures extend extend_append extend_zeros areFigures_zero areFigures_take
  areFigures_drop areFigures_append_zeros areFigures_zeros_append figures_spec size_figures)

attribute [local instance (2000)] instPowNat

variable {figures : List Char} {point : Int} {x y : Float} {b : Binary}

theorem ofFigures_eq (cs : List Char) : ofFigures cs = extend 0 cs :=
  rfl

theorem spellsMantissa_positional (h : AreFigures figures) (point : Int) : ∃ whole fraction,
    Literal.SpellsMantissa whole fraction (positional figures point) ∧
      size ⟨ofFigures (whole ++ fraction), -fraction.length⟩ =
        extend 0 figures * 10 ^ (point - figures.length) := by
  unfold positional
  split
  next hsmall =>
    have hvalue : extend 0 (['0'] ++ (zeros (-point) ++ figures)) = extend 0 figures := by
      have hzero : extend 0 ['0'] = 0 := rfl
      rw [extend_append, hzero, extend_append, zeros, extend_zeros, Nat.zero_mul]
    have hplace : (-((zeros (-point) ++ figures).length : Int)) = point - figures.length := by
      rw [List.length_append, zeros, List.length_replicate]
      omega
    refine ⟨['0'], zeros (-point) ++ figures,
      .point areFigures_zero (areFigures_zeros_append h _).isDigit, ?_⟩
    rw [size, ofFigures_eq, hvalue, hplace]
  next hsmall =>
    split
    next hwhole =>
      refine ⟨_, [], .whole (areFigures_append_zeros h (point - figures.length)), ?_⟩
      have hpower : point - figures.length = ((point - figures.length).toNat : Int) := by omega
      rw [size, ofFigures_eq, List.append_nil, extend_append, zeros, extend_zeros, List.length_nil,
        Nat.cast_zero, neg_zero, zpow_zero, mul_one]
      nth_rewrite 2 [hpower]
      rw [zpow_natCast]
      push_cast
      rfl
    next hmixed =>
      refine ⟨figures.take point.toNat, figures.drop point.toNat,
        .point (areFigures_take h (by omega)) (areFigures_drop h (by omega)).isDigit, ?_⟩
      have hplace : (-((figures.drop point.toNat).length : Int)) = point - figures.length := by
        rw [List.length_drop]
        omega
      rw [size, ofFigures_eq, List.take_append_drop, hplace]

theorem spells_unsigned_plain (d : Decimal) : ∃ whole fraction,
    Literal.SpellsMantissa whole fraction (plain.unsigned d) ∧
      size ⟨ofFigures (whole ++ fraction), -fraction.length⟩ = d.size := by
  have hplain : plain.unsigned d = positional (if d.digits = 0 then (['0'], 1) else d.figures).1
      (if d.digits = 0 then (['0'], 1) else d.figures).2 := by
    simp [Layout.unsigned, plain]
  rw [hplain]
  rcases Nat.eq_zero_or_pos d.digits with hzero | hpos
  · have hnone : (extend 0 ['0'] : ℚ) = 0 := by rw [show extend 0 ['0'] = 0 from rfl, Nat.cast_zero]
    rw [if_pos hzero, size, hzero, Nat.cast_zero, zero_mul]
    obtain ⟨whole, fraction, hspells, hsize⟩ := spellsMantissa_positional areFigures_zero 1
    rw [hnone, zero_mul] at hsize
    exact ⟨whole, fraction, hspells, hsize⟩
  · rw [if_neg (Nat.ne_of_gt hpos), ← size_figures hpos]
    exact spellsMantissa_positional (figures_spec hpos).1 _

theorem greatest_lt_overflow : greatest.size < overflow := by
  have hten : (10 : ℚ) ^ (292 : ℤ) = ((10 ^ 292 : Nat) : ℚ) := by
    rw [Nat.cast_pow]
    exact zpow_natCast 10 292
  have htwo : (2 : ℚ) ^ (970 : ℤ) = ((2 ^ 970 : Nat) : ℚ) := by
    rw [Nat.cast_pow]
    exact zpow_natCast 2 970
  have hbits : (2 ^ 54 - 1 : ℚ) = ((2 ^ 54 - 1 : Nat) : ℚ) := by norm_num
  rw [size, greatest, overflow, hten, htwo, hbits, ← Nat.cast_mul, ← Nat.cast_mul]
  exact Nat.cast_lt.2 (by decide +kernel)

theorem size_shortest_lt_overflow (tie : Tie) (hb : b.IsFloat) :
    (shortest tie b).size < overflow := by
  rcases Nat.eq_zero_or_pos b.mantissa with hzero | hpos
  · rw [shortest, if_pos hzero, size, Nat.cast_zero, zero_mul]
    exact overflow_pos
  · exact (size_shortest_le tie hb hpos).trans_lt greatest_lt_overflow

/-- Any decimal of the value that a float is written with is made its magnitude again. -/
theorem toFloat_shortest (tie : Tie) (hb : b.IsFloat) {d : Decimal}
    (hd : d.size = (shortest tie b).size) :
    d.toFloat.isFinite = true ∧ exactValue d.toFloat = b.size := by
  have hfinite : d.toFloat.isFinite = true :=
    (finiteBelow_toFloat d).finite_iff.2 (hd ▸ size_shortest_lt_overflow tie hb)
  have hnearest := isNearest_toFloat d hfinite
  rw [hd] at hnearest
  refine ⟨hfinite, ?_⟩
  rcases Nat.eq_zero_or_pos b.mantissa with hzero | hpos
  · have hnone : (shortest tie b).size = 0 := by
      rw [shortest, if_pos hzero, size, Nat.cast_zero, zero_mul]
    rw [hnone] at hnearest
    rw [hnearest.eq_of_isFloatValue isFloatValue_zero, Binary.size, hzero, Nat.cast_zero, zero_mul]
  · obtain ⟨-, -, -, hreads, -⟩ := shortest_spec tie hb hpos
    exact eq_size_of_readsBack hb hpos hreads hnearest

theorem eq_of_size (hb : Binary.ofFloat? x = some b) (hy : y.isFinite = true)
    (hsize : exactValue y = b.size) (hzero : b.mantissa = 0 → y = 0.0) :
    (if b.negative then -y else y) = x := by
  have hx := Binary.isFinite_of_ofFloat? hb
  have hvalue := Binary.exactValue_of_ofFloat? hb
  obtain ⟨hneg, hneg'⟩ := neg_spec hy
  rcases Nat.eq_zero_or_pos b.mantissa with hnone | hpos
  · have hunpack := Binary.unpack_of_zero hb hnone
    rw [hzero hnone]
    refine unpack_inj (Eq.trans ?_ hunpack.symm)
    rw [Binary.sign]
    cases b.negative <;> rfl
  · have hne : b.size ≠ 0 :=
      (mul_pos (Nat.cast_pos.2 hpos) (zpow_pos two_pos b.exponent)).ne'
    rw [Binary.sign] at hvalue
    split
    next hnegative =>
      rw [if_pos hnegative, Sign.of] at hvalue
      refine eq_of_exactValue hneg hx ?_ ?_
      · rwa [hneg', hsize, neg_ne_zero]
      · rw [hneg', hsize, hvalue]
    next hnegative =>
      rw [if_neg hnegative, Sign.of] at hvalue
      exact eq_of_exactValue hy hx (hsize ▸ hne) (hsize.trans hvalue.symm)

/-- A finite float is read back from its text. -/
theorem read?_text_plain (hx : x.isFinite = true) : read? (plain.text x).toList = some x := by
  obtain ⟨b, hb⟩ := Binary.exists_ofFloat? hx
  have hfloat := Binary.isFloat_of_ofFloat? hb
  obtain ⟨whole, fraction, hmantissa, hsize⟩ := spells_unsigned_plain (shortest plain.tie b)
  obtain ⟨hfinite, hvalue⟩ := toFloat_shortest plain.tie hfloat hsize
  refine read?_eq_some_iff.2 ⟨⟨b.negative, whole, fraction, 0⟩, ?_, ?_⟩
  · rw [Layout.text, hb, String.toList_ofList]
    refine ⟨if b.negative then ['-'] else [], _, [], ?_, ?_, hmantissa, .none⟩
    · rw [List.append_nil]
      cases b.negative <;> rfl
    · cases b.negative
      · exact .none
      · exact .minus
  · have hplace : (0 : Int) - fraction.length = -fraction.length := Int.zero_sub _
    rw [Literal.toFloat]
    dsimp only
    rw [hplace]
    refine eq_of_size hb hfinite hvalue fun hzero => ?_
    have hnone : (shortest plain.tie b).size = 0 := by
      rw [shortest, if_pos hzero, size, Nat.cast_zero, zero_mul]
    rw [hnone, size] at hsize
    have hdigits : ofFigures (whole ++ fraction) = 0 := by
      exact_mod_cast (mul_eq_zero.1 hsize).resolve_right (zpow_pos (by norm_num) _).ne'
    rw [toFloat, if_pos hdigits]

theorem text_plain_of_not_finite (hx : ¬ x.isFinite = true) :
    plain.text x = "inf" ∨ plain.text x = "-inf" ∨ x.isNaN = true := by
  rcases eq_of_not_finite hx with rfl | rfl | rfl <;> decide +kernel

/-- What is not finite has a text of its own, which is not read. -/
theorem text_plain_inj (hx : x.isFinite = true) (h : plain.text x = plain.text y) : x = y := by
  have hread := read?_text_plain hx
  rw [h] at hread
  by_cases hy : y.isFinite = true
  · rw [read?_text_plain hy] at hread
    exact (Option.some.inj hread).symm
  · have hnone : read? (plain.text y).toList = none := by
      rcases eq_of_not_finite hy with rfl | rfl | rfl <;> decide +kernel
    rw [hnone] at hread
    cases hread

end ColorGraph.Decimal
