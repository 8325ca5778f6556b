import ColorGraph.Decimal.Basic
import ColorGraph.Text.Blank
/-!
Numbers written in decimal: a sign, figures with or without a point, and an exponent. Main
statements: what the parts of a scan leave over is the end of the text.
-/

set_option autoImplicit false

namespace ColorGraph.Decimal

structure Literal where
  negative : Bool
  whole : List Char
  fraction : List Char
  exponent : Int
deriving DecidableEq, Repr

namespace Literal

def toFloat (l : Literal) : Float :=
  let size := Decimal.toFloat ⟨ofFigures (l.whole ++ l.fraction), l.exponent - l.fraction.length⟩
  if l.negative then -size else size

def scanSign : List Char → Bool × List Char
  | '-' :: cs => (true, cs)
  | '+' :: cs => (false, cs)
  | cs => (false, cs)

/-- The figures after a point. A point is taken only when figures stand before or after it. -/
def scanFraction (whole : List Char) : List Char → List Char × List Char
  | '.' :: cs =>
    let fraction := cs.takeWhile Char.isDigit
    if whole.isEmpty && fraction.isEmpty then ([], '.' :: cs)
    else (fraction, cs.dropWhile Char.isDigit)
  | cs => ([], cs)

/-- An exponent. The mark is taken only when a figure follows it. -/
def scanExponent : List Char → Int × List Char
  | [] => (0, [])
  | c :: cs =>
    let (negative, rest) := scanSign cs
    let figures := rest.takeWhile Char.isDigit
    if (c = 'e' ∨ c = 'E') ∧ figures ≠ [] then
      let size : Int := ofFigures figures
      (if negative then -size else size, rest.dropWhile Char.isDigit)
    else (0, c :: cs)

def scan (cs : List Char) : Option (Literal × List Char) :=
  let (negative, r) := scanSign cs
  let whole := r.takeWhile Char.isDigit
  let (fraction, r) := scanFraction whole (r.dropWhile Char.isDigit)
  if whole.isEmpty && fraction.isEmpty then none
  else
    let (exponent, r) := scanExponent r
    some (⟨negative, whole, fraction, exponent⟩, r)

theorem scanSign_suffix (cs : List Char) : (scanSign cs).2 <:+ cs := by
  unfold scanSign
  split
  · exact List.suffix_cons _ _
  · exact List.suffix_cons _ _
  · exact List.suffix_refl _

theorem scanFraction_suffix (whole cs : List Char) : (scanFraction whole cs).2 <:+ cs := by
  unfold scanFraction
  split
  · dsimp only
    split
    · exact List.suffix_refl _
    · exact (List.dropWhile_suffix _).trans (List.suffix_cons _ _)
  · exact List.suffix_refl _

theorem scanExponent_suffix (cs : List Char) : (scanExponent cs).2 <:+ cs := by
  cases cs with
  | nil => exact List.suffix_refl _
  | cons c cs =>
    simp only [scanExponent]
    split
    · exact (List.dropWhile_suffix _).trans ((scanSign_suffix cs).trans (List.suffix_cons _ _))
    · exact List.suffix_refl _

end Literal

def leading? (text : String) : Option Float :=
  (Literal.scan (Text.trimStart text.toList)).map fun (l, _) => l.toFloat

def read? (cs : List Char) : Option Float :=
  match Literal.scan cs with
  | some (l, []) => some l.toFloat
  | _ => none

end ColorGraph.Decimal
