/-!
Decimal fractions: figures scaled by a power of ten, and the binary64 value nearest to one.
-/

set_option autoImplicit false

namespace ColorGraph

structure Decimal where
  digits : Nat
  exponent : Int
deriving DecidableEq, Repr

namespace Decimal

def figureCount (n : Nat) : Nat :=
  (Nat.toDigits 10 n).length

def infinity : Float := 1.0 / 0.0

/-- The nearest binary64 value, ties to even. Whatever reaches `10 ^ 310` is infinite and whatever
stays below `10 ^ -330` is zero, so no larger power of ten is ever formed. -/
def toFloat (d : Decimal) : Float :=
  let top := d.exponent + figureCount d.digits
  if d.digits = 0 then 0.0
  else if 310 < top then infinity
  else if top < -330 then 0.0
  else if d.exponent < 0 then Float.ofScientific d.digits true (-d.exponent).toNat
  else Float.ofScientific d.digits false d.exponent.toNat

/-- The figures from the first to the last that is not zero, and how many of them stand before
the point (a negative count is zeros after the point). -/
def figures (d : Decimal) : List Char × Int :=
  let cs := Nat.toDigits 10 d.digits
  ((cs.reverse.dropWhile (· == '0')).reverse, d.exponent + cs.length)

def ofFigures (cs : List Char) : Nat :=
  cs.foldl (fun n c => 10 * n + (c.toNat - '0'.toNat)) 0

end Decimal
end ColorGraph
