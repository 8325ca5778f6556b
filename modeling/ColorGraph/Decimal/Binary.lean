/-!
The exact value of a binary64 number, and the operations on such numbers that go through it:
rounding down and up, remainders, and a product and sum rounded once.
-/

set_option autoImplicit false

namespace ColorGraph

attribute [local instance (2000)] instPowNat

/-- The value `mantissa * 2 ^ exponent` with a sign; zero has one too. -/
structure Binary where
  negative : Bool
  mantissa : Nat
  exponent : Int
deriving DecidableEq, Repr

namespace Binary

def ofFloat? (x : Float) : Option Binary :=
  let bits := x.toBits.toNat
  let field : Nat := bits / 2 ^ (52 : Nat) % 2 ^ (11 : Nat)
  let fraction := bits % 2 ^ (52 : Nat)
  let negative := bits / 2 ^ (63 : Nat) == 1
  if field = 2 ^ (11 : Nat) - 1 then none
  else if field = 0 then some ⟨negative, fraction, -1074⟩
  else some ⟨negative, 2 ^ (52 : Nat) + fraction, (field : Int) - 1075⟩

def isNarrowBelow (x : Binary) : Bool :=
  x.mantissa == 2 ^ (52 : Nat) && -1074 < x.exponent

theorem isNarrowBelow_iff {x : Binary} :
    x.isNarrowBelow = true ↔ x.mantissa = 2 ^ (52 : Nat) ∧ -1074 < x.exponent := by
  simp [isNarrowBelow]

def ratio (x : Binary) (e : Int) : Nat × Nat :=
  (x.mantissa * 2 ^ x.exponent.toNat * 10 ^ (-e).toNat, 2 ^ (-x.exponent).toNat * 10 ^ e.toNat)

theorem ratio_den_pos (x : Binary) (e : Int) : 0 < (x.ratio e).2 :=
  Nat.mul_pos (Nat.pow_pos (by decide)) (Nat.pow_pos (by decide))

def isBelow (x : Binary) (e : Int) : Bool :=
  (x.ratio e).1 < (x.ratio e).2

/-- The least `k` with the magnitude below `10 ^ k`. The binary logarithm times `log 2` misses it
by at most two, and never from above. -/
def magnitude (x : Binary) : Int :=
  let k := ((x.mantissa.log2 + x.exponent) * 1233).fdiv 4096
  if x.isBelow k then k
  else if x.isBelow (k + 1) then k + 1
  else k + 2

def toFloat (x : Binary) : Float :=
  let size :=
    if x.exponent < 0 then
      let k := (-x.exponent).toNat
      Float.ofScientific (x.mantissa * 5 ^ k) true k
    else Float.ofScientific (x.mantissa * 2 ^ x.exponent.toNat) false 0
  if x.negative then -size else size

def scaledTo (x : Binary) (e : Int) : Int :=
  let m : Int := x.mantissa * 2 ^ (x.exponent - e).toNat
  if x.negative then -m else m

def toInt? (x : Binary) : Option Int :=
  let unit := 2 ^ (-x.exponent).toNat
  if x.mantissa % unit = 0 then
    let n : Int := x.mantissa / unit * 2 ^ x.exponent.toNat
    some (if x.negative then -n else n)
  else none

end Binary

def floor (x : Float) : Float :=
  match Binary.ofFloat? x with
  | none => x
  | some b =>
    if b.mantissa = 0 ∨ 0 ≤ b.exponent then x
    else
      let unit := 2 ^ (-b.exponent).toNat
      if b.negative then -Float.ofNat ((b.mantissa + unit - 1) / unit)
      else Float.ofNat (b.mantissa / unit)

def ceil (x : Float) : Float :=
  -floor (-x)

def notANumber : Float := 0.0 / 0.0

/-- What is left of `x` after whole steps of `n` toward zero, with the sign of `x`. -/
def remainder (x : Float) (n : Nat) : Float :=
  match Binary.ofFloat? x with
  | none => notANumber
  | some b =>
    let left :=
      if b.exponent < 0 then
        { b with mantissa := b.mantissa % (n * 2 ^ (-b.exponent).toNat) }
      else { b with mantissa := b.mantissa * 2 ^ b.exponent.toNat % n, exponent := 0 }
    left.toFloat

def wrapped (x : Float) (n : Nat) : Float :=
  let r := remainder x n
  if r < 0.0 then r + Float.ofNat n else r

def mulAdd (x y z : Float) : Float :=
  match Binary.ofFloat? x, Binary.ofFloat? y, Binary.ofFloat? z with
  | some a, some b, some c =>
    let e := min (a.exponent + b.exponent) c.exponent
    let product : Binary := ⟨a.negative != b.negative, a.mantissa * b.mantissa,
      a.exponent + b.exponent⟩
    let sum := product.scaledTo e + c.scaledTo e
    if sum = 0 then x * y + z
    else Binary.toFloat ⟨decide (sum < 0), sum.natAbs, e⟩
  | _, _, _ => x * y + z

def clamp (x low high : Float) : Float :=
  let x := if x < low then low else x
  if high < x then high else x

end ColorGraph
