import ColorGraph.Decimal.Basic
import ColorGraph.Json.Basic
import ColorGraph.Json.Flaw
/-!
Numbers in JSON text: their form, and the value a reader that keeps them gives them. Values go
through a significand of 64 bits and one scaling by a power of ten, so they need not be the
nearest ones.
-/

set_option autoImplicit false

namespace ColorGraph.Json

attribute [local instance (2000)] instPowNat

structure Numeral where
  negative : Bool
  whole : List Char
  fraction : Option (List Char)
  exponent : Option (Bool × List Char)
deriving DecidableEq, Repr

namespace Numeral

/-- A figure had to follow. A reader that skips does not tell the end of the text apart. -/
def noFigure (rest : List Char) : Fault :=
  if rest.isEmpty then ⟨.endInValue, .badNumber⟩ else .both .badNumber

def scanWhole : List Char → Except Fault (List Char × List Char)
  | [] => throw (noFigure [])
  | c :: cs =>
    if c = '0' then
      if (cs.takeWhile Char.isDigit).isEmpty then pure (['0'], cs) else throw (.both .badNumber)
    else if c.isDigit then pure ((c :: cs).takeWhile Char.isDigit, cs.dropWhile Char.isDigit)
    else throw (.both .badNumber)

def scanFraction : List Char → Except Fault (Option (List Char) × List Char)
  | [] => pure (none, [])
  | c :: cs =>
    if c = '.' then
      let figures := cs.takeWhile Char.isDigit
      if figures.isEmpty then throw (noFigure cs)
      else pure (some figures, cs.dropWhile Char.isDigit)
    else pure (none, c :: cs)

def scanPower (negative : Bool) (cs : List Char) :
    Except Fault (Option (Bool × List Char) × List Char) :=
  let figures := cs.takeWhile Char.isDigit
  if figures.isEmpty then throw (noFigure cs)
  else pure (some (negative, figures), cs.dropWhile Char.isDigit)

def scanExponent : List Char → Except Fault (Option (Bool × List Char) × List Char)
  | [] => pure (none, [])
  | c :: cs =>
    if c = 'e' ∨ c = 'E' then
      match cs with
      | '+' :: cs => scanPower false cs
      | '-' :: cs => scanPower true cs
      | cs => scanPower false cs
    else pure (none, c :: cs)

def scan (negative : Bool) (cs : List Char) : Except Fault (Numeral × List Char) := do
  let (whole, cs) ← scanWhole cs
  let (fraction, cs) ← scanFraction cs
  let (exponent, cs) ← scanExponent cs
  pure (⟨negative, whole, fraction, exponent⟩, cs)

def figure (c : Char) : Nat :=
  c.toNat - '0'.toNat

def maxSignificand : Nat := 2 ^ (64 : Nat) - 1

structure Reading where
  significand : Nat
  power : Int
  full : Bool
deriving DecidableEq, Repr

namespace Reading

def fits (r : Reading) (c : Char) : Bool :=
  !r.full && 10 * r.significand + figure c ≤ maxSignificand

/-- Figures before the point that do not fit count as zeros. -/
def whole (r : Reading) (c : Char) : Reading :=
  if r.fits c then { r with significand := 10 * r.significand + figure c }
  else { r with power := r.power + 1, full := true }

/-- Figures after the point that do not fit are dropped. -/
def fraction (r : Reading) (c : Char) : Reading :=
  if r.fits c then
    { r with significand := 10 * r.significand + figure c, power := r.power - 1 }
  else { r with full := true }

end Reading

def maxPower : Int := 2 ^ (31 : Nat) - 1

def largePower : Float := Float.ofScientific 1 false 308

/-- Steps of `10 ^ 308` down, then the rest in one. Zero needs no more than it takes to see it. -/
def scaleDown : Nat → Float → Nat → Float
  | 0, x, _ => x
  | steps + 1, x, n =>
    if n ≤ 308 then x / Float.ofScientific 1 false n
    else if x == 0.0 then x
    else scaleDown steps (x / largePower) (n - 308)

def scale (x : Float) (power : Int) : Option Float :=
  if 0 ≤ power then
    if 308 < power then if x == 0.0 then some x else none
    else
      let y := x * Float.ofScientific 1 false power.toNat
      if y.isInf then none else some y
  else some (scaleDown 5 x power.natAbs)

def signed (negative : Bool) (x : Float) : Float :=
  if negative then -x else x

/-- A whole number that 64 bits hold, with a sign or without; the negative zero is none. -/
def toInt? (n : Numeral) (r : Reading) : Option Int :=
  if n.fraction.isSome || n.exponent.isSome || r.full then none
  else if !n.negative then some r.significand
  else if r.significand = 0 ∨ 2 ^ (63 : Nat) < r.significand then none
  else some (-(r.significand : Int))

def reading (n : Numeral) : Reading :=
  let r := n.whole.foldl Reading.whole ⟨0, 0, false⟩
  match n.fraction with
  | none => r
  | some figures => figures.foldl Reading.fraction { r with full := false }

def value (n : Numeral) : Option Number :=
  let r := n.reading
  match n.toInt? r with
  | some i => some (.int i)
  | none =>
    let x := Float.ofNat r.significand
    let size :=
      match n.exponent with
      | none => scale x r.power
      | some (negative, figures) =>
        let e : Int := Decimal.ofFigures figures
        if maxPower < e then if negative ∨ r.significand = 0 then some 0.0 else none
        else scale x (r.power + if negative then -e else e)
    size.map fun y => .float (signed n.negative y)

end Numeral
end ColorGraph.Json
