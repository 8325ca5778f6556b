import ColorGraph.Color.Hex
import ColorGraph.Decimal.Literal
/-!
The number at the front of a text, found by places in its bytes: the text is cut after the last byte
of the number, and what is cut off is read as a whole.
-/

set_option autoImplicit false

namespace ColorGraph

def Text.bytes (cs : List Char) : List UInt8 :=
  cs.flatMap String.utf8EncodeChar

namespace Decimal.Bytes

def isFigure (b : UInt8) : Bool :=
  0x30 ≤ b && b ≤ 0x39

def afterFigures (bytes : List UInt8) (i : Nat) : Nat :=
  i + ((bytes.drop i).takeWhile isFigure).length

def afterSign (bytes : List UInt8) (i : Nat) : Nat :=
  if bytes[i]? = some 0x2B ∨ bytes[i]? = some 0x2D then i + 1 else i

def afterMantissa (bytes : List UInt8) (i : Nat) : Nat × Nat :=
  let whole := afterFigures bytes i
  if bytes[whole]? = some 0x2E then
    let fraction := afterFigures bytes (whole + 1)
    if i < whole ∨ whole + 1 < fraction then (fraction, (whole - i) + (fraction - (whole + 1)))
    else (whole, whole - i)
  else (whole, whole - i)

def afterExponent (bytes : List UInt8) (i : Nat) : Nat :=
  if bytes[i]? = some 0x65 ∨ bytes[i]? = some 0x45 then
    let figures := afterSign bytes (i + 1)
    if figures < afterFigures bytes figures then afterFigures bytes figures else i
  else i

def numberSize? (bytes : List UInt8) : Option Nat :=
  let (mantissa, figures) := afterMantissa bytes (afterSign bytes 0)
  if figures = 0 then none else some (afterExponent bytes mantissa)

end Bytes

def cutLeading? (text : String) : Except SplitCharacter (Option Float) :=
  let cs := Text.trimStart text.toList
  match Bytes.numberSize? (Text.bytes cs) with
  | none => pure none
  | some size => do
    let (number, _) ← Rgb.cut size cs
    pure (read? number)

end Decimal
end ColorGraph
