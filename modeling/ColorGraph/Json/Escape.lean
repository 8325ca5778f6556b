import ColorGraph.Json.Flaw
import ColorGraph.Text.HexFigure
/-!
The inside of JSON strings, written and read. A code point beyond 16 bits may be written as two
escaped halves, so reading goes through pieces that are characters or escaped 16-bit units.
-/

set_option autoImplicit false

namespace ColorGraph.Json

namespace Escape

open Text (hexValue?)

def encodeChar (c : Char) : List Char :=
  if c = '"' then ['\\', '"']
  else if c = '\\' then ['\\', '\\']
  else if c = '\x08' then ['\\', 'b']
  else if c = '\x0c' then ['\\', 'f']
  else if c = '\n' then ['\\', 'n']
  else if c = '\r' then ['\\', 'r']
  else if c = '\t' then ['\\', 't']
  else if c.toNat < 0x20 then
    ['\\', 'u', '0', '0'] ++ Text.hexByte c.toNat
  else [c]

def encode (cs : List Char) : List Char :=
  cs.flatMap encodeChar

def unit? (a b c d : Char) : Option Nat := do
  pure (4096 * (← hexValue? a) + 256 * (← hexValue? b) + 16 * (← hexValue? c) + (← hexValue? d))

def letter? (c : Char) : Option Char :=
  if c = '"' ∨ c = '\\' ∨ c = '/' then some c
  else if c = 'b' then some '\x08'
  else if c = 'f' then some '\x0c'
  else if c = 'n' then some '\n'
  else if c = 'r' then some '\r'
  else if c = 't' then some '\t'
  else none

inductive Piece where
  | char (c : Char)
  | unit (n : Nat)
deriving DecidableEq, Repr

inductive Stop where
  | cut
  | badHex
  | badLetter
  | control
deriving DecidableEq, Repr

namespace Stop

def flaw : Stop → Flaw
  | cut => .endInString
  | badHex | badLetter => .badEscape
  | control => .controlCharacter

def flawAfterHalf : Stop → Flaw
  | cut => .endInString
  | badHex => .badEscape
  | badLetter | control => .lonelyHalf

end Stop

/-- Fewer than four bytes after the `u` are the end of the text, whatever they are. -/
def shortHex (cs : List Char) : Stop :=
  if cs.foldr (fun c n => c.utf8Size + n) 0 < 4 then .cut else .badHex

def pieces : List Char → List Piece × Except Stop (List Char)
  | [] => ([], .error .cut)
  | c :: cs =>
    if c = '"' then ([], .ok cs)
    else if c = '\\' then
      match cs with
      | [] => ([], .error .cut)
      | e :: cs =>
        if e = 'u' then
          match cs with
          | h₁ :: h₂ :: h₃ :: h₄ :: cs =>
            match unit? h₁ h₂ h₃ h₄ with
            | none => ([], .error .badHex)
            | some n =>
              let (ps, ending) := pieces cs
              (.unit n :: ps, ending)
          | cs => ([], .error (shortHex cs))
        else
          match letter? e with
          | none => ([], .error .badLetter)
          | some d =>
            let (ps, ending) := pieces cs
            (.char d :: ps, ending)
    else if c.toNat < 0x20 then ([], .error .control)
    else
      let (ps, ending) := pieces cs
      (.char c :: ps, ending)

def isFirstHalf (n : Nat) : Bool :=
  0xD800 ≤ n && n ≤ 0xDBFF

def isSecondHalf (n : Nat) : Bool :=
  0xDC00 ≤ n && n ≤ 0xDFFF

def joined (n m : Nat) : Char :=
  Char.ofNat (0x10000 + 0x400 * (n - 0xD800) + (m - 0xDC00))

def assemble (stop : Option Stop) : List Piece → Except Flaw (List Char)
  | [] =>
    match stop with
    | none => pure []
    | some s => throw s.flaw
  | .char c :: ps => do pure (c :: (← assemble stop ps))
  | .unit n :: ps =>
    if isFirstHalf n then
      match ps with
      | [] => throw ((stop.map Stop.flawAfterHalf).getD .lonelyHalf)
      | .char _ :: _ => throw .lonelyHalf
      | .unit m :: ps => do
        if isSecondHalf m then pure (joined n m :: (← assemble stop ps))
        else throw .unpairedHalf
    else if isSecondHalf n then throw .unpairedHalf
    else do pure (Char.ofNat n :: (← assemble stop ps))

def decode (cs : List Char) : Except Fault (Except Flaw String × List Char) :=
  match pieces cs with
  | (ps, .ok rest) => pure ((assemble none ps).map String.ofList, rest)
  | (ps, .error stop) =>
    match assemble (some stop) ps with
    | .ok _ => throw (.both stop.flaw)
    | .error kept => throw ⟨kept, stop.flaw⟩

end Escape
end ColorGraph.Json
