import ColorGraph.Text.HexFigure
/-!
Hexadecimal colors: `rgb` or `rrggbb` after an optional mark. Text is measured and cut in bytes,
so a cut may fall inside a character; reading then stops for good.
-/

set_option autoImplicit false

namespace ColorGraph

structure Rgb where
  red : Nat
  green : Nat
  blue : Nat
deriving DecidableEq, Repr

/-- The reason to stop: a text was to be cut inside a character. -/
structure SplitCharacter where
deriving DecidableEq, Repr

namespace Rgb

open Text (hexValue? hexByte)

def hexNumber? (cs : List Char) : Option Nat :=
  cs.foldl (fun n c => do pure (16 * (← n) + (← hexValue? c))) (some 0)

/-- A group of figures. A plus may stand before the first. -/
def group? : List Char → Option Nat
  | [] => none
  | [c] => hexValue? c
  | c :: cs => if c = '+' then hexNumber? cs else hexNumber? (c :: cs)

def byteLength (cs : List Char) : Nat :=
  cs.foldr (fun c n => c.utf8Size + n) 0

def cut (size : Nat) : List Char → Except SplitCharacter (List Char × List Char)
  | [] => pure ([], [])
  | c :: cs =>
    if size = 0 then pure ([], c :: cs)
    else if c.utf8Size ≤ size then do
      let (front, back) ← cut (size - c.utf8Size) cs
      pure (c :: front, back)
    else throw ⟨⟩

def groups (size : Nat) : Nat → List Char → Except SplitCharacter (Option (List Nat))
  | 0, _ => pure (some [])
  | count + 1, cs => do
    let (front, back) ← cut size cs
    match group? front with
    | none => pure none
    | some n => do
      let rest ← groups size count back
      pure (rest.map (n :: ·))

def read (cs : List Char) : Except SplitCharacter (Option Rgb) :=
  let figures :=
    match cs with
    | '#' :: rest => rest
    | cs => cs
  let length := byteLength figures
  if length = 3 then do
    match ← groups 1 3 figures with
    | some [r, g, b] => pure (some ⟨17 * r, 17 * g, 17 * b⟩)
    | _ => pure none
  else if length = 6 then do
    match ← groups 2 3 figures with
    | some [r, g, b] => pure (some ⟨r, g, b⟩)
    | _ => pure none
  else pure none

def text (c : Rgb) : String :=
  String.ofList ('#' :: hexByte c.red ++ hexByte c.green ++ hexByte c.blue)

end Rgb
end ColorGraph
