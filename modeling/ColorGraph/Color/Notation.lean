import ColorGraph.Color.Srgb
import ColorGraph.Decimal.Layout
import ColorGraph.Decimal.Literal
/-!
Colors as text: read from `oklch(L C H)`, `oklch(L C H / A)` or a hexadecimal color, and written
with five figures to a channel.
-/

set_option autoImplicit false

namespace ColorGraph.Color

inductive ParseError where
  | empty
  | unsupportedFormat (text : String)
  | invalidChannel (text : String)
  | hex (text : String)
deriving DecidableEq, Repr

namespace ParseError

def message : ParseError → String
  | empty => "Empty color string"
  | unsupportedFormat text => "Unsupported color format: " ++ text
  | invalidChannel text => "Invalid color channel: " ++ text
  | hex text => "Invalid hex color: " ++ text

end ParseError

abbrev Outcome := Except ParseError Color

def readHex (text : String) : Except SplitCharacter Outcome := do
  match ← Rgb.read (Text.trim text.toList) with
  | some rgb => pure (.ok (ofRgb rgb))
  | none => pure (.error (.hex text))

def readNumber (token : List Char) : Except ParseError Float :=
  match (Decimal.read? token).filter Float.isFinite with
  | some x => pure x
  | none => throw (.invalidChannel (String.ofList token))

def readChannel (all : Float) (token : List Char) : Except ParseError Float :=
  if token = "none".toList then pure 0.0
  else
    match "%".toList.isSuffixOf? token with
    | some share => do pure ((← readNumber share) / 100.0 * all)
    | none => readNumber token

/-- The units of an angle, and degrees from each. The first that ends the text is taken. -/
def angleUnits : List (String × (Float → Float)) :=
  [("deg", id), ("grad", (· * 0.9)), ("rad", (· * (180.0 / pi))), ("turn", (· * 360.0))]

def readAngle (token : List Char) : Except ParseError Float :=
  if token = "none".toList then pure 0.0
  else
    let unit := angleUnits.findSome? fun (name, degrees) =>
      (name.toList.isSuffixOf? token).map fun amount => (amount, degrees)
    match unit with
    | some (amount, degrees) => do pure (degrees (← readNumber amount))
    | none => readNumber token

def body? (text : List Char) : Option (List Char) := do
  let rest ← "oklch(".toList.isPrefixOf? (text.map Char.toLower)
  ")".toList.isSuffixOf? rest

def readAlpha (body : List Char) : Except ParseError Float :=
  match body.dropWhile (· != '/') with
  | [] => pure 1.0
  | _ :: token => do pure (clamp (← readChannel 1.0 (Text.trim token)) 0.0 1.0)

def readBody (body : List Char) : Except ParseError Color :=
  let channels := body.takeWhile (· != '/')
  match Text.words channels with
  | [l, c, h] => do
    let alpha ← readAlpha body
    let lightness ← readChannel 1.0 l
    let chroma ← readChannel maxChroma c
    let angle ← readAngle h
    pure { lightness, chroma, angle, alpha }
  | _ => throw (.invalidChannel (String.ofList (Text.trim channels)))

def read (text : String) : Except SplitCharacter Outcome :=
  match Text.trim text.toList with
  | [] => pure (.error .empty)
  | '#' :: cs => readHex (String.ofList ('#' :: cs))
  | cs =>
    match body? cs with
    | some body => pure (readBody body)
    | none => pure (.error (.unsupportedFormat (String.ofList cs)))

def channelText (x : Float) : String :=
  Decimal.plain.text (Decimal.significant x 5)

def text (c : Color) (ends : TurnEnds := .zeroed) : String :=
  "oklch(" ++ channelText (c.lightness * 100.0) ++ "% " ++ channelText c.chroma ++ " " ++
    channelText (c.hue ends) ++
    (if c.alpha < 1.0 then " / " ++ channelText c.alpha else "") ++ ")"

def labelNumber (x : Float) : String :=
  match Binary.ofFloat? x with
  | none => "0.00"
  | some b =>
    if b.mantissa = 0 then "0.00"
    else
      let rounded := Decimal.significant x 3
      match Binary.ofFloat? rounded with
      | none => Decimal.plain.text rounded
      | some r => Decimal.fixedText (2 - Decimal.leadingPower r).toNat rounded

def label (c : Color) (ends : TurnEnds := .zeroed) : String :=
  "oklch(" ++ labelNumber c.lightness ++ " " ++ labelNumber c.chroma ++ " " ++
    Decimal.fixedText 0 (c.hue ends) ++ ")"

def fallbackHex : String := "#808080"

def hexOf (text : String) : Except SplitCharacter String := do
  match ← read text with
  | .ok c => pure c.hexText
  | .error _ => pure fallbackHex

end ColorGraph.Color
