import ColorGraph.Color.Notation
import ColorGraph.Graph.Basic
import ColorGraph.Json.Record
/-!
The values that previews show, how operations compute them, and their JSON form.
-/

set_option autoImplicit false

namespace ColorGraph

inductive Preview where
  | number (x : Float)
  | color (text : String)

namespace Preview

def text : Preview → String
  | number x => Decimal.plain.text x
  | color t => t

def label : Preview → Except SplitCharacter String
  | number x => pure (Decimal.plain.text x)
  | color t => do
    match ← Color.read t with
    | .ok c => pure c.label
    | .error _ => pure t

def toNumber : Preview → Float
  | number x => x
  | color t => (Decimal.leading? t).getD 0.0

def toJson : Preview → Json
  | number x => .ofFloat x
  | color t => .string t

open Json in
def readDraft (depth : Nat) (d : Draft) : Read Preview := do
  match ← Flaw.lift (d.keep depth) with
  | .number n => pure (.number n.toFloat)
  | .string s => pure (.color s)
  | _ => throw (.mismatch (.noVariant "PreviewValue"))

def recolor (change : Color → Color) (t : String) : Except SplitCharacter Preview := do
  match ← Color.read t with
  | .ok c => pure (color (change c).text)
  | .error _ => pure (color t)

/-- Halfway between two colors; the first when either is unreadable. -/
def blend (a b : String) : Except SplitCharacter Preview := do
  match ← Color.read a, ← Color.read b with
  | .ok x, .ok y => pure (color (x.mix y 0.5).text)
  | _, _ => pure (color a)

def adjust (op : Operation) (amount : Float) (c : Color) : Color :=
  match op with
  | .lighten => c.withLightness (c.lightness + amount)
  | .darken => c.withLightness (c.lightness - amount)
  | .saturate => c.withChroma (c.chroma + amount)
  | .desaturate => c.withChroma (c.chroma - amount)
  | _ => c.withHue (c.hue + amount)

/-- Dividing by zero gives zero. -/
def compute (op : Operation) (x y : Float) : Float :=
  match op with
  | .add => x + y
  | .subtract => x - y
  | .multiply => x * y
  | _ => if y == 0.0 then 0.0 else x / y

def recolorOnly (change : Color → Color) :
    Option Preview → Except SplitCharacter (Option Preview)
  | some (color t) => do pure (some (← recolor change t))
  | _ => pure none

def operate (op : Operation) (a b : Option Preview) : Except SplitCharacter (Option Preview) :=
  match op.defaultAmount, op.defaultOperands with
  | some amount, _ => recolorOnly (adjust op ((b.map toNumber).getD amount)) a
  | none, some (first, second) =>
    pure (some (number (compute op ((a.map toNumber).getD first) ((b.map toNumber).getD second))))
  | none, none =>
    match op with
    | .mix =>
      match a, b with
      | some (color a), some (color b) => do pure (some (← blend a b))
      | a, b => pure (a.or b)
    | .invert => recolorOnly (fun c => c.withLightness (1.0 - c.lightness)) a
    | _ => recolorOnly (fun c => c.withHue (c.hue + 180.0)) a

def apply (op : Operation) (inputs : List (Option Preview)) :
    Except SplitCharacter (Option Preview) :=
  operate op inputs[0]?.join inputs[1]?.join

end Preview
end ColorGraph
