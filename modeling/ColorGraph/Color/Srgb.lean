import ColorGraph.Color.Basic
import ColorGraph.Color.Hex
import ColorGraph.Decimal.Root
/-!
Between screen colors and colors by lightness, chroma and hue, by way of linear light and cone
responses.
-/

set_option autoImplicit false

namespace ColorGraph.Color

def pi : Float := 3.141592653589793

structure Triple where
  x : Float
  y : Float
  z : Float

namespace Triple

def map (f : Float → Float) (t : Triple) : Triple :=
  ⟨f t.x, f t.y, f t.z⟩

def dot (w t : Triple) : Float :=
  w.x * t.x + w.y * t.y + w.z * t.z

def apply (t a b c : Triple) : Triple :=
  ⟨a.dot t, b.dot t, c.dot t⟩

end Triple

def linearLight (v : Float) : Float :=
  if v ≤ 0.04045 then (1.0 / 12.92) * v
  else Float.pow (mulAdd v (1.0 / 1.055) (0.055 / 1.055)) 2.4

def encodedLight (x : Float) : Float :=
  if x ≤ 0.0031308 then 12.92 * x
  else Float.pow x (1.0 / 2.4) * 1.055 - 0.055

def cones (rgb : Triple) : Triple :=
  rgb.apply ⟨0.4122214708, 0.5363325363, 0.0514459929⟩
    ⟨0.2119034982, 0.6806995451, 0.1073969566⟩ ⟨0.0883024619, 0.2817188376, 0.6299787005⟩

def light (lms : Triple) : Triple :=
  lms.apply ⟨4.0767416621, -3.3077115913, 0.2309699292⟩
    ⟨-1.2684380046, 2.6097574011, -0.3413193965⟩ ⟨-0.0041960863, -0.7034186147, 1.7076147010⟩

def opponents (lms : Triple) : Triple :=
  lms.apply ⟨0.2104542553, 0.7936177850, -0.0040720468⟩
    ⟨1.9779984951, -2.4285922050, 0.4505937099⟩ ⟨0.0259040371, 0.7827717662, -0.8086757660⟩

def responses (lab : Triple) : Triple :=
  lab.apply ⟨1.0, 0.3963377774, 0.2158037573⟩ ⟨1.0, -0.1055613458, -0.0638541728⟩
    ⟨1.0, -0.0894841775, -1.2914855480⟩

def ofRgb (rgb : Rgb) : Color :=
  let decode (n : Nat) := linearLight (Float.ofNat n * (1.0 / 255.0))
  let lab := opponents ((cones ⟨decode rgb.red, decode rgb.green, decode rgb.blue⟩).map cubeRoot)
  { lightness := lab.x
    chroma := diagonal lab.y lab.z
    angle := (pi + Float.atan2 (-lab.z) (-lab.y)) * (180.0 / pi)
    alpha := 1.0 }

/-- The nearest of 256 steps, a half going to the even one; no number is full. -/
def toByte (x : Float) : Nat :=
  match Binary.ofFloat? (clamp x 0.0 1.0 * 255.0) with
  | none => 255
  | some b => Decimal.roundDiv (b.ratio 0).1 (b.ratio 0).2

def toRgb (c : Color) : Rgb :=
  let size := if c.chroma > 0.0 then c.chroma else 0.0
  let turn := c.angle * (pi / 180.0)
  let lms := responses ⟨c.lightness, Float.cos turn * size, Float.sin turn * size⟩
  let rgb := (light (lms.map fun x => x * x * x)).map encodedLight
  ⟨toByte rgb.x, toByte rgb.y, toByte rgb.z⟩

def hexText (c : Color) : String :=
  c.toRgb.text

end ColorGraph.Color
