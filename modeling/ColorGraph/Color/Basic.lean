import ColorGraph.Decimal.Rounding
/-!
Colors by lightness, chroma, hue and opacity, and the changes that operations make to them.
-/

set_option autoImplicit false

namespace ColorGraph

structure Color where
  lightness : Float
  chroma : Float
  angle : Float
  alpha : Float

namespace Color

def maxChroma : Float := 0.4

def leastNormal : Float := Float.ofScientific 22250738585072014 true 324

def wholeTurns (x : Float) : Float :=
  floor (x / 360.0) * 360.0

/-- What becomes of a remainder that is rounded up to a full turn, or is too small for full
precision. The bare formula keeps it, and so `-1e-30` has the hue `360`; the color library that is
linked has been observed to give `0` for it. -/
inductive TurnEnds where
  | kept
  | zeroed

def TurnEnds.settle : TurnEnds → Float → Float
  | kept, rest => rest
  | zeroed, rest => if rest ≥ 360.0 || (rest != 0.0 && rest.abs < leastNormal) then 0.0 else rest

def wrapAngle (ends : TurnEnds) (x : Float) : Float :=
  ends.settle (x - wholeTurns x)

def hue (c : Color) (ends : TurnEnds := .zeroed) : Float :=
  wrapAngle ends c.angle

def withLightness (c : Color) (x : Float) (ends : TurnEnds := .zeroed) : Color :=
  { c with lightness := clamp x 0.0 1.0, angle := c.hue ends }

def withChroma (c : Color) (x : Float) (ends : TurnEnds := .zeroed) : Color :=
  { c with chroma := clamp x 0.0 maxChroma, angle := c.hue ends }

def withHue (c : Color) (x : Float) : Color :=
  { c with angle := wrapped x 360 }

def between (x y factor : Float) : Float :=
  x + (y - x) * factor

def shorterArc (start finish : Float) : Float :=
  let d := finish - start
  d - ceil ((d + 180.0) / 360.0 - 1.0) * 360.0

def mix (a b : Color) (factor : Float) : Color :=
  let f := clamp factor 0.0 1.0
  { lightness := between a.lightness b.lightness f
    chroma := between a.chroma b.chroma f
    angle := a.angle + shorterArc a.angle b.angle * f
    alpha := a.alpha + f * (b.alpha - a.alpha) }

end Color
end ColorGraph
