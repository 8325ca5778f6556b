/-!
The operations of a color graph, their tags, and what stands in for an input that is missing.
Previews and style sheets have their own fallbacks for arithmetic.
-/

set_option autoImplicit false

namespace ColorGraph

inductive Operation where
  | lighten
  | darken
  | saturate
  | desaturate
  | rotate
  | mix
  | invert
  | complementary
  | add
  | subtract
  | multiply
  | divide
deriving DecidableEq, Repr

namespace Operation

def tag : Operation → String
  | lighten => "lighten"
  | darken => "darken"
  | saturate => "saturate"
  | desaturate => "desaturate"
  | rotate => "rotate"
  | mix => "mix"
  | invert => "invert"
  | complementary => "complementary"
  | add => "add"
  | subtract => "subtract"
  | multiply => "multiply"
  | divide => "divide"

def all : List Operation :=
  [lighten, darken, saturate, desaturate, rotate, mix, invert, complementary, add, subtract,
    multiply, divide]

def ofTag? (tag : String) : Option Operation :=
  all.find? (·.tag == tag)

theorem ofTag?_tag (op : Operation) : ofTag? op.tag = some op := by
  cases op <;> decide

/-- Two opposite operations that a stored flag chooses between, whatever the tag says. -/
structure Pair where
  flag : String
  unset : Operation
  set : Operation
deriving DecidableEq, Repr

def pair? : Operation → Option Pair
  | lighten | darken => some ⟨"isDarken", lighten, darken⟩
  | saturate | desaturate => some ⟨"isDesaturate", saturate, desaturate⟩
  | add | subtract => some ⟨"isSubtract", add, subtract⟩
  | multiply | divide => some ⟨"isDivide", multiply, divide⟩
  | rotate | mix | invert | complementary => none

def Pair.choose (p : Pair) (declared : Operation) : Option Bool → Operation
  | some true => p.set
  | some false => p.unset
  | none => declared

def defaultAmount : Operation → Option Float
  | rotate => some 30.0
  | lighten | darken | saturate | desaturate => some 0.1
  | _ => none

def defaultOperands : Operation → Option (Float × Float)
  | add | subtract => some (0.0, 0.0)
  | multiply => some (1.0, 1.0)
  | divide => some (0.0, 1.0)
  | _ => none

def cssOperands : Operation → Option (String × String)
  | add | subtract => some ("0", "0")
  | multiply | divide => some ("0", "1")
  | _ => none

def isAdjustment (op : Operation) : Bool :=
  op.defaultAmount.isSome

def isArithmetic (op : Operation) : Bool :=
  op.defaultOperands.isSome

end Operation
end ColorGraph
