import ColorGraph.Decimal.Layout
/-!
JSON values, and the members of an object kept in the order of their keys.
-/

set_option autoImplicit false

namespace ColorGraph

namespace Json

/-- A number keeps whether it was a whole number of at most 64 bits. -/
inductive Number where
  | int (n : Int)
  | float (x : Float)

namespace Number

def toFloat : Number → Float
  | .int n => Float.ofInt n
  | .float x => x

end Number
end Json

inductive Json where
  | null
  | bool (b : Bool)
  | number (n : Json.Number)
  | string (s : String)
  | array (items : List Json)
  | object (members : List (String × Json))

namespace Json

abbrev Members := List (String × Json)

namespace Members

def insert (key : String) (value : Json) : Members → Members
  | [] => [(key, value)]
  | (k, v) :: rest =>
    if key < k then (key, value) :: (k, v) :: rest
    else if key = k then (key, value) :: rest
    else (k, v) :: insert key value rest

def get? (key : String) (ms : Members) : Option Json :=
  (ms.find? (·.1 == key)).map (·.2)

end Members

def ofFloat (x : Float) : Json :=
  if x.isFinite then .number (.float x) else .null

def isNull : Json → Bool
  | .null => true
  | _ => false

end Json
end ColorGraph
