import ColorGraph.Json.Basic
import ColorGraph.Json.Escape
/-!
JSON values as text: on one line, or indented by two spaces a level. Members are written in the
order they stand.
-/

set_option autoImplicit false

namespace ColorGraph.Json

/-- Floats are written positionally from `0.00001` to below `10 ^ 16` and keep a point. -/
def floatLayout : Decimal.Layout where
  tie := .toEven
  isPositional point := -5 < point && point ≤ 16
  keepsPoint := true

def Number.text : Number → String
  | .int n => toString n
  | .float x => floatLayout.text x

def stringChars (s : String) : List Char :=
  '"' :: Escape.encode s.toList ++ ['"']

def Number.chars (n : Number) : List Char :=
  n.text.toList

mutual

def chars : Json → List Char
  | .null => "null".toList
  | .bool true => "true".toList
  | .bool false => "false".toList
  | .number n => n.chars
  | .string s => stringChars s
  | .array items => '[' :: itemsChars items ++ [']']
  | .object members => '\x7b' :: membersChars members ++ ['\x7d']

def itemsChars : List Json → List Char
  | [] => []
  | v :: vs => v.chars ++ moreItemsChars vs

def moreItemsChars : List Json → List Char
  | [] => []
  | v :: vs => ',' :: v.chars ++ moreItemsChars vs

def membersChars : List (String × Json) → List Char
  | [] => []
  | (k, v) :: ms => stringChars k ++ ':' :: v.chars ++ moreMembersChars ms

def moreMembersChars : List (String × Json) → List Char
  | [] => []
  | (k, v) :: ms => ',' :: stringChars k ++ ':' :: v.chars ++ moreMembersChars ms

end

def text (v : Json) : String :=
  String.ofList v.chars

def newLine (level : Nat) : List Char :=
  '\n' :: List.replicate (2 * level) ' '

mutual

def prettyChars (level : Nat) : Json → List Char
  | .array (v :: vs) =>
    '[' :: newLine (level + 1) ++ v.prettyChars (level + 1) ++ prettyItems (level + 1) vs ++
      newLine level ++ [']']
  | .object ((k, v) :: ms) =>
    '\x7b' :: newLine (level + 1) ++ stringChars k ++ ": ".toList ++ v.prettyChars (level + 1) ++
      prettyMembers (level + 1) ms ++ newLine level ++ ['\x7d']
  | .array [] => ['[', ']']
  | .object [] => ['\x7b', '\x7d']
  | .null => "null".toList
  | .bool true => "true".toList
  | .bool false => "false".toList
  | .number n => n.chars
  | .string s => stringChars s

def prettyItems (level : Nat) : List Json → List Char
  | [] => []
  | v :: vs => ',' :: newLine level ++ v.prettyChars level ++ prettyItems level vs

def prettyMembers (level : Nat) : List (String × Json) → List Char
  | [] => []
  | (k, v) :: ms =>
    ',' :: newLine level ++ stringChars k ++ ": ".toList ++ v.prettyChars level ++
      prettyMembers level ms

end

def prettyText (v : Json) : String :=
  String.ofList (v.prettyChars 0)

end ColorGraph.Json
