/-!
What can be wrong with JSON text.
-/

set_option autoImplicit false

namespace ColorGraph.Json

inductive Flaw where
  | endInValue
  | endInObject
  | endInList
  | endInString
  | noValue
  | badWord
  | noColon
  | noObjectComma
  | noListComma
  | trailingComma
  | keyNotString
  | trailingText
  | badNumber
  | numberRange
  | badEscape
  | lonelyHalf
  | unpairedHalf
  | controlCharacter
  | tooDeep
deriving DecidableEq, Repr

namespace Flaw

def isEnd : Flaw → Bool
  | endInValue | endInObject | endInList | endInString => true
  | _ => false

def message : Flaw → String
  | endInValue => "EOF while parsing a value"
  | endInObject => "EOF while parsing an object"
  | endInList => "EOF while parsing a list"
  | endInString => "EOF while parsing a string"
  | noValue => "expected value"
  | badWord => "expected ident"
  | noColon => "expected `:`"
  | noObjectComma => "expected `,` or `\x7d`"
  | noListComma => "expected `,` or `]`"
  | trailingComma => "trailing comma"
  | keyNotString => "key must be a string"
  | trailingText => "trailing characters"
  | badNumber => "invalid number"
  | numberRange => "number out of range"
  | badEscape => "invalid escape"
  | lonelyHalf => "unexpected end of hex escape"
  | unpairedHalf => "lone leading surrogate in hex escape"
  | controlCharacter => "control character (\\u0000-\\u001F) found while parsing a string"
  | tooDeep => "recursion limit exceeded"

end Flaw

/-- A flaw in the text's form, as a reader that keeps the value meets it and as one that only
skips it does. -/
structure Fault where
  kept : Flaw
  skipped : Flaw
deriving DecidableEq, Repr

namespace Fault

def both (f : Flaw) : Fault :=
  ⟨f, f⟩

end Fault
end ColorGraph.Json
