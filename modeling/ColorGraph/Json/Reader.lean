import ColorGraph.Json.Draft
import ColorGraph.Json.Escape
import ColorGraph.Json.Numeral
/-!
From JSON text to a draft. Each reader gives what it read and, unless the text broke off in it,
the text that follows.
-/

set_option autoImplicit false

namespace ColorGraph.Json

namespace Reader

def isBlank (c : Char) : Bool :=
  c == ' ' || c == '\n' || c == '\t' || c == '\r'

def skipBlank (cs : List Char) : List Char :=
  cs.dropWhile isBlank

def word (value : Draft) : List Char → List Char → Draft × Option (List Char)
  | [], cs => (value, some cs)
  | _ :: _, [] => (.misspelt (.both .endInValue), none)
  | w :: ws, c :: cs =>
    if w = c then word value ws cs else (.misspelt (.both .badWord), none)

def string (cs : List Char) : Draft × Option (List Char) :=
  match Escape.decode cs with
  | .ok (s, rest) => (.string s, some rest)
  | .error fault => (.broken fault, none)

def number (negative : Bool) (cs : List Char) : Draft × Option (List Char) :=
  match Numeral.scan negative cs with
  | .ok (n, rest) => (.number n.value, some rest)
  | .error fault => (.misspelt fault, none)

mutual

def value : Nat → List Char → Draft × Option (List Char)
  | 0, _ => (.broken (.both .endInValue), none)
  | fuel + 1, cs =>
    match skipBlank cs with
    | [] => (.broken (.both .endInValue), none)
    | c :: cs =>
      if c = 'n' then word .null ['u', 'l', 'l'] cs
      else if c = 't' then word (.bool true) ['r', 'u', 'e'] cs
      else if c = 'f' then word (.bool false) ['a', 'l', 's', 'e'] cs
      else if c = '-' then number true cs
      else if c.isDigit then number false (c :: cs)
      else if c = '"' then string cs
      else if c = '[' then
        let (items, rest) := items fuel true cs
        (.list items, rest)
      else if c = '\x7b' then
        let (members, rest) := members fuel true cs
        (.object members, rest)
      else (.broken (.both .noValue), none)

def items : Nat → Bool → List Char → DraftItems × Option (List Char)
  | 0, _, _ => (.broken (.both .endInList), none)
  | fuel + 1, first, cs =>
    match skipBlank cs with
    | [] => (.broken (.both .endInList), none)
    | c :: cs =>
      if c = ']' then (.done, some cs)
      else if first then item fuel (c :: cs)
      else if c = ',' then
        match skipBlank cs with
        | [] => (.broken (.both .endInValue), none)
        | c :: cs =>
          if c = ']' then (.broken ⟨.trailingComma, .noValue⟩, none)
          else item fuel (c :: cs)
      else (.broken (.both .noListComma), none)

def item : Nat → List Char → DraftItems × Option (List Char)
  | 0, _ => (.broken (.both .endInList), none)
  | fuel + 1, cs =>
    match value fuel cs with
    | (v, none) => (.item v .done, none)
    | (v, some cs) =>
      let (rest, cs) := items fuel false cs
      (.item v rest, cs)

def members : Nat → Bool → List Char → DraftMembers × Option (List Char)
  | 0, _, _ => (.broken (.both .endInObject), none)
  | fuel + 1, first, cs =>
    match skipBlank cs with
    | [] => (.broken (.both .endInObject), none)
    | c :: cs =>
      if c = '\x7d' then (.done, some cs)
      else if first then member fuel (c :: cs)
      else if c = ',' then
        match skipBlank cs with
        | [] => (.broken ⟨.endInValue, .endInObject⟩, none)
        | c :: cs =>
          if c = '\x7d' then (.broken ⟨.trailingComma, .keyNotString⟩, none)
          else member fuel (c :: cs)
      else (.broken (.both .noObjectComma), none)

def member : Nat → List Char → DraftMembers × Option (List Char)
  | 0, _ => (.broken (.both .endInObject), none)
  | _ + 1, [] => (.broken (.both .endInObject), none)
  | fuel + 1, c :: cs =>
    if c = '"' then
      match Escape.decode cs with
      | .error fault => (.broken fault, none)
      | .ok (key, cs) =>
        match skipBlank cs with
        | [] => (.member key (.broken (.both .endInObject)) .done, none)
        | c :: cs =>
          if c = ':' then
            match value fuel cs with
            | (v, none) => (.member key v .done, none)
            | (v, some cs) =>
              let (rest, cs) := members fuel false cs
              (.member key v rest, cs)
          else (.member key (.broken (.both .noColon)) .done, none)
    else (.broken (.both .keyNotString), none)

end

/-- Every character is good for at most three nested calls. -/
def fuelFor (cs : List Char) : Nat :=
  3 * cs.length + 3

end Reader

/-- A text as a draft, and whether more than white space follows its value. -/
def Draft.ofText (text : String) : Draft × Bool :=
  let cs := text.toList
  match Reader.value (Reader.fuelFor cs) cs with
  | (d, none) => (d, false)
  | (d, some rest) => (d, !(Reader.skipBlank rest).isEmpty)

end ColorGraph.Json
