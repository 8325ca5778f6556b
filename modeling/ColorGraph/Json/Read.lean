import ColorGraph.Json.Mismatch
/-!
Reading a draft as a value of a given type, from its front on.
-/

set_option autoImplicit false

namespace ColorGraph.Json

abbrev Read (α : Type) := Except ReadError α

def Flaw.lift {α : Type} (x : Except Flaw α) : Read α :=
  x.mapError .flaw

namespace Draft

/-- Complains about a value of another type. Scalars are read to their end before, lists and
objects are not. -/
def refuse {α : Type} (wanted : String) : Draft → Read α
  | .null => throw (.mismatch (.type .null wanted))
  | .bool b => throw (.mismatch (.type (.bool b) wanted))
  | .number (some n) => throw (.mismatch (.type (.number n) wanted))
  | .number none => throw (.flaw .numberRange)
  | .string (.ok s) => throw (.mismatch (.type (.string s) wanted))
  | .string (.error f) => throw (.flaw f)
  | .list _ => throw (.mismatch (.type .list wanted))
  | .object _ => throw (.mismatch (.type .object wanted))
  | .misspelt fault => throw (.flaw fault.kept)
  | .broken fault => throw (.flaw fault.kept)

def readString : Draft → Read String
  | .string (.ok s) => pure s
  | d => d.refuse "a string"

def readBool : Draft → Read Bool
  | .bool b => pure b
  | d => d.refuse "a boolean"

def readOptional {α : Type} (read : Draft → Read α) : Draft → Read (Option α)
  | .null => pure none
  | d => some <$> read d

end Draft

def DraftItems.readAll {α : Type} (read : Draft → Read α) : DraftItems → Read (List α)
  | .done => pure []
  | .item value rest => do
    let a ← read value
    let as ← rest.readAll read
    pure (a :: as)
  | .broken fault => throw (.flaw fault.kept)

def Draft.readList {α : Type} (depth : Nat) (read : Nat → Draft → Read α) :
    Draft → Read (List α)
  | .list items => do
    let depth ← Flaw.lift (enter depth)
    items.readAll (read depth)
  | d => d.refuse "a sequence"

def Draft.readMap (depth : Nat) : Draft → Read Members
  | .object members => Flaw.lift do
    let depth ← enter depth
    members.keep depth []
  | d => d.refuse "a map"

end ColorGraph.Json
