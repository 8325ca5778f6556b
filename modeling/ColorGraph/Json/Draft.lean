import ColorGraph.Json.Basic
import ColorGraph.Json.Flaw
/-!
JSON as it stands in a text: members in their order and with their repetitions, and at the place
where the text stops making sense the fault in place of the rest. A reader walks a draft from the
front and so meets a fault where it meets it in the text.
-/

set_option autoImplicit false

namespace ColorGraph.Json

mutual

inductive Draft where
  | null
  | bool (b : Bool)
  /-- None for a number that is too large. -/
  | number (n : Option Number)
  | string (s : Except Flaw String)
  | list (items : DraftItems)
  | object (members : DraftMembers)
  /-- A word or a number that goes wrong after its first character. -/
  | misspelt (fault : Fault)
  | broken (fault : Fault)

inductive DraftItems where
  | done
  | item (value : Draft) (rest : DraftItems)
  | broken (fault : Fault)

inductive DraftMembers where
  | done
  | member (key : Except Flaw String) (value : Draft) (rest : DraftMembers)
  | broken (fault : Fault)

end

/-- How deep values may nest: one container fewer than this. -/
def maxDepth : Nat := 128

def enter (depth : Nat) : Except Flaw Nat :=
  if depth ≤ 1 then throw .tooDeep else pure (depth - 1)

mutual

/-- The value, when all of it is to be kept. Of members with one key the last is kept. -/
def Draft.keep (depth : Nat) : Draft → Except Flaw Json
  | .null => pure .null
  | .bool b => pure (.bool b)
  | .number none => throw .numberRange
  | .number (some n) => pure (.number n)
  | .string s => Json.string <$> s
  | .list items => do
    let depth ← enter depth
    Json.array <$> items.keep depth
  | .object members => do
    let depth ← enter depth
    Json.object <$> members.keep depth []
  | .misspelt fault => throw fault.kept
  | .broken fault => throw fault.kept

def DraftItems.keep (depth : Nat) : DraftItems → Except Flaw (List Json)
  | .done => pure []
  | .item value rest => do
    let v ← value.keep depth
    let vs ← rest.keep depth
    pure (v :: vs)
  | .broken fault => throw fault.kept

def DraftMembers.keep (depth : Nat) : DraftMembers → Members → Except Flaw Members
  | .done, ms => pure ms
  | .member key value rest, ms => do
    let k ← key
    let v ← value.keep depth
    rest.keep depth (ms.insert k v)
  | .broken fault, _ => throw fault.kept

end

mutual

/-- Passes over a value that is not wanted: only its form counts, at any depth. -/
def Draft.skip : Draft → Except Flaw Unit
  | .list items => items.skip
  | .object members => members.skip
  | .misspelt fault => throw fault.skipped
  | .broken fault => throw fault.skipped
  | _ => pure ()

def DraftItems.skip : DraftItems → Except Flaw Unit
  | .done => pure ()
  | .item value rest => do
    value.skip
    rest.skip
  | .broken fault => throw fault.skipped

def DraftMembers.skip : DraftMembers → Except Flaw Unit
  | .done => pure ()
  | .member _ value rest => do
    value.skip
    rest.skip
  | .broken fault => throw fault.skipped

end

mutual

def toDraft : Json → Draft
  | .null => .null
  | .bool b => .bool b
  | .number n => .number (some n)
  | .string s => .string (.ok s)
  | .array items => .list (itemsDraft items)
  | .object members => .object (membersDraft members)

def itemsDraft : List Json → DraftItems
  | [] => .done
  | v :: vs => .item v.toDraft (itemsDraft vs)

def membersDraft : List (String × Json) → DraftMembers
  | [] => .done
  | (k, v) :: ms => .member (.ok k) v.toDraft (membersDraft ms)

end
end ColorGraph.Json
