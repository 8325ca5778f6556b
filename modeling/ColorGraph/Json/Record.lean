import ColorGraph.Json.Read
import ColorGraph.Json.Reader
/-!
Records read from JSON. A record is described by its fields; its members are visited in the order
of the text, so the first thing wrong is what is reported.
-/

set_option autoImplicit false

namespace ColorGraph.Json

structure Field (σ : Type) where
  name : String
  isOptional : Bool
  isSet : σ → Bool
  read : Nat → Draft → σ → Read σ

namespace Field

variable {σ α : Type}

def of (name : String) (isOptional : Bool) (get : σ → Option α) (set : α → σ → σ)
    (read : Nat → Draft → Read α) : Field σ where
  name := name
  isOptional := isOptional
  isSet s := (get s).isSome
  read depth d s := do
    let a ← read depth d
    pure (set a s)

end Field

inductive Others (σ : Type) where
  | ignored
  | kept (add : String → Json → σ → σ)

structure Record (σ : Type) where
  name : String
  fields : List (Field σ)
  others : Others σ
  hasListForm : Bool

namespace Record

variable {σ : Type}

def readOther (r : Record σ) (depth : Nat) (key : String) (value : Draft) (s : σ) : Read σ :=
  match r.others with
  | .ignored => do
    Flaw.lift value.skip
    pure s
  | .kept add => do
    let v ← Flaw.lift (value.keep depth)
    pure (add key v s)

def readMember (r : Record σ) (depth : Nat) (key : String) (value : Draft) (s : σ) : Read σ :=
  match r.fields.find? (·.name == key) with
  | none => r.readOther depth key value s
  | some field =>
    if field.isSet s then throw (.mismatch (.duplicate field.name))
    else field.read depth value s

def readMembers (r : Record σ) (depth : Nat) : DraftMembers → σ → Read σ
  | .done, s => pure s
  | .member key value rest, s => do
    let key ← Flaw.lift key
    let s ← r.readMember depth key value s
    r.readMembers depth rest s
  | .broken fault, _ => throw (.flaw fault.kept)

def sized (r : Record σ) : String :=
  r.name ++ " with " ++ toString r.fields.length ++
    (if r.fields.length = 1 then " element" else " elements")

def endOfList : DraftItems → Read Unit
  | .done => pure ()
  | .broken ⟨.endInList, _⟩ => throw (.flaw .endInList)
  | .broken ⟨.trailingComma, _⟩ => throw (.flaw .trailingComma)
  | _ => throw (.flaw .trailingText)

def readItems (r : Record σ) (depth : Nat) :
    List (Field σ) → Nat → DraftItems → σ → Read (σ × DraftItems)
  | [], _, items, s => pure (s, items)
  | field :: fields, position, .done, s =>
    if field.isOptional then r.readItems depth fields (position + 1) .done s
    else throw (.mismatch (.length position r.sized))
  | field :: fields, position, .item value rest, s => do
    let s ← field.read depth value s
    r.readItems depth fields (position + 1) rest s
  | _ :: _, _, .broken fault, _ => throw (.flaw fault.kept)

def read (r : Record σ) (depth : Nat) (start : σ) : Draft → Read σ
  | .object members => do
    let depth ← Flaw.lift (enter depth)
    r.readMembers depth members start
  | .list items =>
    if r.hasListForm then do
      let depth ← Flaw.lift (enter depth)
      let (s, rest) ← r.readItems depth r.fields 0 items start
      endOfList rest
      pure s
    else (Draft.list items).refuse r.name
  | d => d.refuse r.name

end Record

def required {α : Type} (field : String) : Option α → Read α
  | some a => pure a
  | none => throw (.mismatch (.missing field))

def readText {α : Type} (read : Draft → Read α) (text : String) : Read α := do
  let (draft, hasMore) := Draft.ofText text
  let a ← read draft
  if hasMore then throw (.flaw .trailingText) else pure a

def readValue (text : String) : Read Json :=
  readText (fun d => Flaw.lift (d.keep maxDepth)) text

end ColorGraph.Json
