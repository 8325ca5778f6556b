import ColorGraph.Decimal.Literal
import ColorGraph.Graph.Basic
import ColorGraph.Json.Record
/-!
Nodes and edges as JSON. What a kind does not use is kept and written back.
-/

set_option autoImplicit false

namespace ColorGraph

attribute [local instance (2000)] instPowNat

namespace Node

namespace Kind

def dataKeys : Kind → List String
  | inputColor .. => ["name", "color"]
  | inputNumber .. => ["name", "value"]
  | output _ => ["name"]
  | operation op => (op.pair?.map (·.flag)).toList

def textIn (data : Json.Members) (key : String) : String :=
  match data.get? key with
  | some (.string s) => s
  | some (.number n) => n.text
  | _ => ""

/-- A number, the number that a text starts with, or zero. -/
def numberIn (data : Json.Members) (key : String) : Float :=
  match data.get? key with
  | some (.number n) => n.toFloat
  | some (.string s) => (Decimal.leading? s).getD 0.0
  | _ => 0.0

def flagIn (data : Json.Members) (key : String) : Option Bool :=
  match data.get? key with
  | some (.bool b) => some b
  | _ => none

def ofData? (tag : String) (data : Json.Members) : Option Kind :=
  if tag = "inputColor" then some (inputColor (textIn data "name") (textIn data "color"))
  else if tag = "inputNumber" then some (inputNumber (textIn data "name") (numberIn data "value"))
  else if tag = "output" then some (output (textIn data "name"))
  else
    (Operation.ofTag? tag).map fun op =>
      match op.pair? with
      | some p => operation (p.choose op (flagIn data p.flag))
      | none => operation op

/-- Whole numbers below `2 ^ 63` are written without a point. -/
def numberJson (x : Float) : Json :=
  match (Binary.ofFloat? x).bind Binary.toInt? with
  | some n => if n.natAbs < 2 ^ (63 : Nat) then .number (.int n) else .ofFloat x
  | none => .ofFloat x

def dataMembers : Kind → Json.Members
  | inputColor name color => [("name", .string name), ("color", .string color)]
  | inputNumber name value => [("name", .string name), ("value", numberJson value)]
  | output name => [("name", .string name)]
  | operation op =>
    match op.pair? with
    | some p => [(p.flag, .bool (op = p.set))]
    | none => []

theorem map_fst_dataMembers (k : Kind) : k.dataMembers.map (·.1) = k.dataKeys := by
  cases k with
  | operation op => cases op <;> rfl
  | _ => rfl

end Kind

structure Parts where
  id : Option String := none
  type : Option String := none
  data : Option Json.Members := none
  editor : Json.Members := []

open Json in
def record : Record Parts where
  name := "struct RawNode"
  fields := [
    .of "id" false Parts.id (fun a s => { s with id := some a }) fun _ d => d.readString,
    .of "type" false Parts.type (fun a s => { s with type := some a }) fun _ d => d.readString,
    .of "data" true Parts.data (fun a s => { s with data := some a }) fun n d => d.readMap n]
  others := .kept fun key value s => { s with editor := s.editor.insert key value }
  hasListForm := false

/-- The tag is looked at only when all members were read. -/
def ofParts (p : Parts) : Json.Read Node := do
  let id ← Json.required "id" p.id
  let tag ← Json.required "type" p.type
  let data := p.data.getD []
  match Kind.ofData? tag data with
  | none => throw (.mismatch (.unknownKind id tag))
  | some kind =>
    pure ⟨id, kind, data.filter fun (key, _) => !kind.dataKeys.contains key, p.editor⟩

def read (depth : Nat) (d : Json.Draft) : Json.Read Node := do
  ofParts (← record.read depth {} d)

def data (n : Node) : Json.Members :=
  n.kind.dataMembers.foldl (fun ms (key, value) => ms.insert key value) n.extraData

def toJson (n : Node) : Json :=
  .object ([("id", .string n.id), ("type", .string n.kind.tag), ("data", .object n.data)] ++
    n.editor)

end Node

namespace Edge

structure Parts where
  id : Option String := none
  source : Option String := none
  target : Option String := none
  sourceHandle : Option (Option String) := none
  targetHandle : Option (Option String) := none
  extra : Json.Members := []

open Json in
def record : Record Parts where
  name := "struct Edge"
  fields := [
    .of "id" true Parts.id (fun a s => { s with id := some a }) fun _ d => d.readString,
    .of "source" false Parts.source (fun a s => { s with source := some a })
      fun _ d => d.readString,
    .of "target" false Parts.target (fun a s => { s with target := some a })
      fun _ d => d.readString,
    .of "sourceHandle" true Parts.sourceHandle (fun a s => { s with sourceHandle := some a })
      fun _ d => d.readOptional Draft.readString,
    .of "targetHandle" true Parts.targetHandle (fun a s => { s with targetHandle := some a })
      fun _ d => d.readOptional Draft.readString]
  others := .kept fun key value s => { s with extra := s.extra.insert key value }
  hasListForm := false

def ofParts (p : Parts) : Json.Read Edge := do
  let source ← Json.required "source" p.source
  let target ← Json.required "target" p.target
  pure ⟨p.id.getD "", source, target, p.sourceHandle.join, p.targetHandle.join, p.extra⟩

def read (depth : Nat) (d : Json.Draft) : Json.Read Edge := do
  ofParts (← record.read depth {} d)

def handleMember (key : String) : Option String → Json.Members
  | some h => [(key, .string h)]
  | none => []

def toJson (e : Edge) : Json :=
  .object ([("id", .string e.id), ("source", .string e.source), ("target", .string e.target)] ++
    handleMember "sourceHandle" e.sourceHandle ++ handleMember "targetHandle" e.targetHandle ++
    e.extra)

end Edge
end ColorGraph
