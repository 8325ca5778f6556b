import ColorGraph.Compile.Report
import ColorGraph.Json.Record
/-!
Variables, diagnostics and reports as JSON.
-/

set_option autoImplicit false

namespace ColorGraph

namespace Css.Variable

structure Parts where
  name : Option String := none
  value : Option String := none

open Json in
def record : Record Parts where
  name := "struct CssVariable"
  fields := [
    .of "name" false Parts.name (fun a s => { s with name := some a }) fun _ d => d.readString,
    .of "value" false Parts.value (fun a s => { s with value := some a }) fun _ d => d.readString]
  others := .ignored
  hasListForm := true

def read (depth : Nat) (d : Json.Draft) : Json.Read Variable := do
  let p ← record.read depth {} d
  pure ⟨← Json.required "name" p.name, ← Json.required "value" p.value⟩

def toJson (v : Variable) : Json :=
  .object [("name", .string v.name), ("value", .string v.value)]

end Css.Variable

namespace Diagnostic

inductive Kind where
  | missingNode
  | unnamedNode
  | disconnectedOutput
  | cyclicOutputs
  | cyclicInput
deriving DecidableEq, Repr

namespace Kind

def all : List Kind := [missingNode, unnamedNode, disconnectedOutput, cyclicOutputs, cyclicInput]

def name : Kind → String
  | missingNode => "missingNode"
  | unnamedNode => "unnamedNode"
  | disconnectedOutput => "disconnectedOutput"
  | cyclicOutputs => "cyclicOutputs"
  | cyclicInput => "cyclicInput"

def title : Kind → String
  | missingNode => "MissingNode"
  | unnamedNode => "UnnamedNode"
  | disconnectedOutput => "DisconnectedOutput"
  | cyclicOutputs => "CyclicOutputs"
  | cyclicInput => "CyclicInput"

open Json in
def ofName (name : String) : Read Kind :=
  match all.find? (·.name == name) with
  | some k => pure k
  | none => throw (.mismatch (.unknownVariant name (all.map Kind.name)))

open Json in
def read : Draft → Read Kind
  | .string s => do ofName (← Flaw.lift s)
  | d => d.refuse "variant identifier"

end Kind

structure Parts where
  edge : Option String := none
  node : Option String := none
  outputs : Option (List String) := none

open Json in
def edgeField : Json.Field Parts :=
  .of "edge" false Parts.edge (fun a s => { s with edge := some a }) fun _ d => d.readString

open Json in
def nodeField : Json.Field Parts :=
  .of "node" false Parts.node (fun a s => { s with node := some a }) fun _ d => d.readString

open Json in
def outputsField : Json.Field Parts :=
  .of "outputs" false Parts.outputs (fun a s => { s with outputs := some a })
    fun depth d => d.readList depth fun _ => Draft.readString

open Json in
def record (k : Kind) : Record Parts where
  name := "struct variant Diagnostic::" ++ k.title
  fields :=
    match k with
    | .missingNode => [edgeField, nodeField]
    | .cyclicOutputs => [outputsField]
    | _ => [nodeField]
  others := .ignored
  hasListForm := true

def ofParts (k : Kind) (p : Parts) : Json.Read Diagnostic :=
  match k with
  | .missingNode => do
    let edge ← Json.required "edge" p.edge
    missingNode edge <$> Json.required "node" p.node
  | .unnamedNode => unnamedNode <$> Json.required "node" p.node
  | .disconnectedOutput => disconnectedOutput <$> Json.required "node" p.node
  | .cyclicOutputs => cyclicOutputs <$> Json.required "outputs" p.outputs
  | .cyclicInput => cyclicInput <$> Json.required "node" p.node

open Json in
/-- The kind among the members, wherever it stands, and the other members. All are read to their
end before any but the kind is looked at. -/
def readMembers (depth : Nat) :
    DraftMembers → Option Kind → Read (Option Kind × DraftMembers)
  | .done, kind => pure (kind, .done)
  | .member key value rest, kind => do
    let k ← Flaw.lift key
    if k = "kind" then
      if kind.isSome then throw (.mismatch (.duplicate "kind"))
      else readMembers depth rest (some (← Kind.read value))
    else do
      let _ ← Flaw.lift (value.keep depth)
      let (kind, others) ← readMembers depth rest kind
      pure (kind, .member key value others)
  | .broken fault, _ => throw (.flaw fault.kept)

open Json in
def surplus : DraftItems → Nat
  | .item _ rest => surplus rest + 1
  | _ => 0

open Json in
def readItems (k : Kind) (depth : Nat) (items : DraftItems) : Read Diagnostic := do
  let r := record k
  let _ ← Flaw.lift (items.keep depth)
  let (parts, rest) ← r.readItems depth r.fields 0 items {}
  if surplus rest = 0 then ofParts k parts
  else
    let count := r.fields.length
    throw (.mismatch (.length (count + surplus rest)
      (toString count ++ (if count = 1 then " element" else " elements") ++ " in sequence")))

open Json in
def read (depth : Nat) : Draft → Read Diagnostic
  | .object members => do
    let depth ← Flaw.lift (enter depth)
    let (kind, others) ← readMembers depth members none
    let kind ← required "kind" kind
    ofParts kind (← (record kind).readMembers depth others {})
  | .list .done => throw (.mismatch (.missing "kind"))
  | .list (.broken fault) => throw (.flaw fault.kept)
  | .list (.item value rest) => do
    let depth ← Flaw.lift (enter depth)
    let kind ← Kind.read value
    readItems kind depth rest
  | d => d.refuse "internally tagged enum Diagnostic"

def toJson : Diagnostic → Json
  | missingNode edge node =>
    .object [("kind", .string "missingNode"), ("edge", .string edge), ("node", .string node)]
  | unnamedNode node => .object [("kind", .string "unnamedNode"), ("node", .string node)]
  | disconnectedOutput node =>
    .object [("kind", .string "disconnectedOutput"), ("node", .string node)]
  | cyclicOutputs outputs =>
    .object [("kind", .string "cyclicOutputs"), ("outputs", .array (outputs.map .string))]
  | cyclicInput node => .object [("kind", .string "cyclicInput"), ("node", .string node)]

end Diagnostic

namespace Compile.Report

structure Parts where
  «variables» : Option (List Css.Variable) := none
  diagnostics : Option (List Diagnostic) := none

open Json in
def record : Record Parts where
  name := "struct CompileReport"
  fields := [
    .of "variables" false Parts.variables (fun a s => { s with «variables» := some a })
      fun depth d => d.readList depth Css.Variable.read,
    .of "diagnostics" false Parts.diagnostics (fun a s => { s with diagnostics := some a })
      fun depth d => d.readList depth Diagnostic.read]
  others := .ignored
  hasListForm := true

def read (depth : Nat) (d : Json.Draft) : Json.Read Report := do
  let p ← record.read depth {} d
  pure ⟨← Json.required "variables" p.variables, ← Json.required "diagnostics" p.diagnostics⟩

def toJson (r : Report) : Json :=
  .object [("variables", .array (r.variables.map Css.Variable.toJson)),
    ("diagnostics", .array (r.diagnostics.map Diagnostic.toJson))]

end Compile.Report
end ColorGraph
