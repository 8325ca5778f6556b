import ColorGraph.Graph.Record
/-!
Graphs as JSON: on their own, and in the documents that an editor saves and opens.
-/

set_option autoImplicit false

namespace ColorGraph

namespace Graph

structure Parts where
  nodes : Option (List Node) := none
  edges : Option (List Edge) := none

open Json in
def record : Record Parts where
  name := "struct Graph"
  fields := [
    .of "nodes" true Parts.nodes (fun a s => { s with nodes := some a })
      fun depth d => d.readList depth Node.read,
    .of "edges" true Parts.edges (fun a s => { s with edges := some a })
      fun depth d => d.readList depth Edge.read]
  others := .ignored
  hasListForm := true

def read (depth : Nat) (d : Json.Draft) : Json.Read Graph := do
  let p ← record.read depth {} d
  pure ⟨p.nodes.getD [], p.edges.getD []⟩

def ofText (text : String) : Json.Read Graph :=
  Json.readText (read Json.maxDepth) text

def toJson (g : Graph) : Json :=
  .object [("nodes", .array (g.nodes.map Node.toJson)), ("edges", .array (g.edges.map Edge.toJson))]

end Graph

structure Document where
  nodes : List Node
  edges : List Edge
  version : String
  exportedAt : String

namespace Document

structure Parts where
  nodes : Option (List Node) := none
  edges : Option (List Edge) := none
  version : Option String := none
  exportedAt : Option String := none

open Json in
def record : Record Parts where
  name := "struct GraphDocument"
  fields := [
    .of "nodes" false Parts.nodes (fun a s => { s with nodes := some a })
      fun depth d => d.readList depth Node.read,
    .of "edges" false Parts.edges (fun a s => { s with edges := some a })
      fun depth d => d.readList depth Edge.read,
    .of "version" true Parts.version (fun a s => { s with version := some a })
      fun _ d => d.readString,
    .of "exportedAt" true Parts.exportedAt (fun a s => { s with exportedAt := some a })
      fun _ d => d.readString]
  others := .ignored
  hasListForm := true

def read (depth : Nat) (d : Json.Draft) : Json.Read Document := do
  let p ← record.read depth {} d
  let nodes ← Json.required "nodes" p.nodes
  let edges ← Json.required "edges" p.edges
  pure ⟨nodes, edges, p.version.getD "", p.exportedAt.getD ""⟩

def ofText (text : String) : Json.Read Document :=
  Json.readText (read Json.maxDepth) text

def currentVersion : String := "1.0.0"

def ofGraph (g : Graph) (exportedAt : String) : Document :=
  ⟨g.nodes, g.edges, currentVersion, exportedAt⟩

def graph (d : Document) : Graph :=
  ⟨d.nodes, d.edges⟩

def toJson (d : Document) : Json :=
  .object [("nodes", .array (d.nodes.map Node.toJson)),
    ("edges", .array (d.edges.map Edge.toJson)), ("version", .string d.version),
    ("exportedAt", .string d.exportedAt)]

end Document

inductive ImportError where
  | json (e : Json.ReadError)
  | notDocument

namespace ImportError

def message : ImportError → String
  | json e => "Failed to parse JSON: " ++ e.message
  | notDocument => "Invalid graph document: the file must contain nodes and edges"

end ImportError

def Json.hasMember (key : String) : Json → Bool
  | .object members => (Members.get? key members).any fun v => !v.isNull
  | _ => false

namespace Graph

/-- Opens a document. The whole text is read first and the two lists are looked for; its members
are then visited in the order of their keys. -/
def importText (text : String) : Except ImportError Graph := do
  let value ← (Json.readValue text).mapError .json
  if value.hasMember "nodes" && value.hasMember "edges" then
    let document ← (Document.read Json.maxDepth value.toDraft).mapError .json
    pure document.graph
  else throw .notDocument

def exportText (g : Graph) (exportedAt : String) : String :=
  (Document.ofGraph g exportedAt).toJson.prettyText

end Graph
end ColorGraph
