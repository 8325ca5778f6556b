import ColorGraph.Graph.Operation
import ColorGraph.Json.Basic
/-!
Color graphs: nodes and edges as an editor stores them. Ids may repeat, and edges may name nodes
that are not there.
-/

set_option autoImplicit false

namespace ColorGraph

def defaultColor : String := "oklch(0.5 0.2 180)"

abbrev NodeId := String

namespace Node

inductive Kind where
  | inputColor (name color : String)
  | inputNumber (name : String) (value : Float)
  | output (name : String)
  | operation (op : Operation)

namespace Kind

def tag : Kind → String
  | inputColor .. => "inputColor"
  | inputNumber .. => "inputNumber"
  | output _ => "output"
  | operation op => op.tag

def ofTag? (tag : String) : Option Kind :=
  if tag = "inputColor" then some (inputColor "" defaultColor)
  else if tag = "inputNumber" then some (inputNumber "" 0.0)
  else if tag = "output" then some (output "")
  else (Operation.ofTag? tag).map operation

def exportName? : Kind → Option String
  | inputColor name _ | inputNumber name _ | output name => some name
  | operation _ => none

def operation? : Kind → Option Operation
  | operation op => some op
  | _ => none

theorem eq_operation {k : Kind} {op : Operation} (h : k.operation? = some op) :
    k = operation op := by
  cases k <;> cases h
  rfl

def isSource : Kind → Bool
  | inputColor .. | inputNumber .. => true
  | _ => false

def isOutput : Kind → Bool
  | output _ => true
  | _ => false

end Kind
end Node

structure Node where
  id : NodeId
  kind : Node.Kind
  /-- Members of the node's data that its kind does not use. -/
  extraData : Json.Members := []
  /-- Members of the node itself that only the editor uses. -/
  editor : Json.Members := []

structure Edge where
  id : String
  source : NodeId
  target : NodeId
  sourceHandle : Option String := none
  targetHandle : Option String := none
  extra : Json.Members := []

structure Graph where
  nodes : List Node := []
  edges : List Edge := []

namespace Graph

def addNode (g : Graph) (id : NodeId) (kind : Node.Kind) : Graph :=
  { g with nodes := g.nodes ++ [{ id, kind }] }

def connection (source target : NodeId) (handle : Option String) : Edge where
  id := "edge-" ++ source ++ "-" ++ target ++ "-" ++ handle.getD "in"
  source := source
  target := target
  targetHandle := handle

def connect (g : Graph) (source target : NodeId) (handle : Option String) : Graph :=
  { g with edges := g.edges ++ [connection source target handle] }

/-- Takes away every node with the id; its edges stay. -/
def eraseNode (g : Graph) (id : NodeId) : Graph :=
  { g with nodes := g.nodes.filter (·.id != id) }

def eraseEdge (g : Graph) (id : String) : Graph :=
  { g with edges := g.edges.filter (·.id != id) }

def node? (g : Graph) (id : NodeId) : Option Node :=
  g.nodes.find? (·.id == id)

def lastNode? (g : Graph) (id : NodeId) : Option Node :=
  g.nodes.reverse.find? (·.id == id)

def edgesInto (g : Graph) (id : NodeId) : List Edge :=
  g.edges.filter (·.target == id)

end Graph
end ColorGraph
