import ColorGraph.Graph.Index
import ColorGraph.Preview.Value
/-!
The value that a node has now: the same walk as a compilation, computing in place of writing.
-/

set_option autoImplicit false

namespace ColorGraph

namespace Preview

abbrev Evaluation := Node → Except SplitCharacter (Option Preview)

def follow (ix : Index) (evaluation : Evaluation) (e : Edge) :
    Except SplitCharacter (Option Preview) :=
  match ix.node? e.source with
  | some n => evaluation n
  | none => pure none

def followAll (ix : Index) (evaluation : Evaluation) :
    List Edge → Except SplitCharacter (List (Option Preview))
  | [] => pure []
  | e :: es => do
    let x ← follow ix evaluation e
    let xs ← followAll ix evaluation es
    pure (x :: xs)

/-- One call of a preview. `inner` stands for the calls that it makes. `path` holds the nodes whose
inputs are being computed; one of them met again has none. -/
def evaluateCall (ix : Index) (order : SlotOrder) (inner : List NodeId → Evaluation)
    (path : List NodeId) : Evaluation :=
  fun n =>
    match n.kind with
    | .inputColor _ c => pure (some (color (if c = "" then defaultColor else c)))
    | .inputNumber _ value => pure (some (number value))
    | .operation op =>
      if n.id ∈ path then pure none
      else do
        let inputs ← followAll ix (inner (n.id :: path)) (ix.inputEdges order n.id)
        apply op inputs
    | .output _ =>
      if n.id ∈ path then pure none
      else
        match ix.producerEdge? n.id with
        | none => pure none
        | some e => follow ix (inner (n.id :: path)) e

def evaluateNode (ix : Index) (order : SlotOrder) : Nat → List NodeId → Evaluation
  | 0 => fun _ _ => pure none
  | depth + 1 => evaluateCall ix order (evaluateNode ix order depth)

def evaluate (ix : Index) (order : SlotOrder) (id : NodeId) :
    Except SplitCharacter (Option Preview) :=
  match ix.node? id with
  | none => pure none
  | some n => evaluateNode ix order (ix.graph.nodes.length + 1) [] n

end Preview

def Graph.preview (g : Graph) (order : SlotOrder) (id : NodeId) :
    Except SplitCharacter (Option Preview) :=
  Preview.evaluate (Index.of g) order id

end ColorGraph
