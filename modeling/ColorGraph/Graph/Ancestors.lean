import ColorGraph.Graph.Index
/-!
The ancestors of a node: what edges walked backward lead to. Main statement: a new id takes its
edges out of those still to be walked, so that each step uses up one of the steps allowed.
-/

set_option autoImplicit false

namespace ColorGraph.Index

def sources (ix : Index) (id : NodeId) : List NodeId :=
  (ix.incoming id).map (·.source)

def climb (ix : Index) : Nat → List NodeId → List NodeId → List NodeId
  | 0, _, seen => seen
  | _ + 1, [], seen => seen
  | steps + 1, id :: waiting, seen =>
    if id ∈ seen then ix.climb steps waiting seen
    else ix.climb steps (ix.sources id ++ waiting) (id :: seen)

/-- Every id, of a node or not, from which a path of one edge or more leads to `start`. -/
def ancestors (ix : Index) (start : NodeId) : List NodeId :=
  ix.climb ((ix.sources start).length + ix.graph.edges.length) (ix.sources start) []

def unseenEdges (g : Graph) (seen : List NodeId) : Nat :=
  g.edges.countP fun e => !decide (e.target ∈ seen)

theorem unseenEdges_cons (g : Graph) {id : NodeId} {seen : List NodeId} (h : id ∉ seen) :
    unseenEdges g (id :: seen) + ((of g).sources id).length = unseenEdges g seen := by
  rw [sources, List.length_map, incoming_of, Graph.edgesInto, ← List.countP_eq_length_filter]
  unfold unseenEdges
  induction g.edges with
  | nil => rfl
  | cons e rest ih =>
    rw [List.countP_cons, List.countP_cons, List.countP_cons, ← ih]
    by_cases he : e.target = id
    · simp [he, h]; omega
    · simp [he]; omega

end ColorGraph.Index
