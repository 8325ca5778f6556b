import ColorGraph.Graph.SlotOrder
import Std.Data.TreeMap
/-!
Look-up maps over one graph. Main statements: they find what a scan of the graph's lists finds.
-/

set_option autoImplicit false

namespace ColorGraph

structure Index where
  graph : Graph
  /-- Each id with the last of its nodes. -/
  nodeMap : Std.TreeMap NodeId Node
  edgeMap : Std.TreeMap NodeId (List Edge)

namespace Index

def addNode (m : Std.TreeMap NodeId Node) (n : Node) : Std.TreeMap NodeId Node :=
  m.insert n.id n

def addEdge (e : Edge) (m : Std.TreeMap NodeId (List Edge)) : Std.TreeMap NodeId (List Edge) :=
  m.insert e.target (e :: m.getD e.target [])

def of (g : Graph) : Index where
  graph := g
  nodeMap := g.nodes.foldl addNode ∅
  edgeMap := g.edges.foldr addEdge ∅

def node? (ix : Index) (id : NodeId) : Option Node :=
  ix.nodeMap[id]?

def incoming (ix : Index) (id : NodeId) : List Edge :=
  ix.edgeMap.getD id []

def producerEdge? (ix : Index) (id : NodeId) : Option Edge :=
  (ix.incoming id).head?

def inputEdges (ix : Index) (order : SlotOrder) (id : NodeId) : List Edge :=
  order.sort (ix.incoming id)

def outputs (ix : Index) : List Node :=
  ix.graph.nodes.filter (·.kind.isOutput)

theorem getElem?_foldl_addNode (nodes : List Node) (m : Std.TreeMap NodeId Node) (id : NodeId) :
    (nodes.foldl addNode m)[id]? = (nodes.reverse.find? (·.id == id)).or m[id]? := by
  induction nodes generalizing m with
  | nil => simp
  | cons n rest ih =>
    rw [List.foldl_cons, ih, List.reverse_cons, List.find?_append]
    cases rest.reverse.find? (·.id == id) with
    | some _ => rfl
    | none =>
      simp only [addNode, Std.TreeMap.getElem?_insert, Std.LawfulEqCmp.compare_eq_iff_eq,
        Option.none_or, List.find?_cons, List.find?_nil]
      by_cases h : n.id = id
      · simp [h]
      · simp [h, beq_eq_false_iff_ne.2 h]

theorem node?_of (g : Graph) (id : NodeId) : (of g).node? id = g.lastNode? id := by
  simp [node?, of, Graph.lastNode?, getElem?_foldl_addNode]

theorem getD_foldr_addEdge (edges : List Edge) (id : NodeId) :
    (edges.foldr addEdge ∅).getD id [] = edges.filter (·.target == id) := by
  induction edges with
  | nil => simp
  | cons e rest ih =>
    rw [List.foldr_cons, addEdge, Std.TreeMap.getD_insert]
    by_cases h : e.target = id
    · subst h; simp [ih]
    · simp [h, ih]

theorem incoming_of (g : Graph) (id : NodeId) : (of g).incoming id = g.edgesInto id :=
  getD_foldr_addEdge g.edges id

end Index
end ColorGraph
