import ColorGraph.Proofs.Relabelling
/-!
Graphs without what is only kept for the editor. Main statement: it can be left out, and what is
compiled stays the same.
-/

set_option autoImplicit false

namespace ColorGraph

open Compile

def Node.bare (n : Node) : Node where
  id := n.id
  kind := n.kind

def Edge.bare (e : Edge) : Edge :=
  { e with extra := [] }

def Relabelling.bare : Relabelling where
  node := Node.bare
  edge := Edge.bare
  node_id _ := rfl
  node_operation? _ := rfl
  node_isOutput _ := rfl
  edge_id _ := rfl
  edge_source _ := rfl
  edge_target _ := rfl
  edge_targetHandle _ := rfl

theorem Relabelling.bare_keeps (o : Options) : Relabelling.bare.Keeps o o where
  literal? _ := rfl
  sourceName? _ := rfl
  outputName? _ := rfl
  slotOrder := rfl
  reuseBindings := rfl

namespace Graph

def bare (g : Graph) : Graph where
  nodes := g.nodes.map Node.bare
  edges := g.edges.map Edge.bare

variable {g : Graph} {o : Options}

/-- What is only kept for the editor makes no difference. -/
theorem compile_bare (g : Graph) (o : Options) : g.bare.compile o = g.compile o :=
  compile_relabel (Relabelling.bare_keeps o) g

theorem compile_eq_of_bare_eq {h : Graph} (hbare : h.bare = g.bare) :
    h.compile o = g.compile o := by
  rw [← compile_bare h, hbare, compile_bare]

end Graph
end ColorGraph
