import ColorGraph.Proofs.Compilation
/-!
Look-ups as scans of the lists. Main statement: whatever ids repeat or name no node, an id stands
for the last node that has it, and the edges into it are those of the graph, in its order. Maps that
are filled one node and one edge at a time find the same.
-/

set_option autoImplicit false

namespace ColorGraph

theorem find?_reverse_eq_some_iff {α : Type} {p : α → Bool} {as : List α} {a : α} :
    as.reverse.find? p = some a ↔
      p a = true ∧ ∃ before after, as = before ++ a :: after ∧ ∀ b ∈ after, p b = false := by
  rw [List.find?_eq_some_iff_append]
  constructor
  · rintro ⟨ha, after, before, hsplit, hafter⟩
    refine ⟨ha, before.reverse, after.reverse, ?_, by simpa using hafter⟩
    simpa using congrArg List.reverse hsplit
  · rintro ⟨ha, before, after, rfl, hafter⟩
    exact ⟨ha, after.reverse, before.reverse, by simp, by simpa using hafter⟩

namespace Index

variable {ix : Index} {g : Graph} {id : NodeId} {n : Node} {e : Edge}

structure Agrees (ix : Index) : Prop where
  node?_eq (id : NodeId) : ix.node? id = ix.graph.lastNode? id
  incoming_eq (id : NodeId) : ix.incoming id = ix.graph.edgesInto id

theorem agrees_of (g : Graph) : (of g).Agrees :=
  ⟨node?_of g, incoming_of g⟩

/-! Maps that are filled step by step. -/

def empty : Index :=
  ⟨{}, ∅, ∅⟩

def pushNode (ix : Index) (n : Node) : Index where
  graph := { ix.graph with nodes := ix.graph.nodes ++ [n] }
  nodeMap := addNode ix.nodeMap n
  edgeMap := ix.edgeMap

def pushEdge (ix : Index) (e : Edge) : Index where
  graph := { ix.graph with edges := ix.graph.edges ++ [e] }
  nodeMap := ix.nodeMap
  edgeMap := ix.edgeMap.insert e.target (ix.edgeMap.getD e.target [] ++ [e])

def inPasses (g : Graph) : Index :=
  g.edges.foldl pushEdge (g.nodes.foldl pushNode empty)

theorem agrees_empty : empty.Agrees where
  node?_eq id := by simp [node?, empty, Graph.lastNode?]
  incoming_eq id := by simp [incoming, empty, Graph.edgesInto]

theorem Agrees.pushNode (h : ix.Agrees) (n : Node) : (ix.pushNode n).Agrees where
  node?_eq id := by
    have hbefore : ix.nodeMap[id]? = ix.graph.nodes.reverse.find? (·.id == id) := h.node?_eq id
    by_cases hid : n.id = id <;>
      simp [node?, Index.pushNode, addNode, Graph.lastNode?, Std.TreeMap.getElem?_insert, hbefore,
        hid]
  incoming_eq id := h.incoming_eq id

theorem Agrees.pushEdge (h : ix.Agrees) (e : Edge) : (ix.pushEdge e).Agrees where
  node?_eq id := h.node?_eq id
  incoming_eq id := by
    have hbefore (id : NodeId) : ix.edgeMap.getD id [] = ix.graph.edges.filter (·.target == id) :=
      h.incoming_eq id
    by_cases hid : e.target = id <;>
      simp [incoming, Index.pushEdge, Graph.edgesInto, Std.TreeMap.getD_insert, hbefore, hid]

theorem Agrees.pushNodes (h : ix.Agrees) (ns : List Node) :
    (ns.foldl Index.pushNode ix).Agrees := by
  induction ns generalizing ix with
  | nil => exact h
  | cons n ns ih => exact ih (h.pushNode n)

theorem Agrees.pushEdges (h : ix.Agrees) (es : List Edge) :
    (es.foldl Index.pushEdge ix).Agrees := by
  induction es generalizing ix with
  | nil => exact h
  | cons e es ih => exact ih (h.pushEdge e)

theorem graph_pushNodes (ix : Index) (ns : List Node) :
    (ns.foldl pushNode ix).graph = { ix.graph with nodes := ix.graph.nodes ++ ns } := by
  induction ns generalizing ix with
  | nil => simp
  | cons n ns ih => simp [ih, pushNode]

theorem graph_pushEdges (ix : Index) (es : List Edge) :
    (es.foldl pushEdge ix).graph = { ix.graph with edges := ix.graph.edges ++ es } := by
  induction es generalizing ix with
  | nil => simp
  | cons e es ih => simp [ih, pushEdge]

theorem graph_inPasses (g : Graph) : (inPasses g).graph = g := by
  simp [inPasses, graph_pushEdges, graph_pushNodes, empty]

theorem agrees_inPasses (g : Graph) : (inPasses g).Agrees :=
  (agrees_empty.pushNodes g.nodes).pushEdges g.edges

/-! What maps that agree with the lists find. -/

theorem Agrees.node?_eq_some_iff (h : ix.Agrees) : ix.node? id = some n ↔
    n.id = id ∧ ∃ before after, ix.graph.nodes = before ++ n :: after ∧ ∀ m ∈ after, m.id ≠ id := by
  simp [h.node?_eq, Graph.lastNode?, find?_reverse_eq_some_iff]

theorem Agrees.node?_eq_none_iff (h : ix.Agrees) :
    ix.node? id = none ↔ ∀ n ∈ ix.graph.nodes, n.id ≠ id := by
  simp [h.node?_eq, Graph.lastNode?]

theorem Agrees.producerEdge?_eq_some_iff (h : ix.Agrees) : ix.producerEdge? id = some e ↔
    e.target = id ∧ ∃ before after, ix.graph.edges = before ++ e :: after ∧
      ∀ f ∈ before, f.target ≠ id := by
  simp [producerEdge?, h.incoming_eq, Graph.edgesInto, List.head?_filter,
    List.find?_eq_some_iff_append]

theorem Agrees.node?_eq_first (h : ix.Agrees) (hid : ix.graph.UniqueIds) :
    ix.node? id = ix.graph.node? id := by
  cases hn : ix.node? id with
  | none =>
    have hnone := h.node?_eq_none_iff.1 hn
    exact (List.find?_eq_none.2 (by simpa using hnone)).symm
  | some n =>
    obtain ⟨rfl, before, after, hnodes, -⟩ := h.node?_eq_some_iff.1 hn
    exact (find?_of_nodup_map hid (by simp [hnodes])).symm

/-- An id stands for the last node that has it, and its edges are those of the list, in its
order. -/
theorem lookUps_scan (g : Graph) (id : NodeId) :
    (∀ n, (of g).node? id = some n ↔
      n.id = id ∧ ∃ before after, g.nodes = before ++ n :: after ∧ ∀ m ∈ after, m.id ≠ id) ∧
    ((of g).node? id = none ↔ ∀ n ∈ g.nodes, n.id ≠ id) ∧
    (g.UniqueIds → (of g).node? id = g.node? id) ∧
    (of g).incoming id = g.edges.filter (·.target = id) ∧
    (∀ e, (of g).producerEdge? id = some e ↔
      e.target = id ∧ ∃ before after, g.edges = before ++ e :: after ∧
        ∀ f ∈ before, f.target ≠ id) ∧
    (inPasses g).graph = g ∧ (inPasses g).node? id = (of g).node? id ∧
      (inPasses g).incoming id = (of g).incoming id := by
  have hof := agrees_of g
  have hpasses := agrees_inPasses g
  have hgraph := graph_inPasses g
  refine ⟨fun n => hof.node?_eq_some_iff, hof.node?_eq_none_iff, hof.node?_eq_first, ?_,
    fun e => hof.producerEdge?_eq_some_iff, hgraph, ?_, ?_⟩
  · exact incoming_of g id
  · rw [hpasses.node?_eq, hgraph, node?_of]
  · rw [hpasses.incoming_eq, hgraph, incoming_of]

def twins : Graph where
  nodes := [{ id := "t", kind := .operation .rotate }, { id := "o", kind := .output "turned" },
    { id := "t", kind := .operation .mix }]
  edges := [Graph.connection "ghost" "t" none, Graph.connection "t" "nowhere" none,
    Graph.connection "o" "t" (some "in-1"), Graph.connection "o" "nowhere" none]

def withoutFirst (g : Graph) : Graph :=
  { g with nodes := g.nodes.tail }

theorem lookUps_scan_twins :
    (of twins).node? "t" = some { id := "t", kind := .operation .mix } ∧
      (of twins).node? "nowhere" = none ∧
      ((of twins).incoming "t").map (·.source) = ["ghost", "o"] ∧
      (of twins).producerEdge? "nowhere" = some (Graph.connection "t" "nowhere" none) ∧
      ¬ twins.UniqueIds ∧ (withoutFirst twins).UniqueIds ∧
      (of (withoutFirst twins)).node? "t" = (withoutFirst twins).node? "t" := by
  have hid : (withoutFirst twins).UniqueIds := by decide
  obtain ⟨hnode, _, _, hincoming, _⟩ := lookUps_scan twins "t"
  obtain ⟨_, hnone, _, _, hproducer, _⟩ := lookUps_scan twins "nowhere"
  obtain ⟨_, _, hfirst, _⟩ := lookUps_scan (withoutFirst twins) "t"
  refine ⟨(hnode _).2 ⟨rfl, twins.nodes.take 2, [], rfl, by simp⟩, hnone.2 (by decide), ?_,
    (hproducer _).2 ⟨rfl, twins.edges.take 1, twins.edges.drop 2, rfl, by decide⟩, by decide, hid,
    hfirst hid⟩
  rw [hincoming]
  decide

end Index
end ColorGraph
