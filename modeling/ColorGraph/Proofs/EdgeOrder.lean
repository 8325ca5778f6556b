import ColorGraph.Proofs.Locality
import ColorGraph.Proofs.OutputOrder
import ColorGraph.Proofs.SlotSorting
/-!
The order in which a graph lists its edges. Main statement: where slots are taken once and outputs
have one edge at most, no order of the edges is told apart by compiling, ordering outputs or
previewing.
-/

set_option autoImplicit false

namespace ColorGraph

open Compile

namespace Graph

/-- Edges into one node have different slots, and into an output there is one edge at most. -/
structure Unambiguous (g : Graph) : Prop where
  slots : ∀ n ∈ g.nodes, ((g.edgesInto n.id).map Edge.slot).Nodup
  outputs : ∀ n ∈ g.nodes, n.kind.isOutput = true → (g.edgesInto n.id).length ≤ 1

instance (g : Graph) : Decidable g.Unambiguous :=
  decidable_of_iff _ ⟨fun h => Unambiguous.mk h.1 h.2, fun h => And.intro h.slots h.outputs⟩

def withEdges (g : Graph) (edges : List Edge) : Graph :=
  { g with edges }

variable {g : Graph} {edges : List Edge} {n : Node}

theorem edgesInto_withEdges (hperm : edges.Perm g.edges) (id : NodeId) :
    ((g.withEdges edges).edgesInto id).Perm (g.edgesInto id) :=
  hperm.filter _

theorem upstream_withEdges (hperm : edges.Perm g.edges) :
    (g.withEdges edges).Upstream = g.Upstream := by
  have hfeeds : (g.withEdges edges).Feeds = g.Feeds := by
    funext a b
    exact propext (exists_congr fun e => and_congr_left fun _ => hperm.mem_iff)
  rw [Upstream, Upstream, hfeeds]

theorem Unambiguous.producerEdge?_withEdges (hg : g.Unambiguous) (hperm : edges.Perm g.edges)
    (hn : n ∈ g.nodes) (ho : n.kind.isOutput = true) :
    (g.withEdges edges).producerEdge? n.id = g.producerEdge? n.id := by
  have hinto := edgesInto_withEdges hperm n.id
  have hlength := hg.outputs n hn ho
  rw [producerEdge?, producerEdge?]
  cases hedges : g.edgesInto n.id with
  | nil =>
    rw [hedges] at hinto
    rw [hinto.eq_nil]
  | cons e rest =>
    rw [hedges] at hinto hlength
    obtain rfl : rest = [] := by simpa using hlength
    rw [List.perm_singleton.1 hinto]

theorem Unambiguous.inputEdges_withEdges (hg : g.Unambiguous) (hperm : edges.Perm g.edges)
    (order : SlotOrder) (hn : n ∈ g.nodes) :
    (g.withEdges edges).inputEdges order n.id = g.inputEdges order n.id :=
  SlotOrder.sort_eq_of_perm (edgesInto_withEdges hperm n.id) (hg.slots n hn)

theorem Unambiguous.alikeOn_withEdges (hg : g.Unambiguous) (hperm : edges.Perm g.edges)
    (order : SlotOrder) : (g.withEdges edges).AlikeOn g order Set.univ where
  closed _ _ := Set.mem_univ _
  node _ _ := rfl
  inputs _ _ hn := hg.inputEdges_withEdges hperm order (mem_of_lastNode? hn).1
  producer _ _ hn ho := hg.producerEdge?_withEdges hperm (mem_of_lastNode? hn).1 ho

theorem Unambiguous.waitsFor_withEdges (hg : g.Unambiguous) (hperm : edges.Perm g.edges)
    {a b : Node} (ha : a ∈ (Index.of g).outputs) (hb : b ∈ (Index.of g).outputs) :
    (g.withEdges edges).waitsFor a b = g.waitsFor a b := by
  have hproducer : ∀ n ∈ (Index.of g).outputs,
      (g.withEdges edges).producer? n.id = g.producer? n.id := by
    intro n hn
    obtain ⟨hmem, ho⟩ := List.mem_filter.1 hn
    rw [producer?, producer?, hg.producerEdge?_withEdges hperm hmem ho]
  rw [Bool.eq_iff_iff, waitsFor_iff, waitsFor_iff, DependsOn, DependsOn,
    hproducer a ha, hproducer b hb, upstream_withEdges hperm]

theorem Unambiguous.outputOrder_withEdges (hg : g.Unambiguous) (hperm : edges.Perm g.edges) :
    (Index.of (g.withEdges edges)).outputOrder = (Index.of g).outputOrder := by
  have harranged : (g.withEdges edges).arrangedOutputs = g.arrangedOutputs :=
    OutputOrder.arrange_congr fun _ ha _ hb => hg.waitsFor_withEdges hperm ha hb
  rw [outputOrder_eq, outputOrder_eq, harranged]

theorem Unambiguous.addOutput_withEdges (hg : g.Unambiguous) (hperm : edges.Perm g.edges)
    (o : Options) (p : Progress) (hn : n ∈ (Index.of g).outputs) :
    p.addOutput (Index.of (g.withEdges edges)) o n = p.addOutput (Index.of g) o n := by
  obtain ⟨hmem, ho⟩ := List.mem_filter.1 hn
  have halike := hg.alikeOn_withEdges hperm o.slotOrder
  have hedge := hg.producerEdge?_withEdges hperm hmem ho
  have hnames : ∀ id ∈ Set.univ, p.bindings.name? id = p.bindings.name? id := fun _ _ => rfl
  rw [Progress.addOutput_eq, Progress.addOutput_eq,
    halike.outputTree_eq hnames (Set.mem_univ _) hedge,
    halike.outputDefinition?_eq hnames (Set.mem_univ _) hedge]

theorem Unambiguous.progressOf_withEdges (hg : g.Unambiguous) (hperm : edges.Perm g.edges)
    (o : Options) {outputs : List Node} (houtputs : ∀ n ∈ outputs, n ∈ (Index.of g).outputs) :
    (g.withEdges edges).progressOf o outputs = g.progressOf o outputs := by
  induction outputs using List.reverseRecOn with
  | nil => rfl
  | append_singleton outputs n ih =>
    obtain ⟨hbefore, hn⟩ := List.forall_mem_append.1 houtputs
    rw [progressOf_append, progressOf_append, ih hbefore,
      hg.addOutput_withEdges hperm o _ (hn n List.mem_cons_self)]

theorem Unambiguous.compile_withEdges (hg : g.Unambiguous) (hperm : edges.Perm g.edges)
    (o : Options) : (g.withEdges edges).compile o = g.compile o := by
  have hprogress : progress (Index.of (g.withEdges edges)) o (Index.of g).outputOrder.order =
      progress (Index.of g) o (Index.of g).outputOrder.order :=
    hg.progressOf_withEdges hperm o fun n hn => (Index.outputOrder_perm _).mem_iff.1 hn
  simp only [compile, hg.outputOrder_withEdges hperm, hprogress]

/-- Listing the edges in another order changes nothing that can be asked of a graph. -/
theorem indifferent_to_edge_order (hg : g.Unambiguous) (hperm : edges.Perm g.edges) :
    (∀ o, (g.withEdges edges).compile o = g.compile o) ∧
      (Index.of (g.withEdges edges)).outputOrder = (Index.of g).outputOrder ∧
      ∀ order id, (g.withEdges edges).preview order id = g.preview order id :=
  ⟨hg.compile_withEdges hperm, hg.outputOrder_withEdges hperm,
    fun order _ => (hg.alikeOn_withEdges hperm order).preview_eq (Set.mem_univ _)⟩

def pinwheel : Graph where
  nodes := [{ id := "c", kind := .inputColor "base" "red" }, { id := "m", kind := .operation .mix },
    { id := "r", kind := .operation .rotate }, { id := "o", kind := .output "mixed" },
    { id := "p", kind := .output "turned" }]
  edges := [connection "r" "m" (some "in-2"), connection "c" "m" (some "in-10"),
    connection "m" "r" none, connection "ghost" "r" (some "in-1"), connection "m" "o" none,
    connection "r" "p" none]

theorem indifferent_to_edge_order_pinwheel :
    pinwheel.Unambiguous ∧ ¬ pinwheel.Acyclic ∧
      (Index.of pinwheel).outputOrder.cycle = ["o", "p"] ∧
      (pinwheel.inputEdges .numeric "m").map (·.source) = ["r", "c"] ∧
      (pinwheel.inputEdges .lexicographic "m").map (·.source) = ["c", "r"] ∧
      pinwheel.edges.reverse.Perm pinwheel.edges ∧
      (∀ o, (pinwheel.withEdges pinwheel.edges.reverse).compile o = pinwheel.compile o) ∧
      (Index.of (pinwheel.withEdges pinwheel.edges.reverse)).outputOrder =
        (Index.of pinwheel).outputOrder ∧
      ∀ order id, (pinwheel.withEdges pinwheel.edges.reverse).preview order id =
        pinwheel.preview order id := by
  have hg : pinwheel.Unambiguous := by decide
  have hperm : pinwheel.edges.reverse.Perm pinwheel.edges := List.reverse_perm _
  exact ⟨hg, by decide, by decide, by decide, by decide, hperm, indifferent_to_edge_order hg hperm⟩

end Graph
end ColorGraph
