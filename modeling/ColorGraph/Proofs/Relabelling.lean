import ColorGraph.Proofs.Compilation
import ColorGraph.Proofs.OutputOrder
/-!
Graphs with other nodes and edges in place of their own. Main statement: where the others lead the
same ways, stand for the same values and are exported under the same names, the same is compiled.
-/

set_option autoImplicit false

namespace ColorGraph

open Compile

namespace Node

variable {o : Options} {n : Node}

theorem sourceReports_eq : n.sourceReports =
    match n.literal?, n.sourceName? o with
    | some _, none => [.unnamedNode n.id]
    | _, _ => [] := by
  unfold sourceReports literal? sourceName?
  cases n.kind with
  | inputColor name color => by_cases h : name = "" <;> simp [h]
  | inputNumber name value => by_cases h : name = "" <;> simp [h]
  | _ => rfl

end Node

theorem Graph.outputTree_eq {g : Graph} {o : Options} {name? : NodeId → Option String}
    {order : SlotOrder} {n : Node} : g.outputTree name? order n =
      match n.outputName? o with
      | none => .missing (if n.kind.isOutput then some (.unnamedNode n.id) else none)
      | some _ => ((g.producerEdge? n.id).map (g.unfoldEdge (Node.standIn? name?) order [])).getD
        (.missing (some (.disconnectedOutput n.id))) := by
  unfold outputTree Node.outputName?
  cases n.kind with
  | output name =>
    by_cases h : name = ""
    · simp [h, Node.Kind.isOutput]
    · cases g.producerEdge? n.id <;> simp [h]
  | _ => rfl

/-- Nodes and edges to put in place of those of a graph, which lead the same ways. -/
structure Relabelling where
  node : Node → Node
  edge : Edge → Edge
  node_id (n : Node) : (node n).id = n.id
  node_operation? (n : Node) : (node n).kind.operation? = n.kind.operation?
  node_isOutput (n : Node) : (node n).kind.isOutput = n.kind.isOutput
  edge_id (e : Edge) : (edge e).id = e.id
  edge_source (e : Edge) : (edge e).source = e.source
  edge_target (e : Edge) : (edge e).target = e.target
  edge_targetHandle (e : Edge) : (edge e).targetHandle = e.targetHandle

namespace Relabelling

structure Keeps (r : Relabelling) (o' o : Options) : Prop where
  literal? (n : Node) : (r.node n).literal? = n.literal?
  sourceName? (n : Node) : (r.node n).sourceName? o' = n.sourceName? o
  outputName? (n : Node) : (r.node n).outputName? o' = n.outputName? o
  slotOrder : o'.slotOrder = o.slotOrder
  reuseBindings : o'.reuseBindings = o.reuseBindings

variable {r : Relabelling} {order : SlotOrder}

theorem place_edges (e : Edge) (es : List Edge) :
    order.place (r.edge e) (es.map r.edge) = (order.place e es).map r.edge := by
  induction es with
  | nil => rfl
  | cons f rest ih =>
    have hprecedes : order.precedes (r.edge e) (r.edge f) = order.precedes e f := by
      rw [SlotOrder.precedes, SlotOrder.precedes, r.edge_targetHandle, r.edge_targetHandle]
    rw [List.map_cons, SlotOrder.place, SlotOrder.place, hprecedes, ih]
    split <;> rfl

theorem sort_edges (es : List Edge) :
    order.sort (es.map r.edge) = (order.sort es).map r.edge := by
  induction es with
  | nil => rfl
  | cons e rest ih =>
    change order.place (r.edge e) (order.sort (rest.map r.edge)) = _
    rw [ih, place_edges]
    rfl

end Relabelling

namespace Graph

def relabel (g : Graph) (r : Relabelling) : Graph where
  nodes := g.nodes.map r.node
  edges := g.edges.map r.edge

section

variable {g : Graph} {r : Relabelling} {order : SlotOrder} {id : NodeId} {n : Node}

theorem lastNode?_relabel : (g.relabel r).lastNode? id = (g.lastNode? id).map r.node := by
  rw [lastNode?, lastNode?, relabel, ← List.map_reverse, List.find?_map]
  simp only [Function.comp_def, r.node_id]

theorem edgesInto_relabel : (g.relabel r).edgesInto id = (g.edgesInto id).map r.edge := by
  rw [edgesInto, edgesInto, relabel, List.filter_map]
  simp only [Function.comp_def, r.edge_target]

theorem inputEdges_relabel :
    (g.relabel r).inputEdges order id = (g.inputEdges order id).map r.edge := by
  rw [inputEdges, inputEdges, edgesInto_relabel, Relabelling.sort_edges]

theorem producerEdge?_relabel :
    (g.relabel r).producerEdge? id = (g.producerEdge? id).map r.edge := by
  rw [producerEdge?, producerEdge?, edgesInto_relabel, List.head?_map]

theorem producer?_relabel : (g.relabel r).producer? id = g.producer? id := by
  rw [producer?, producer?, producerEdge?_relabel, Option.map_map]
  simp only [Function.comp_def, r.edge_source]

theorem upstream_relabel : (g.relabel r).Upstream = g.Upstream := by
  have hfeeds : (g.relabel r).Feeds = g.Feeds := by
    funext a b
    refine propext ⟨?_, ?_⟩
    · rintro ⟨_, he, hsource, htarget⟩
      obtain ⟨e, hmem, rfl⟩ := List.mem_map.1 he
      exact ⟨e, hmem, (r.edge_source e).symm.trans hsource, (r.edge_target e).symm.trans htarget⟩
    · rintro ⟨e, he, hsource, htarget⟩
      exact ⟨r.edge e, List.mem_map_of_mem he, (r.edge_source e).trans hsource,
        (r.edge_target e).trans htarget⟩
  rw [Upstream, Upstream, hfeeds]

section

variable {α : Type} {leaf? : Node → Option α} (hleaf : ∀ n : Node, leaf? (r.node n) = leaf? n)

theorem unfoldEdge_relabel_of (path : List NodeId) (e : Edge)
    (h : (g.relabel r).unfold leaf? order path e.source = g.unfold leaf? order path e.source) :
    (g.relabel r).unfoldEdge leaf? order path (r.edge e) = g.unfoldEdge leaf? order path e := by
  rw [unfoldEdge, unfoldEdge, r.edge_source, r.edge_id, h, lastNode?_relabel, Option.isSome_map]

include hleaf

/-- Trees are the same where leaves are. -/
theorem unfold_relabel (path : List NodeId) (id : NodeId) :
    (g.relabel r).unfold leaf? order path id = g.unfold leaf? order path id := by
  have hpresent : ∀ {id n}, g.lastNode? id = some n →
      (g.relabel r).lastNode? id = some (r.node n) :=
    fun hn => by rw [lastNode?_relabel, hn, Option.map_some]
  induction path, id using g.unfold_induction leaf? with
  | absent path id hn =>
    have hn' : (g.relabel r).lastNode? id = none := by
      rw [lastNode?_relabel, hn, Option.map_none]
    rw [unfold_absent hn, unfold_absent hn']
  | leaf path n a hn ha =>
    rw [unfold_leaf hn ha, unfold_leaf (hpresent hn) ((hleaf n).trans ha)]
  | cyclic path n hn ha hp =>
    rw [unfold_cyclic hn ha hp, unfold_cyclic (hpresent hn) ((hleaf n).trans ha) hp]
  | operation path n op hn ha hp ho ih =>
    rw [unfold_operation hn ha hp ho, unfold_operation (hpresent hn) ((hleaf n).trans ha) hp
      ((r.node_operation? n).trans ho), inputEdges_relabel, List.map_map]
    congr 1
    exact List.map_congr_left fun e _ => unfoldEdge_relabel_of _ e (ih e)
  | output path n hn ha hp ho ih =>
    rw [unfold_output hn ha hp ho, unfold_output (hpresent hn) ((hleaf n).trans ha) hp
      ((r.node_operation? n).trans ho), producerEdge?_relabel, Option.map_map]
    congr 1
    exact Option.map_congr fun e _ => unfoldEdge_relabel_of _ e (ih e)

theorem unfoldEdge_relabel (path : List NodeId) (e : Edge) :
    (g.relabel r).unfoldEdge leaf? order path (r.edge e) = g.unfoldEdge leaf? order path e :=
  unfoldEdge_relabel_of path e (unfold_relabel hleaf path e.source)

end

theorem waitsFor_relabel (m n : Node) :
    (g.relabel r).waitsFor (r.node m) (r.node n) = g.waitsFor m n := by
  rw [Bool.eq_iff_iff, waitsFor_iff, waitsFor_iff, DependsOn, DependsOn,
    upstream_relabel, producer?_relabel, producer?_relabel, r.node_id, r.node_id]

theorem outputs_relabel :
    (Index.of (g.relabel r)).outputs = (Index.of g).outputs.map r.node := by
  change (g.nodes.map r.node).filter (·.kind.isOutput) =
    (g.nodes.filter (·.kind.isOutput)).map r.node
  rw [List.filter_map]
  simp only [Function.comp_def, r.node_isOutput]

theorem outputOrder_relabel : (Index.of (g.relabel r)).outputOrder =
    ⟨(Index.of g).outputOrder.order.map r.node, (Index.of g).outputOrder.cycle⟩ := by
  have harranged : (g.relabel r).arrangedOutputs =
      (g.arrangedOutputs.1.map r.node, g.arrangedOutputs.2.map r.node) := by
    rw [arrangedOutputs, outputs_relabel, List.length_map, OutputOrder.arrange_map]
    simp only [waitsFor_relabel]
    rfl
  rw [outputOrder_eq, outputOrder_eq, harranged, List.map_append, List.map_map]
  simp only [Function.comp_def, r.node_id]

variable {o' o : Options} {name? : NodeId → Option String}

theorem outputTree_relabel (h : r.Keeps o' o) :
    (g.relabel r).outputTree name? o'.slotOrder (r.node n) =
      g.outputTree name? o.slotOrder n := by
  have hleaf : ∀ m : Node, (r.node m).standIn? name? = m.standIn? name? := by
    intro m
    rw [Node.standIn?, Node.standIn?, r.node_id, h.literal?]
  rw [outputTree_eq (o := o'), outputTree_eq (o := o), h.outputName?, h.slotOrder, r.node_id,
    r.node_isOutput, producerEdge?_relabel, Option.map_map]
  simp only [Function.comp_def, unfoldEdge_relabel hleaf]

theorem outputDefinition?_relabel (h : r.Keeps o' o) :
    (g.relabel r).outputDefinition? o' name? (r.node n) = g.outputDefinition? o name? n := by
  rw [outputDefinition?, outputDefinition?, h.outputName?, outputTree_relabel h, r.node_id,
    producer?_relabel]

theorem addSource_relabel (h : r.Keeps o' o) (p : Progress) (n : Node) :
    p.addSource o' (r.node n) = p.addSource o n := by
  rw [Progress.addSource_eq, Progress.addSource_eq, Node.sourceDefinition?,
    Node.sourceDefinition?, Node.sourceReports_eq (o := o'), Node.sourceReports_eq (o := o),
    h.sourceName?, h.literal?, r.node_id]

theorem addOutput_relabel (h : r.Keeps o' o) (p : Progress) (n : Node) :
    p.addOutput (Index.of (g.relabel r)) o' (r.node n) = p.addOutput (Index.of g) o n := by
  rw [Progress.addOutput_eq, Progress.addOutput_eq, outputTree_relabel h,
    outputDefinition?_relabel h, h.reuseBindings]

end

variable {r : Relabelling} {o' o : Options}

theorem compile_relabel (h : r.Keeps o' o) (g : Graph) :
    (g.relabel r).compile o' = g.compile o := by
  have hsources : (g.relabel r).sourceProgress o' = g.sourceProgress o := by
    change (g.nodes.map r.node).foldl (Progress.addSource o') {} = _
    simp only [List.foldl_map, addSource_relabel h]
    rfl
  have hprogress :
      progress (Index.of (g.relabel r)) o' ((Index.of g).outputOrder.order.map r.node) =
        progress (Index.of g) o (Index.of g).outputOrder.order := by
    change (g.relabel r).progressOf o' _ = g.progressOf o _
    rw [progressOf, progressOf, hsources, List.foldl_map]
    simp only [addOutput_relabel h]
  simp only [compile, outputOrder_relabel, hprogress]

end Graph
end ColorGraph
