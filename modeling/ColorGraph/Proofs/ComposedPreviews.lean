import ColorGraph.Proofs.Locality
/-!
Previews that are made of previews. Main statement: where no circle leads to a node, its preview is
that of its inputs by themselves put together, and it is the same wherever a walk comes upon it.
-/

set_option autoImplicit false

namespace ColorGraph.Graph

open Relation

variable {g : Graph} {order : SlotOrder} {path : List NodeId} {id : NodeId} {n : Node}

theorem preview_eq (id : NodeId) :
    g.preview order id = Preview.ofTree (g.unfold Node.source? order [] id) :=
  Preview.evaluate_eq id

theorem preview_absent (hn : g.lastNode? id = none) : g.preview order id = .ok none := by
  rw [preview_eq, unfold_absent hn, Preview.ofTree, Tree.fold]
  rfl

theorem preview_of_unfoldEdge (e : Edge) :
    Preview.ofTree (g.unfoldEdge Node.source? order [] e) = g.preview order e.source := by
  rw [preview_eq, Preview.ofTree, fold_unfoldEdge]

namespace WalksOut

theorem preview_operation (h : g.WalksOut n.id) {op : Operation} (hn : g.lastNode? n.id = some n)
    (hk : n.kind = .operation op) : g.preview order n.id =
      Preview.applyAll op ((g.inputEdges order n.id).map fun e => g.preview order e.source) := by
  have hs : n.source? = none := by simp [Node.source?, hk, Node.Kind.isSource]
  have ho : n.kind.operation? = some op := by rw [hk]; rfl
  rw [preview_eq, h.unfold_operation (fun _ => Node.isOutput_of_source?) hn hs ho, Preview.ofTree,
    Tree.fold, List.map_map]
  congr 1
  exact List.map_congr_left fun e _ => preview_of_unfoldEdge e

theorem preview_output (h : g.WalksOut n.id) (hn : g.lastNode? n.id = some n)
    (ho : n.kind.isOutput = true) :
    g.preview order n.id = (g.producer? n.id).elim (.ok none) (g.preview order) := by
  have hs : n.source? = none := by
    unfold Node.source?
    cases hk : n.kind <;> simp [hk, Node.Kind.isSource, Node.Kind.isOutput] at ho ⊢
  have hop := (Node.isOutput_iff.1 ho).2
  rw [preview_eq, h.unfold_output (fun _ => Node.isOutput_of_source?) hn hs hop, producer?]
  cases g.producerEdge? n.id with
  | none =>
    rw [Option.map_none, Option.map_none, Option.getD_none, Option.elim_none, Preview.ofTree,
      Tree.fold]
    rfl
  | some e =>
    rw [Option.map_some, Option.map_some, Option.getD_some, Option.elim_some,
      preview_of_unfoldEdge]

/-- A walk that has come from nodes further down and may still go to all others finds the same. -/
theorem evaluateNode_eq (h : g.WalksOut n.id) (hn : g.lastNode? n.id = some n) {depth : Nat}
    (hpath : ∀ x ∈ path, TransGen g.Leads n.id x) (hdepth : g.unvisited path < depth) :
    Preview.evaluateNode (Index.of g) order depth path n = g.preview order n.id := by
  rw [Preview.evaluateNode_eq hdepth hn,
    h.unfold_eq (fun _ => Node.isOutput_of_source?) hpath, preview_eq]

end WalksOut

/-- Where no circle leads to a node, the preview of an operation is the operation on the previews of
its inputs, and that of an output is the preview of what its first edge leads from, each as it is by
itself. A walk that comes upon the node finds the same, whichever nodes it has come from. -/
theorem preview_composed (h : g.WalksOut n.id) (hn : g.lastNode? n.id = some n) :
    (∀ op, n.kind = .operation op → g.preview order n.id = do
      let inputs ← (g.inputEdges order n.id).mapM fun e => g.preview order e.source
      Preview.apply op inputs) ∧
    (n.kind.isOutput = true → g.preview order n.id =
      match g.producerEdge? n.id with
      | some e => g.preview order e.source
      | none => pure none) ∧
    (∀ id, g.lastNode? id = none → g.preview order id = pure none) ∧
    ∀ depth path, (∀ x ∈ path, TransGen g.Leads n.id x) → g.unvisited path < depth →
      Preview.evaluateNode (Index.of g) order depth path n = g.preview order n.id := by
  refine ⟨fun op hk => ?_, fun ho => ?_, fun id => preview_absent,
    fun depth path hpath hdepth => h.evaluateNode_eq hn hpath hdepth⟩
  · rw [h.preview_operation hn hk, Preview.applyAll, List.mapM_map]
    rfl
  · rw [h.preview_output hn ho, producer?]
    cases g.producerEdge? n.id <;> rfl

def kite : Graph where
  nodes := [{ id := "c", kind := .operation .mix }, { id := "c", kind := .inputNumber "" 3.0 },
    { id := "d", kind := .operation .add }, { id := "s", kind := .operation .multiply },
    { id := "t", kind := .operation .add }, { id := "o", kind := .output "" },
    { id := "m", kind := .operation .mix }]
  edges := [connection "c" "d" (some "a"), connection "c" "d" (some "b"),
    connection "c" "s" (some "a"), connection "c" "s" (some "b"), connection "s" "t" (some "b"),
    connection "d" "t" (some "a"), connection "ghost" "t" (some "c"), connection "t" "o" none,
    connection "t" "m" (some "a"), connection "m" "m" (some "b")]

theorem preview_composed_kite :
    ¬ kite.UniqueIds ∧ ¬ kite.Acyclic ∧ kite.WalksOut "t" ∧ kite.WalksOut "o" ∧
      kite.preview .lexicographic "t" = (do
        let inputs ← ["d", "s", "ghost"].mapM (kite.preview .lexicographic)
        Preview.apply .add inputs) ∧
      kite.preview .lexicographic "t" = .ok (some (.number 15.0)) ∧
      kite.preview .lexicographic "o" = kite.preview .lexicographic "t" ∧
      kite.preview .lexicographic "ghost" = pure none ∧
      Preview.evaluateNode (Index.of kite) .lexicographic 9 ["m"]
        { id := "t", kind := .operation .add } = kite.preview .lexicographic "t" := by
  have ht : kite.WalksOut "t" := by decide
  have ho : kite.WalksOut "o" := by decide
  have hleads : TransGen kite.Leads "t" "m" :=
    .single ⟨connection "t" "m" (some "a"), ⟨by simp [kite], _, rfl, .inl ⟨_, rfl⟩⟩, rfl, rfl⟩
  obtain ⟨hoperation, -, hghost, hwalk⟩ :=
    @preview_composed kite .lexicographic { id := "t", kind := .operation .add } ht rfl
  obtain ⟨-, houtput, -⟩ :=
    @preview_composed kite .lexicographic { id := "o", kind := .output "" } ho rfl
  have hm : ∀ x ∈ ["m"], TransGen kite.Leads "t" x := by
    intro x hx
    obtain rfl := List.mem_singleton.1 hx
    exact hleads
  exact ⟨by decide, by decide, ht, ho, hoperation .add rfl, rfl, houtput rfl,
    hghost "ghost" rfl, hwalk 9 ["m"] hm (by decide)⟩

end ColorGraph.Graph
