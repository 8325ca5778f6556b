import ColorGraph.Proofs.Walks
/-!
What walks backward look at. Main statements: two graphs unfold to the same trees on a set of ids
that no walk leaves and where walks are the same, so that previews and outputs are the same there;
what has been walked makes no difference to a node that no circle leads to; and a preview depends
only on the last nodes and the edges of a set of ids that no edge leads into.
-/

set_option autoImplicit false

namespace ColorGraph

open Compile

theorem Node.isOutput_of_source? {n : Node} (hs : n.source? = none)
    (ho : n.kind.operation? = none) : n.kind.isOutput = true := by
  unfold source? at hs
  cases hk : n.kind <;> simp [hk, Kind.isSource, Kind.operation?, Kind.isOutput] at hs ho ⊢

namespace Graph

/-- Walks back from the set do not leave it, and they are the same in both graphs. -/
structure SameWalks (g h : Graph) (order : SlotOrder) (s : Set NodeId) : Prop where
  closed : ∀ {a b}, g.Leads a b → b ∈ s → a ∈ s
  node : ∀ id ∈ s, g.lastNode? id = h.lastNode? id
  edges : ∀ n, n.id ∈ s → g.lastNode? n.id = some n →
    g.followedEdges order n = h.followedEdges order n

/-- No edge leads into the set from outside, and walks inside find the same in both graphs: the same
nodes, with the same inputs, and the same first edge where it is the one that counts. -/
structure AlikeOn (g h : Graph) (order : SlotOrder) (s : Set NodeId) : Prop where
  closed : ∀ {a b}, g.Feeds a b → b ∈ s → a ∈ s
  node : ∀ id ∈ s, g.lastNode? id = h.lastNode? id
  inputs : ∀ n, n.id ∈ s → g.lastNode? n.id = some n →
    g.inputEdges order n.id = h.inputEdges order n.id
  producer : ∀ n, n.id ∈ s → g.lastNode? n.id = some n → n.kind.isOutput = true →
    g.producerEdge? n.id = h.producerEdge? n.id

variable {α : Type} {g h : Graph} {order : SlotOrder} {s : Set NodeId}
  {path₁ path₂ : List NodeId} {id : NodeId} {n : Node} {name₁? name₂? : NodeId → Option String}

namespace SameWalks

theorem mem_cons_congr (hpath : ∀ x ∈ s, (x ∈ path₁ ↔ x ∈ path₂)) (a : NodeId) :
    ∀ x ∈ s, (x ∈ a :: path₁ ↔ x ∈ a :: path₂) := by
  intro x hx
  rw [List.mem_cons, List.mem_cons, hpath x hx]

theorem unfold_eq (hs : g.SameWalks h order s) {leaf₁? leaf₂? : Node → Option α}
    (houtput : ∀ n, leaf₁? n = none → n.kind.operation? = none → n.kind.isOutput = true)
    (hleaf : ∀ n, n.id ∈ s → leaf₁? n = leaf₂? n)
    (hpath : ∀ x ∈ s, (x ∈ path₁ ↔ x ∈ path₂)) (hid : id ∈ s) :
    g.unfold leaf₁? order path₁ id = h.unfold leaf₂? order path₂ id := by
  induction path₁, id using g.unfold_induction leaf₁? generalizing path₂ with
  | absent path id hn =>
    have hn' := hs.node id hid
    rw [hn] at hn'
    rw [unfold_absent hn, unfold_absent hn'.symm]
  | leaf path n a hn ha =>
    have hn' := hs.node n.id hid ▸ hn
    rw [unfold_leaf hn ha, unfold_leaf hn' (hleaf n hid ▸ ha)]
  | cyclic path n hn ha hp =>
    have hn' := hs.node n.id hid ▸ hn
    rw [unfold_cyclic hn ha hp, unfold_cyclic hn' (hleaf n hid ▸ ha) ((hpath n.id hid).1 hp)]
  | operation path n op hn ha hp ho ih =>
    have hn' := hs.node n.id hid ▸ hn
    have hp' : n.id ∉ path₂ := fun hmem => hp ((hpath n.id hid).2 hmem)
    have hedges := hs.edges n hid hn
    rw [followedEdges_operation ho, followedEdges_operation ho] at hedges
    rw [unfold_operation hn ha hp ho, unfold_operation hn' (hleaf n hid ▸ ha) hp' ho, ← hedges]
    congr 1
    refine List.map_congr_left fun e he => ?_
    have hleads := leads_of_mem_followedEdges hn (followedEdges_operation ho ▸ he)
    have hsource := hs.closed hleads hid
    rw [unfoldEdge, unfoldEdge, ← hs.node e.source hsource,
      ih e (mem_cons_congr hpath n.id) hsource]
  | output path n hn ha hp ho ih =>
    have hn' := hs.node n.id hid ▸ hn
    have hp' : n.id ∉ path₂ := fun hmem => hp ((hpath n.id hid).2 hmem)
    have hkind := houtput n ha ho
    have hedge := congrArg List.head? (hs.edges n hid hn)
    rw [followedEdges_output hkind, followedEdges_output hkind, Option.head?_toList,
      Option.head?_toList] at hedge
    rw [unfold_output hn ha hp ho, unfold_output hn' (hleaf n hid ▸ ha) hp' ho, ← hedge]
    cases he : g.producerEdge? n.id with
    | none => rfl
    | some e =>
      have hsource := hs.closed (leads_of_producerEdge? hn hkind he) hid
      rw [Option.map_some, Option.map_some, unfoldEdge, unfoldEdge, ← hs.node e.source hsource,
        ih e (mem_cons_congr hpath n.id) hsource]

theorem unfoldEdge_eq (hs : g.SameWalks h order s) (hnames : ∀ id ∈ s, name₁? id = name₂? id)
    {e : Edge} (he : e.source ∈ s) :
    g.unfoldEdge (Node.standIn? name₁?) order [] e =
      h.unfoldEdge (Node.standIn? name₂?) order [] e := by
  have hleaf : ∀ n : Node, n.id ∈ s → n.standIn? name₁? = n.standIn? name₂? := by
    intro n hn
    rw [Node.standIn?, Node.standIn?, hnames n.id hn]
  rw [unfoldEdge, unfoldEdge, ← hs.node e.source he,
    hs.unfold_eq (fun _ => Node.isOutput_of_standIn?) hleaf (fun _ _ => Iff.rfl) he]

theorem outputTree_eq (hs : g.SameWalks h order s) (hnames : ∀ id ∈ s, name₁? id = name₂? id)
    (hp : ∀ p, g.producer? n.id = some p → p ∈ s)
    (hedge : g.producerEdge? n.id = h.producerEdge? n.id) :
    g.outputTree name₁? order n = h.outputTree name₂? order n := by
  unfold outputTree
  rw [← hedge]
  cases n.kind with
  | output name =>
    cases he : g.producerEdge? n.id with
    | none => rfl
    | some e => simp only [hs.unfoldEdge_eq hnames (hp e.source (producer?_of_edge he))]
  | _ => rfl

theorem outputDefinition?_eq {o : Options} (hs : g.SameWalks h o.slotOrder s)
    (hnames : ∀ id ∈ s, name₁? id = name₂? id) (hp : ∀ p, g.producer? n.id = some p → p ∈ s)
    (hedge : g.producerEdge? n.id = h.producerEdge? n.id) :
    g.outputDefinition? o name₁? n = h.outputDefinition? o name₂? n := by
  unfold outputDefinition?
  rw [hs.outputTree_eq hnames hp hedge, producer?, producer?, hedge]

end SameWalks

theorem sameWalks_walk (g : Graph) (order : SlotOrder) (id : NodeId) :
    g.SameWalks g order {x | Relation.ReflTransGen g.Leads x id} where
  closed hleads hwalk := .head hleads hwalk
  node _ _ := rfl
  edges _ _ _ := rfl

namespace WalksOut

variable {leaf? : Node → Option α} {path : List NodeId} {e : Edge}

/-- Nodes that a walk has come from are not met again when no walk comes to a circle. -/
theorem unfold_eq (h : g.WalksOut id)
    (houtput : ∀ n, leaf? n = none → n.kind.operation? = none → n.kind.isOutput = true)
    (hpath : ∀ x ∈ path, Relation.TransGen g.Leads id x) :
    g.unfold leaf? order path id = g.unfold leaf? order [] id := by
  refine (g.sameWalks_walk order id).unfold_eq houtput (fun _ _ => rfl) (fun x hwalk => ?_) .refl
  have hx : x ∉ path := fun hx => h x hwalk (.trans_right hwalk (hpath x hx))
  simp [hx]

theorem unfoldEdge_eq (h : g.WalksOut id)
    (houtput : ∀ n, leaf? n = none → n.kind.operation? = none → n.kind.isOutput = true)
    (hleads : g.Leads e.source id) :
    g.unfoldEdge leaf? order [id] e = g.unfoldEdge leaf? order [] e := by
  have hpath : ∀ x ∈ [id], Relation.TransGen g.Leads e.source x := by
    intro x hx
    obtain rfl := List.mem_singleton.1 hx
    exact .single hleads
  rw [unfoldEdge, unfoldEdge, (h.source hleads).unfold_eq houtput hpath]

theorem unfold_operation {op : Operation} (h : g.WalksOut n.id)
    (houtput : ∀ n, leaf? n = none → n.kind.operation? = none → n.kind.isOutput = true)
    (hn : g.lastNode? n.id = some n) (ha : leaf? n = none) (ho : n.kind.operation? = some op) :
    g.unfold leaf? order [] n.id =
      .operation op ((g.inputEdges order n.id).map (g.unfoldEdge leaf? order [])) := by
  rw [Graph.unfold_operation hn ha List.not_mem_nil ho]
  congr 1
  refine List.map_congr_left fun e he => h.unfoldEdge_eq houtput ?_
  exact leads_of_mem_followedEdges hn (followedEdges_operation ho ▸ he)

theorem unfold_output (h : g.WalksOut n.id)
    (houtput : ∀ n, leaf? n = none → n.kind.operation? = none → n.kind.isOutput = true)
    (hn : g.lastNode? n.id = some n) (ha : leaf? n = none) (ho : n.kind.operation? = none) :
    g.unfold leaf? order [] n.id =
      ((g.producerEdge? n.id).map (g.unfoldEdge leaf? order [])).getD (.missing none) := by
  rw [Graph.unfold_output hn ha List.not_mem_nil ho]
  cases hpe : g.producerEdge? n.id with
  | none => rfl
  | some e =>
    have hleads := leads_of_producerEdge? hn (houtput n ha ho) hpe
    rw [Option.map_some, Option.map_some, h.unfoldEdge_eq houtput hleads]

end WalksOut

/-- Nodes and edges that stand in the same order are alike whatever the order of slots is. -/
theorem alikeOn_of_edgesInto (hclosed : ∀ {a b}, g.Feeds a b → b ∈ s → a ∈ s)
    (hnode : ∀ id ∈ s, g.lastNode? id = h.lastNode? id)
    (hedges : ∀ id ∈ s, g.edgesInto id = h.edgesInto id) : g.AlikeOn h order s where
  closed := hclosed
  node := hnode
  inputs n hn _ := by rw [inputEdges, inputEdges, hedges n.id hn]
  producer n hn _ _ := by rw [producerEdge?, producerEdge?, hedges n.id hn]

namespace AlikeOn

theorem sameWalks (hs : g.AlikeOn h order s) : g.SameWalks h order s where
  closed hleads := hs.closed hleads.feeds
  node := hs.node
  edges n hid hn := by
    unfold followedEdges
    cases hk : n.kind with
    | operation op => exact hs.inputs n hid hn
    | output name =>
      have ho : n.kind.isOutput = true := by rw [hk]; rfl
      exact congrArg Option.toList (hs.producer n hid hn ho)
    | _ => rfl

theorem preview_eq (hs : g.AlikeOn h order s) (hid : id ∈ s) :
    g.preview order id = h.preview order id := by
  have htree : g.unfold Node.source? order [] id = h.unfold Node.source? order [] id :=
    hs.sameWalks.unfold_eq (fun _ => Node.isOutput_of_source?) (fun _ _ => rfl)
      (fun _ _ => Iff.rfl) hid
  rw [preview, preview, Preview.evaluate_eq, Preview.evaluate_eq, htree]

theorem producer_mem (hs : g.AlikeOn h order s) (hn : n.id ∈ s) {p : NodeId}
    (hp : g.producer? n.id = some p) : p ∈ s := by
  obtain ⟨e, he, rfl⟩ := Option.map_eq_some_iff.1 hp
  exact hs.closed (feeds_of_producerEdge? he) hn

theorem outputTree_eq (hs : g.AlikeOn h order s) (hnames : ∀ id ∈ s, name₁? id = name₂? id)
    (hn : n.id ∈ s) (hedge : g.producerEdge? n.id = h.producerEdge? n.id) :
    g.outputTree name₁? order n = h.outputTree name₂? order n :=
  hs.sameWalks.outputTree_eq hnames (fun _ => hs.producer_mem hn) hedge

theorem outputDefinition?_eq {o : Options} (hs : g.AlikeOn h o.slotOrder s)
    (hnames : ∀ id ∈ s, name₁? id = name₂? id) (hn : n.id ∈ s)
    (hedge : g.producerEdge? n.id = h.producerEdge? n.id) :
    g.outputDefinition? o name₁? n = h.outputDefinition? o name₂? n :=
  hs.sameWalks.outputDefinition?_eq hnames (fun _ => hs.producer_mem hn) hedge

end AlikeOn

/-- Where the last nodes and the edges into them are the same, with all that feeds them, previews
are the same. -/
theorem preview_eq_of_edgesInto (hclosed : ∀ id ∈ s, ∀ e ∈ g.edgesInto id, e.source ∈ s)
    (hnode : ∀ id ∈ s, g.lastNode? id = h.lastNode? id)
    (hedges : ∀ id ∈ s, g.edgesInto id = h.edgesInto id) (order : SlotOrder) :
    ∀ id ∈ s, g.preview order id = h.preview order id := by
  have hfeeds : ∀ {a b}, g.Feeds a b → b ∈ s → a ∈ s := by
    rintro a b ⟨e, he, rfl, rfl⟩ hb
    exact hclosed e.target hb e (List.mem_filter.2 ⟨he, beq_self_eq_true _⟩)
  intro id hid
  exact (alikeOn_of_edgesInto hfeeds hnode hedges).preview_eq hid

def whirl : Graph where
  nodes := [{ id := "c", kind := .inputColor "old" "blue" },
    { id := "c", kind := .inputColor "a" "red" }, { id := "d", kind := .operation .darken },
    { id := "m", kind := .operation .mix }]
  edges := [connection "c" "m" (some "in-1"), connection "m" "d" none,
    connection "d" "m" (some "in-0"), connection "ghost" "m" (some "in-2")]

def crowdedWhirl : Graph where
  nodes := [{ id := "m", kind := .output "old" }, { id := "m", kind := .operation .mix },
    { id := "x", kind := .inputNumber "n" 2.0 }, { id := "d", kind := .operation .darken },
    { id := "c", kind := .inputColor "a" "red" }, { id := "o", kind := .output "mixed" }]
  edges := [connection "m" "o" none, connection "c" "m" (some "in-1"), connection "x" "o" none,
    connection "d" "m" (some "in-0"), connection "m" "d" none,
    connection "ghost" "m" (some "in-2"), connection "d" "x" none]

theorem preview_eq_of_edgesInto_whirl :
    whirl.lastNode? "ghost" = none ∧ whirl.Feeds "d" "m" ∧ whirl.Feeds "m" "d" ∧
      ∀ order, ∀ id ∈ ["c", "d", "ghost", "m"],
        whirl.preview order id = crowdedWhirl.preview order id := by
  have hclosed : ∀ id ∈ ["c", "d", "ghost", "m"], ∀ e ∈ whirl.edgesInto id,
      e.source ∈ ["c", "d", "ghost", "m"] := by decide
  have hnode : ∀ id ∈ ["c", "d", "ghost", "m"], whirl.lastNode? id = crowdedWhirl.lastNode? id := by
    simp only [List.forall_mem_cons]
    exact ⟨rfl, rfl, rfl, rfl, List.forall_mem_nil _⟩
  have hedges : ∀ id ∈ ["c", "d", "ghost", "m"],
      whirl.edgesInto id = crowdedWhirl.edgesInto id := by
    simp only [List.forall_mem_cons]
    exact ⟨rfl, rfl, rfl, rfl, List.forall_mem_nil _⟩
  refine ⟨rfl, ⟨connection "d" "m" (some "in-0"), by simp [whirl], rfl, rfl⟩,
    ⟨connection "m" "d" none, by simp [whirl], rfl, rfl⟩, ?_⟩
  exact preview_eq_of_edgesInto (s := {id | id ∈ ["c", "d", "ghost", "m"]}) hclosed hnode hedges

end Graph
end ColorGraph
