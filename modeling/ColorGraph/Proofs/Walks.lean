import ColorGraph.Proofs.Emission
/-!
Walks back from a node along the edges that compiling follows. Main statements: what a tree reports
lies on such a walk, and what lies on one is reported, unless a node with a name comes in between.
-/

set_option autoImplicit false

namespace Relation

variable {α : Type} {r : α → α → Prop} {x y : α}

theorem ReflTransGen.exists_last_step (h : ReflTransGen r y x) (hne : y ≠ x) :
    ∃ z, z ≠ x ∧ r z x ∧ ReflTransGen (fun a b => r a b ∧ a ≠ x ∧ b ≠ x) y z := by
  induction h using ReflTransGen.head_induction_on with
  | refl => exact absurd rfl hne
  | @head a c hstep _ ih =>
    by_cases hc : c = x
    · subst hc
      exact ⟨a, hne, hstep, .refl⟩
    · obtain ⟨z, hz, hzx, hwalk⟩ := ih hc
      exact ⟨z, hz, hzx, .head ⟨hstep, hne, hc⟩ hwalk⟩

theorem ReflTransGen.clear_or_stopped (h : ReflTransGen r y x) (stops : α → Prop) :
    ReflTransGen (fun a b => r a b ∧ ¬ stops a ∧ ¬ stops b) y x ∨
      ∃ z, stops z ∧ ReflTransGen r y z := by
  induction h using ReflTransGen.head_induction_on with
  | refl => exact .inl .refl
  | @head a c hstep _ ih =>
    obtain hclear | ⟨z, hz, hwalk⟩ := ih
    · by_cases ha : stops a
      · exact .inr ⟨a, ha, .refl⟩
      by_cases hc : stops c
      · exact .inr ⟨c, hc, .single hstep⟩
      · exact .inl (.head ⟨hstep, ha, hc⟩ hclear)
    · exact .inr ⟨z, hz, .head hstep hwalk⟩

theorem ReflTransGen.not_transGen_of_acc (h : ReflTransGen r y x) (hacc : Acc r x) :
    ¬ TransGen r y y := by
  intro hy
  have hback : Acc (TransGen r) y := hacc.transGen.inv (hy.trans_left h)
  clear h
  induction hback with
  | intro y _ ih => exact ih y hy hy

end Relation

namespace ColorGraph

open Compile Relation

namespace Graph

variable {g : Graph} {order : SlotOrder} {path : List NodeId} {id : NodeId} {n : Node} {e : Edge}
  {name? : NodeId → Option String} {d : Diagnostic} {log : Log}

/-- Compiling goes along every edge into an operation, and along the first one into an output. -/
def Follows (g : Graph) (e : Edge) : Prop :=
  e ∈ g.edges ∧ ∃ n, g.lastNode? e.target = some n ∧
    ((∃ op, n.kind = .operation op) ∨
      n.kind.isOutput = true ∧ g.producerEdge? e.target = some e)

def Leads (g : Graph) (a b : NodeId) : Prop :=
  ∃ e, g.Follows e ∧ e.source = a ∧ e.target = b

theorem Follows.leads (h : g.Follows e) : g.Leads e.source e.target :=
  ⟨e, h, rfl, rfl⟩

theorem Leads.feeds {a b : NodeId} (h : g.Leads a b) : g.Feeds a b := by
  obtain ⟨e, ⟨he, _⟩, hs, ht⟩ := h
  exact ⟨e, he, hs, ht⟩

def followedEdges (g : Graph) (order : SlotOrder) (n : Node) : List Edge :=
  match n.kind with
  | .operation _ => g.inputEdges order n.id
  | .output _ => (g.producerEdge? n.id).toList
  | _ => []

theorem mem_edgesInto : e ∈ g.edgesInto id ↔ e ∈ g.edges ∧ e.target = id := by
  rw [edgesInto, List.mem_filter, beq_iff_eq]

theorem mem_followedEdges (hn : g.lastNode? n.id = some n) :
    e ∈ g.followedEdges order n ↔ g.Follows e ∧ e.target = n.id := by
  have hinto : g.producerEdge? n.id = some e → e ∈ g.edges ∧ e.target = n.id :=
    fun h => mem_edgesInto.1 (List.mem_of_mem_head? h)
  have hfollows : e.target = n.id → (g.Follows e ↔ e ∈ g.edges ∧
      ((∃ op, n.kind = .operation op) ∨
        n.kind.isOutput = true ∧ g.producerEdge? n.id = some e)) := by
    intro ht
    simp [Follows, ht, hn]
  unfold followedEdges
  cases hk : n.kind with
  | operation op =>
    rw [inputEdges, (SlotOrder.sort_perm order _).mem_iff, mem_edgesInto]
    exact and_congr_left fun ht => by simp [hfollows ht, hk]
  | output name =>
    rw [Option.mem_toList]
    constructor
    · intro h
      obtain ⟨he, ht⟩ := hinto h
      exact ⟨(hfollows ht).2 ⟨he, .inr ⟨by rw [hk]; rfl, h⟩⟩, ht⟩
    · rintro ⟨h, ht⟩
      simpa [hk, Node.Kind.isOutput] using ((hfollows ht).1 h).2
  | _ =>
    simp only [List.not_mem_nil, false_iff, not_and]
    intro h ht
    simpa [hk, Node.Kind.isOutput] using ((hfollows ht).1 h).2

theorem followedEdges_operation {op : Operation} (ho : n.kind.operation? = some op) :
    g.followedEdges order n = g.inputEdges order n.id := by
  rw [followedEdges, Node.Kind.eq_operation ho]

theorem followedEdges_output (ho : n.kind.isOutput = true) :
    g.followedEdges order n = (g.producerEdge? n.id).toList := by
  unfold followedEdges
  cases hk : n.kind <;> simp [hk, Node.Kind.isOutput] at ho ⊢

theorem leads_of_mem_followedEdges (hn : g.lastNode? n.id = some n)
    (he : e ∈ g.followedEdges order n) : g.Leads e.source n.id := by
  obtain ⟨hfollows, ht⟩ := (mem_followedEdges hn).1 he
  exact ht ▸ hfollows.leads

theorem follows_of_producerEdge? (hn : g.lastNode? n.id = some n) (ho : n.kind.isOutput = true)
    (he : g.producerEdge? n.id = some e) : g.Follows e ∧ e.target = n.id := by
  obtain ⟨hmem, ht⟩ := mem_edgesInto.1 (List.mem_of_mem_head? he)
  exact ⟨⟨hmem, n, ht ▸ hn, .inr ⟨ho, ht ▸ he⟩⟩, ht⟩

theorem leads_of_producerEdge? (hn : g.lastNode? n.id = some n) (ho : n.kind.isOutput = true)
    (he : g.producerEdge? n.id = some e) : g.Leads e.source n.id := by
  obtain ⟨hfollows, ht⟩ := follows_of_producerEdge? hn ho he
  exact ht ▸ hfollows.leads

theorem not_follows_into_absent (hn : g.lastNode? e.target = none) : ¬ g.Follows e := by
  rintro ⟨_, n, hn', _⟩
  rw [hn] at hn'
  cases hn'

theorem not_follows_into_source {text : String} (hn : g.lastNode? e.target = some n)
    (hl : n.literal? = some text) : ¬ g.Follows e := by
  obtain ⟨_, ht⟩ := mem_of_lastNode? hn
  rintro ⟨_, m, hm, hkind⟩
  obtain rfl := Option.some.inj (hn.symm.trans hm)
  unfold Node.literal? at hl
  cases hk : n.kind <;> simp [hk, Node.Kind.isOutput] at hl hkind

/-- Induction along the unfolding of a node, whichever way the walk goes on from it. -/
@[elab_as_elim]
theorem walk_induction (g : Graph) (name? : NodeId → Option String)
    {motive : List NodeId → NodeId → Prop}
    (absent : ∀ path id, g.lastNode? id = none → motive path id)
    (leaf : ∀ path n x, g.lastNode? n.id = some n → n.standIn? name? = some x → motive path n.id)
    (cyclic : ∀ path n, g.lastNode? n.id = some n → n.standIn? name? = none → n.id ∈ path →
      motive path n.id)
    (inner : ∀ path n, g.lastNode? n.id = some n → n.standIn? name? = none → n.id ∉ path →
      (∀ e : Edge, motive (n.id :: path) e.source) → motive path n.id)
    (path : List NodeId) (id : NodeId) : motive path id := by
  induction path, id using g.unfold_induction (Node.standIn? name?) with
  | absent path id hn => exact absent path id hn
  | leaf path n x hn hx => exact leaf path n x hn hx
  | cyclic path n hn hx hp => exact cyclic path n hn hx hp
  | operation path n op hn hx hp _ ih => exact inner path n hn hx hp ih
  | output path n hn hx hp _ ih => exact inner path n hn hx hp ih

theorem mem_reports_unfold (hn : g.lastNode? n.id = some n) (hx : n.standIn? name? = none)
    (hp : n.id ∉ path) :
    d ∈ (g.unfold (Node.standIn? name?) order path n.id).reports ↔
      ∃ e ∈ g.followedEdges order n,
        d ∈ (g.unfoldEdge (Node.standIn? name?) order (n.id :: path) e).reports := by
  have hl := (Node.standIn?_eq_none_iff.1 hx).2
  unfold followedEdges
  cases hk : n.kind with
  | operation op =>
    rw [unfold_operation hn hx hp (by rw [hk]; rfl), Tree.reports, List.flatMap_map,
      List.mem_flatMap]
  | output name =>
    rw [unfold_output hn hx hp (by rw [hk]; rfl)]
    cases g.producerEdge? n.id <;> simp
  | _ => simp [Node.literal?, hk] at hl

theorem mem_reports_unfoldEdge :
    d ∈ (g.unfoldEdge (Node.standIn? name?) order path e).reports ↔
      d ∈ (g.unfold (Node.standIn? name?) order path e.source).reports ∨
        g.lastNode? e.source = none ∧ d = .missingNode e.id e.source := by
  unfold unfoldEdge
  cases hn : g.lastNode? e.source with
  | none => simp [unfold_absent hn]
  | some n => simp

inductive Gap (g : Graph) (id : NodeId) : Diagnostic → Prop
  | missing {e : Edge} (he : g.Follows e) (hs : g.lastNode? e.source = none)
    (hwalk : ReflTransGen g.Leads e.target id) : Gap g id (.missingNode e.id e.source)
  | cyclic {x : NodeId} (hx : TransGen g.Leads x x) (hwalk : ReflTransGen g.Leads x id) :
    Gap g id (.cyclicInput x)

theorem Gap.trans {b : NodeId} (h : g.Gap id d) (hwalk : ReflTransGen g.Leads id b) :
    g.Gap b d := by
  cases h with
  | missing he hs hw => exact .missing he hs (hw.trans hwalk)
  | cyclic hx hw => exact .cyclic hx (hw.trans hwalk)

theorem gap_of_mem_reports (hpath : ∀ x ∈ path, TransGen g.Leads id x)
    (hd : d ∈ (g.unfold (Node.standIn? name?) order path id).reports) : g.Gap id d := by
  induction path, id using g.walk_induction name? with
  | absent path id hn => simp [unfold_absent hn] at hd
  | leaf path n x hn hx => simp [unfold_leaf hn hx] at hd
  | cyclic path n hn hx hp =>
    obtain rfl : d = .cyclicInput n.id := by simpa [unfold_cyclic hn hx hp] using hd
    exact .cyclic (hpath n.id hp) .refl
  | inner path n hn hx hp ih =>
    obtain ⟨e, he, hde⟩ := (mem_reports_unfold hn hx hp).1 hd
    obtain ⟨hfollows, ht⟩ := (mem_followedEdges hn).1 he
    have hleads : g.Leads e.source n.id := ht ▸ hfollows.leads
    have hpath' : ∀ x ∈ n.id :: path, TransGen g.Leads e.source x := by
      intro x hx
      obtain rfl | hx := List.mem_cons.1 hx
      · exact .single hleads
      · exact .head hleads (hpath x hx)
    obtain hd | ⟨hs, rfl⟩ := mem_reports_unfoldEdge.1 hde
    · exact (ih e hpath' hd).trans (.single hleads)
    · exact .missing hfollows hs (ht ▸ .refl)

/-- What a walk does not go beyond: nodes that it has come from, and nodes with names. -/
def Stops (name? : NodeId → Option String) (path : List NodeId) (id : NodeId) : Prop :=
  id ∈ path ∨ (name? id).isSome

def LeadsOn (g : Graph) (name? : NodeId → Option String) (path : List NodeId) (a b : NodeId) :
    Prop :=
  g.Leads a b ∧ ¬ Stops name? path a ∧ ¬ Stops name? path b

theorem exists_follows_into (he : g.Follows e)
    (hwalk : ReflTransGen (g.LeadsOn name? path) e.target id) :
    ∃ e', g.Follows e' ∧ e'.target = id := by
  obtain rfl | ⟨_, _, ⟨e', he', _, ht⟩, _⟩ := hwalk.cases_tail
  · exact ⟨e, he, rfl⟩
  · exact ⟨e', he', ht⟩

/-- An edge from nowhere is reported when a walk back from the node that stops at nothing leads to
it: it goes into the node, or the walk to it need not come back to the node. -/
theorem missing_mem_reports (hid : ¬ Stops name? path id) (he : g.Follows e)
    (hs : g.lastNode? e.source = none)
    (hwalk : ReflTransGen (g.LeadsOn name? path) e.target id) :
    .missingNode e.id e.source ∈ (g.unfold (Node.standIn? name?) order path id).reports := by
  obtain ⟨hp, hname⟩ := not_or.1 hid
  rw [Option.not_isSome_iff_eq_none] at hname
  induction path, id using g.walk_induction name? with
  | absent path id hn =>
    obtain ⟨f, hf, hft⟩ := exists_follows_into he hwalk
    exact absurd hf (not_follows_into_absent (hft ▸ hn))
  | leaf path n x hn hx =>
    obtain ⟨f, hf, hft⟩ := exists_follows_into he hwalk
    rw [Node.standIn?_unnamed hname] at hx
    obtain ⟨text, hl, _⟩ := Option.map_eq_some_iff.1 hx
    exact absurd hf (not_follows_into_source (hft ▸ hn) hl)
  | cyclic path n _ _ hp' => exact absurd hp' hp
  | inner path n hn hx _ ih =>
    rw [mem_reports_unfold hn hx hp]
    by_cases htarget : e.target = n.id
    · exact ⟨e, (mem_followedEdges hn).2 ⟨he, htarget⟩,
        mem_reports_unfoldEdge.2 (.inr ⟨hs, rfl⟩)⟩
    -- The walk is cut at its last step to the node: the node is on the path from now on, and only
    -- what comes before that step keeps clear of it.
    · obtain ⟨_, hz, ⟨⟨f', hf', rfl, ht⟩, hclear, _⟩, hwalk'⟩ :=
        hwalk.exists_last_step htarget
      have hstops : ∀ x, x ≠ n.id → ¬ Stops name? path x → ¬ Stops name? (n.id :: path) x := by
        intro x hx hclear
        simpa [Stops, hx] using hclear
      have hstill : ReflTransGen (g.LeadsOn name? (n.id :: path)) e.target f'.source := by
        refine ReflTransGen.mono ?_ _ _ hwalk'
        rintro a b ⟨⟨hleads, ha, hb⟩, hna, hnb⟩
        exact ⟨hleads, hstops a hna ha, hstops b hnb hb⟩
      have hclear' := hstops _ hz hclear
      obtain ⟨hp', hname'⟩ := not_or.1 hclear'
      rw [Option.not_isSome_iff_eq_none] at hname'
      have hmem := ih f' hclear' hstill hp' hname'
      exact ⟨f', (mem_followedEdges hn).2 ⟨hf', ht⟩, mem_reports_unfoldEdge.2 (.inl hmem)⟩

theorem acc_of_no_follows (h : ∀ e, g.Follows e → e.target ≠ id) : Acc g.Leads id :=
  .intro _ fun _ ⟨e, he, _, ht⟩ => absurd ht (h e he)

/-- Where no node is met again, the walk comes to an end whichever way it goes. -/
theorem acc_of_reports (hnames : ∀ x, (name? x).isSome → Acc g.Leads x)
    (hreports : ∀ x, .cyclicInput x ∉ (g.unfold (Node.standIn? name?) order path id).reports) :
    Acc g.Leads id := by
  induction path, id using g.walk_induction name? with
  | absent path id hn =>
    exact acc_of_no_follows fun e he ht => not_follows_into_absent (ht ▸ hn) he
  | leaf path n x hn hx =>
    cases hname : name? n.id with
    | some name => exact hnames n.id (by rw [hname]; rfl)
    | none =>
      rw [Node.standIn?_unnamed hname] at hx
      obtain ⟨text, hl, _⟩ := Option.map_eq_some_iff.1 hx
      exact acc_of_no_follows fun e he ht => not_follows_into_source (ht ▸ hn) hl he
  | cyclic path n hn hx hp => exact absurd (by simp [unfold_cyclic hn hx hp]) (hreports n.id)
  | inner path n hn hx hp ih =>
    refine .intro _ ?_
    rintro _ ⟨e, he, rfl, ht⟩
    refine ih e fun x hmem => hreports x ?_
    exact (mem_reports_unfold hn hx hp).2
      ⟨e, (mem_followedEdges hn).2 ⟨he, ht⟩, mem_reports_unfoldEdge.2 (.inl hmem)⟩

def WalksOut (g : Graph) (id : NodeId) : Prop :=
  ∀ x, ReflTransGen g.Leads x id → ¬ TransGen g.Leads x x

theorem WalksOut.source {a b : NodeId} (h : g.WalksOut b) (hleads : g.Leads a b) :
    g.WalksOut a :=
  fun x hwalk => h x (hwalk.tail hleads)

theorem Acyclic.walksOut (h : g.Acyclic) (id : NodeId) : g.WalksOut id :=
  fun x _ hx => h x (TransGen.mono (fun _ _ => Leads.feeds) _ _ hx)

theorem exists_node_of_leads {a b : NodeId} (h : g.Leads a b) : ∃ n ∈ g.nodes, n.id = b := by
  obtain ⟨_, ⟨_, n, hn, _⟩, _, rfl⟩ := h
  exact ⟨n, mem_of_lastNode? hn⟩

theorem walksOut_iff (order : SlotOrder) : g.WalksOut id ↔ ∀ n ∈ g.nodes,
    .cyclicInput n.id ∉ (g.unfold (Node.standIn? fun _ => none) order [] id).reports := by
  have hcircle : ∀ x, .cyclicInput x ∈
      (g.unfold (Node.standIn? fun _ => none) order [] id).reports →
        TransGen g.Leads x x ∧ ReflTransGen g.Leads x id := by
    intro x hreport
    cases gap_of_mem_reports (List.forall_mem_nil _) hreport with
    | cyclic hx hwalk => exact ⟨hx, hwalk⟩
  constructor
  · intro h n _ hreport
    obtain ⟨hx, hwalk⟩ := hcircle n.id hreport
    exact h n.id hwalk hx
  · intro h x hwalk
    have hreports : ∀ y, .cyclicInput y ∉
        (g.unfold (Node.standIn? fun _ => none) order [] id).reports := by
      intro y hreport
      obtain ⟨_, _, hleads⟩ := TransGen.tail'_iff.1 (hcircle y hreport).1
      obtain ⟨n, hn, rfl⟩ := exists_node_of_leads hleads
      exact h n hn hreport
    exact hwalk.not_transGen_of_acc (acc_of_reports (fun _ hname => by cases hname) hreports)

theorem walksOut_of_absent (hn : g.lastNode? id = none) : g.WalksOut id :=
  (walksOut_iff .lexicographic).2 (by simp [unfold_absent hn])

theorem walksOut_iff_expand (hn : g.lastNode? id = some n) : g.WalksOut id ↔ ∀ m ∈ g.nodes,
    .cyclicInput m.id ∉ (expand ⟨Index.of g, .lexicographic, []⟩ (depthFor g) [] n []).2 := by
  obtain ⟨_, rfl⟩ := mem_of_lastNode? hn
  have hdepth : g.unvisited [] < depthFor g := Nat.lt_succ_of_le List.countP_le_length
  rw [expand_eq hdepth hn, walksOut_iff .lexicographic]
  simp only [Log.mem_reportAll, List.not_mem_nil, false_or]
  rfl

instance (g : Graph) (id : NodeId) : Decidable (g.WalksOut id) :=
  match hn : g.lastNode? id with
  | none => isTrue (walksOut_of_absent hn)
  | some _ => decidable_of_iff _ (walksOut_iff_expand hn).symm

end Graph
end ColorGraph
