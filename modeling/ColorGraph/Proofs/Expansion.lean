import ColorGraph.Proofs.Locality
/-!
Expressions in graphs without cycles. Main statements: whether a node has one does not depend on the
names that are given, and the expression depends on the names of the nodes upstream only.
-/

set_option autoImplicit false

namespace ColorGraph.Graph.Acyclic

open Compile

variable {g : Graph} {order : SlotOrder} {id : NodeId} {n : Node} {name? : NodeId → Option String}

theorem unfold_operation (h : g.Acyclic) {op : Operation} (hn : g.lastNode? n.id = some n)
    (hs : n.standIn? name? = none) (ho : n.kind.operation? = some op) :
    g.unfold (Node.standIn? name?) order [] n.id = .operation op
      ((g.inputEdges order n.id).map (g.unfoldEdge (Node.standIn? name?) order [])) :=
  (h.walksOut n.id).unfold_operation (fun _ => Node.isOutput_of_standIn?) hn hs ho

theorem unfold_output (h : g.Acyclic) (hn : g.lastNode? n.id = some n)
    (hs : n.standIn? name? = none) (ho : n.kind.operation? = none) :
    g.unfold (Node.standIn? name?) order [] n.id =
      ((g.producerEdge? n.id).map (g.unfoldEdge (Node.standIn? name?) order [])).getD
        (.missing none) :=
  (h.walksOut n.id).unfold_output (fun _ => Node.isOutput_of_standIn?) hn hs ho

@[elab_as_elim]
theorem induction (h : g.Acyclic) {motive : NodeId → Prop}
    (absent : ∀ id, g.lastNode? id = none → motive id)
    (source : ∀ n text, g.lastNode? n.id = some n → n.literal? = some text → motive n.id)
    (operation : ∀ n op, g.lastNode? n.id = some n → n.literal? = none →
      n.kind.operation? = some op → (∀ e : Edge, g.Feeds e.source n.id → motive e.source) →
        motive n.id)
    (unconnected : ∀ n, g.lastNode? n.id = some n → n.literal? = none →
      n.kind.operation? = none → g.producerEdge? n.id = none → motive n.id)
    (output : ∀ n e, g.lastNode? n.id = some n → n.literal? = none → n.kind.operation? = none →
      g.producerEdge? n.id = some e → motive e.source → motive n.id) (id : NodeId) :
    motive id := by
  induction id using h.wellFounded.induction with
  | _ id ih =>
    cases hn : g.lastNode? id with
    | none => exact absent id hn
    | some n =>
      obtain ⟨_, rfl⟩ := mem_of_lastNode? hn
      cases hl : n.literal? with
      | some text => exact source n text hn hl
      | none =>
        cases ho : n.kind.operation? with
        | some op => exact operation n op hn hl ho fun e he => ih e.source (.single he)
        | none =>
          cases hpe : g.producerEdge? n.id with
          | none => exact unconnected n hn hl ho hpe
          | some e =>
            have hfeeds := feeds_of_producerEdge? hpe
            exact output n e hn hl ho hpe (ih e.source (.single hfeeds))

@[elab_as_elim]
theorem named_induction (h : g.Acyclic) (name? : NodeId → Option String) {motive : NodeId → Prop}
    (absent : ∀ id, g.lastNode? id = none → motive id)
    (named : ∀ n name, g.lastNode? n.id = some n → name? n.id = some name → motive n.id)
    (source : ∀ n text, g.lastNode? n.id = some n → name? n.id = none → n.literal? = some text →
      motive n.id)
    (operation : ∀ n op, g.lastNode? n.id = some n → name? n.id = none → n.literal? = none →
      n.kind.operation? = some op → (∀ e : Edge, g.Feeds e.source n.id → motive e.source) →
        motive n.id)
    (unconnected : ∀ n, g.lastNode? n.id = some n → name? n.id = none → n.literal? = none →
      n.kind.operation? = none → g.producerEdge? n.id = none → motive n.id)
    (output : ∀ n e, g.lastNode? n.id = some n → name? n.id = none → n.literal? = none →
      n.kind.operation? = none → g.producerEdge? n.id = some e → motive e.source → motive n.id)
    (id : NodeId) : motive id := by
  have hsplit : ∀ n : Node, g.lastNode? n.id = some n → (name? n.id = none → motive n.id) →
      motive n.id := by
    intro n hn hunnamed
    cases hname : name? n.id with
    | none => exact hunnamed hname
    | some name => exact named n name hn hname
  induction id using h.induction with
  | absent id hn => exact absent id hn
  | source n text hn hl => exact hsplit n hn fun hname => source n text hn hname hl
  | operation n op hn hl ho ih => exact hsplit n hn fun hname => operation n op hn hname hl ho ih
  | unconnected n hn hl ho hpe => exact hsplit n hn fun hname => unconnected n hn hname hl ho hpe
  | output n e hn hl ho hpe ih => exact hsplit n hn fun hname => output n e hn hname hl ho hpe ih

def expansion (h : g.Acyclic) (order : SlotOrder) (name? : NodeId → Option String) (id : NodeId) :
    Option Css.Expression :=
  match g.lastNode? id with
  | none => none
  | some n =>
    match n.literal?, n.kind.operation? with
    | some text, _ => some (.literal text)
    | none, some op =>
      some (.operation op ((g.inputEdges order id).attach.map fun ⟨e, _he⟩ =>
        match name? e.source with
        | some name => some (.reference e.source name)
        | none => h.expansion order name? e.source))
    | none, none =>
      match _he : g.producerEdge? id with
      | none => none
      | some e =>
        match name? e.source with
        | some name => some (.reference e.source name)
        | none => h.expansion order name? e.source
termination_by h.wellFounded.wrap id
decreasing_by
  · exact .single (feeds_of_mem_inputEdges _he)
  · exact .single (feeds_of_producerEdge? _he)

/-- What is written where a node is needed: a reference, or the expansion of one without a name. -/
def written (h : g.Acyclic) (order : SlotOrder) (name? : NodeId → Option String) (id : NodeId) :
    Option Css.Expression :=
  match name? id with
  | some name => some (.reference id name)
  | none => h.expansion order name? id

variable {name₁? name₂? : NodeId → Option String}

theorem expansion_absent (h : g.Acyclic) (hn : g.lastNode? id = none) :
    h.expansion order name? id = none := by
  rw [expansion]
  simp [hn]

theorem expansion_source (h : g.Acyclic) {text : String} (hn : g.lastNode? id = some n)
    (hl : n.literal? = some text) : h.expansion order name? id = some (.literal text) := by
  rw [expansion]
  simp [hn, hl]

theorem expansion_operation (h : g.Acyclic) {op : Operation} (hn : g.lastNode? id = some n)
    (hl : n.literal? = none) (ho : n.kind.operation? = some op) :
    h.expansion order name? id =
      some (.operation op
        ((g.inputEdges order id).map fun e => h.written order name? e.source)) := by
  rw [expansion, hn]
  simp only [hl, ho, List.map_attach_eq_pmap]
  rw [List.pmap_eq_map]
  rfl

theorem expansion_unconnected (h : g.Acyclic) (hn : g.lastNode? id = some n)
    (hl : n.literal? = none) (ho : n.kind.operation? = none) (hpe : g.producerEdge? id = none) :
    h.expansion order name? id = none := by
  rw [expansion, hn]
  simp only [hl, ho]
  split
  · rfl
  next e he =>
    rw [hpe] at he
    cases he

theorem expansion_output (h : g.Acyclic) {e : Edge} (hn : g.lastNode? id = some n)
    (hl : n.literal? = none) (ho : n.kind.operation? = none) (hpe : g.producerEdge? id = some e) :
    h.expansion order name? id = h.written order name? e.source := by
  rw [expansion, hn]
  simp only [hl, ho]
  split
  next he =>
    rw [hpe] at he
    cases he
  next e' he =>
    obtain rfl : e = e' := Option.some.inj (hpe.symm.trans he)
    rfl

theorem written_of_named {name : String} (h : g.Acyclic) (hname : name? id = some name) :
    h.written order name? id = some (.reference id name) := by
  rw [written, hname]

theorem written_of_unnamed (h : g.Acyclic) (hname : name? id = none) :
    h.written order name? id = h.expansion order name? id := by
  rw [written, hname]

theorem expansion_congr (h : g.Acyclic)
    (hnames : ∀ x, g.Upstream x id → name₁? x = name₂? x) :
    h.expansion order name₁? id = h.expansion order name₂? id := by
  have hwritten : ∀ {id : NodeId} {e : Edge}, (∀ x, g.Upstream x id → name₁? x = name₂? x) →
      g.Feeds e.source id →
      ((∀ x, g.Upstream x e.source → name₁? x = name₂? x) →
        h.expansion order name₁? e.source = h.expansion order name₂? e.source) →
      h.written order name₁? e.source = h.written order name₂? e.source := by
    intro id e hnames he ih
    have hup : g.Upstream e.source id := .single he
    rw [written, written, hnames _ hup, ih fun x hx => hnames x (hx.trans hup)]
  induction id using h.induction with
  | absent id hn => rw [h.expansion_absent hn, h.expansion_absent hn]
  | source n text hn hl => rw [h.expansion_source hn hl, h.expansion_source hn hl]
  | operation n op hn hl ho ih =>
    rw [h.expansion_operation hn hl ho, h.expansion_operation hn hl ho]
    congr 2
    refine List.map_congr_left fun e he => ?_
    have hfeeds := feeds_of_mem_inputEdges he
    exact hwritten hnames hfeeds (ih e hfeeds)
  | unconnected n hn hl ho hpe =>
    rw [h.expansion_unconnected hn hl ho hpe, h.expansion_unconnected hn hl ho hpe]
  | output n e hn hl ho hpe ih =>
    rw [h.expansion_output hn hl ho hpe, h.expansion_output hn hl ho hpe]
    exact hwritten hnames (feeds_of_producerEdge? hpe) ih

def Expandable (h : g.Acyclic) (order : SlotOrder) (id : NodeId) : Prop :=
  (h.expansion order (fun _ => none) id).isSome

/-- Where only nodes with an expansion have names, these make no difference to which nodes do. -/
theorem isSome_expansion (h : g.Acyclic)
    (hnames : ∀ x name, name? x = some name → h.Expandable order x) :
    (h.expansion order name? id).isSome ↔ h.Expandable order id := by
  unfold Expandable
  induction id using h.induction with
  | absent id hn => rw [h.expansion_absent hn, h.expansion_absent hn]
  | source n text hn hl => rw [h.expansion_source hn hl, h.expansion_source hn hl]
  | operation n op hn hl ho _ =>
    rw [h.expansion_operation hn hl ho, h.expansion_operation hn hl ho]
    simp
  | unconnected n hn hl ho hpe =>
    rw [h.expansion_unconnected hn hl ho hpe, h.expansion_unconnected hn hl ho hpe]
  | output n e hn hl ho hpe ih =>
    rw [h.expansion_output hn hl ho hpe, h.expansion_output hn hl ho hpe]
    rw [@written_of_unnamed _ _ _ (fun _ => none) h rfl]
    cases hname : name? e.source with
    | none => rwa [h.written_of_unnamed hname]
    | some name =>
      have hexp : (h.expansion order (fun _ => none) e.source).isSome :=
        hnames e.source name hname
      simp [h.written_of_named hname, hexp]

theorem isSome_written (h : g.Acyclic)
    (hnames : ∀ x name, name? x = some name → h.Expandable order x) :
    (h.written order name? id).isSome ↔ h.Expandable order id := by
  cases hname : name? id with
  | none => rw [h.written_of_unnamed hname, h.isSome_expansion hnames]
  | some name => simpa [h.written_of_named hname] using hnames id name hname

theorem Expandable.lastNode? {h : g.Acyclic} (hx : h.Expandable order id) :
    ∃ n, g.lastNode? id = some n := by
  unfold Expandable at hx
  cases hn : g.lastNode? id with
  | none => simp [h.expansion_absent hn] at hx
  | some n => exact ⟨n, rfl⟩

theorem written_absent (h : g.Acyclic)
    (hnames : ∀ x name, name? x = some name → h.Expandable order x) (hn : g.lastNode? id = none) :
    h.written order name? id = none := by
  cases hname : name? id with
  | none => rw [h.written_of_unnamed hname, h.expansion_absent hn]
  | some name =>
    obtain ⟨n, hn'⟩ := (hnames id name hname).lastNode?
    rw [hn] at hn'
    cases hn'

theorem expression_unfold (h : g.Acyclic)
    (hnames : ∀ x name, name? x = some name → h.Expandable order x) (id : NodeId) :
    (g.unfold (Node.standIn? name?) order [] id).expression = h.written order name? id := by
  induction id using h.named_induction name? with
  | absent id hn => rw [unfold_absent hn, h.written_absent hnames hn, Tree.expression_missing]
  | named n name hn hname =>
    rw [unfold_leaf hn (Node.standIn?_named hname), h.written_of_named hname,
      Tree.expression_leaf]
  | source n text hn hname hl =>
    have hs := Node.standIn?_source hname hl
    rw [unfold_leaf hn hs, h.written_of_unnamed hname, h.expansion_source hn hl,
      Tree.expression_leaf]
  | operation n op hn hname hl ho ih =>
    have hs := Node.standIn?_inner hname hl
    rw [h.unfold_operation hn hs ho, h.written_of_unnamed hname, h.expansion_operation hn hl ho,
      Tree.expression_operation, List.map_map]
    congr 2
    refine List.map_congr_left fun e he => ?_
    exact (expression_unfoldEdge e).trans (ih e (feeds_of_mem_inputEdges he))
  | unconnected n hn hname hl ho hpe =>
    have hs := Node.standIn?_inner hname hl
    rw [h.unfold_output hn hs ho, hpe, h.written_of_unnamed hname,
      h.expansion_unconnected hn hl ho hpe]
    exact Tree.expression_missing _
  | output n e hn hname hl ho hpe ih =>
    have hs := Node.standIn?_inner hname hl
    rw [h.unfold_output hn hs ho, hpe, h.written_of_unnamed hname,
      h.expansion_output hn hl ho hpe]
    exact (expression_unfoldEdge e).trans ih

end ColorGraph.Graph.Acyclic
