import ColorGraph.Proofs.RecordOrder
/-!
Graphs that come from JSON. Main statement: what their nodes and edges keep of it is stored, apart
from the members that a kind of node or an edge uses itself.
-/

set_option autoImplicit false

namespace ColorGraph

namespace Json

theorem Draft.refuse_ne_ok {α : Type} {wanted : String} {d : Draft} {a : α} :
    d.refuse wanted ≠ .ok a := by
  unfold Draft.refuse
  split <;> exact fun h => by cases h

section

variable {σ α : Type}

theorem required_eq_ok {field : String} {a? : Option α} {a : α} :
    required field a? = .ok a ↔ a? = some a := by
  cases a? <;> simp [required, pure, Except.pure, throw, throwThe, MonadExceptOf.throw]

theorem DraftItems.of_readAll {read : Draft → Read α} {Q : α → Prop}
    (hread : ∀ d a, (∀ n ∈ Draft.numbers d, n.Fits) → read d = .ok a → Q a) :
    (items : DraftItems) → (∀ n ∈ items.numbers, n.Fits) → {as : List α} →
      items.readAll read = .ok as → ∀ a ∈ as, Q a
  | .done, _, _, h => by
    cases h
    exact List.forall_mem_nil _
  | .item value rest, hfits, _, h => by
    obtain ⟨a, ha, h⟩ := Except.bind_eq_ok.1 h
    obtain ⟨as, has, h⟩ := Except.bind_eq_ok.1 h
    cases h
    have hfirst := hread value a (fun n hn => hfits n (List.mem_append_left _ hn)) ha
    have hrest := of_readAll hread rest (fun n hn => hfits n (List.mem_append_right _ hn)) has
    exact List.forall_mem_cons.2 ⟨hfirst, hrest⟩
  | .broken _, _, _, h => by cases h

theorem Draft.of_readList {depth inner : Nat} (henter : enter depth = .ok inner)
    {read : Nat → Draft → Read α} {Q : α → Prop}
    (hread : ∀ d a, (∀ n ∈ Draft.numbers d, n.Fits) → read inner d = .ok a → Q a) {d : Draft}
    {as : List α} (hfits : ∀ n ∈ d.numbers, n.Fits) (h : d.readList depth read = .ok as) :
    ∀ a ∈ as, Q a := by
  unfold Draft.readList at h
  split at h
  next items =>
    obtain ⟨depth', henter', h⟩ := Except.bind_eq_ok.1 h
    cases henter.symm.trans (Except.mapError_eq_ok.1 henter')
    exact items.of_readAll hread hfits h
  · exact absurd h refuse_ne_ok

theorem Draft.stored_of_readMap {depth inner : Nat} (henter : enter depth = .ok inner) {d : Draft}
    {ms : Members} (hfits : ∀ n ∈ d.numbers, n.Fits) (h : d.readMap depth = .ok ms) :
    ms.Stored inner := by
  unfold Draft.readMap at h
  split at h
  next members =>
    obtain ⟨depth', henter', h⟩ := Except.bind_eq_ok.1 (Except.mapError_eq_ok.1 h)
    cases henter.symm.trans henter'
    exact stored_of_keepMembers members hfits Members.stored_nil h
  · exact absurd h refuse_ne_ok

def Field.Keeps (f : Field σ) (depth : Nat) (P : σ → Prop) : Prop :=
  ∀ value s s', (∀ n ∈ Draft.numbers value, n.Fits) → P s → f.read depth value s = .ok s' → P s'

structure Members.StoredBeside (names : List String) (depth : Nat) (ms : Members) : Prop where
  stored : ms.Stored depth
  keys : ∀ m ∈ ms, m.1 ∉ names

theorem Members.storedBeside_nil (names : List String) (depth : Nat) :
    Members.StoredBeside names depth [] :=
  ⟨stored_nil, List.forall_mem_nil _⟩

theorem Members.StoredBeside.insert {names : List String} {depth : Nat} {ms : Members}
    (h : ms.StoredBeside names depth) {key : String} {v : Json} (hv : v.Stored depth)
    (hkey : key ∉ names) : (ms.insert key v).StoredBeside names depth where
  stored := h.stored.insert hv key
  keys m hm := by
    obtain rfl | hm := mem_insert hm
    · exact hkey
    · exact h.keys m hm

structure Record.Keeps (r : Record σ) (depth : Nat) (P : σ → Prop) : Prop where
  field : ∀ f ∈ r.fields, f.Keeps depth P
  other : ∀ key value s s', (∀ n ∈ value.numbers, n.Fits) → key ∉ r.fields.map (·.name) → P s →
    r.readOther depth key value s = .ok s' → P s'

variable {r : Record σ} {depth : Nat} {P : σ → Prop} {s s' : σ}

theorem Field.keeps_of {name : String} {opt : Bool} {get : σ → Option α} {set : α → σ → σ}
    {read : Nat → Draft → Read α}
    (h : ∀ value a s, (∀ n ∈ Draft.numbers value, n.Fits) → read depth value = .ok a → P s →
      P (set a s)) : (Field.of name opt get set read).Keeps depth P := by
  intro value s s' hfits hs hread
  obtain ⟨a, ha, rfl⟩ := read_of_eq_ok.1 hread
  exact h value a s hfits ha hs

@[simp]
theorem Field.keeps_of_same {name : String} {opt : Bool} {get : σ → Option α} {set : α → σ → σ}
    {read : Nat → Draft → Read α} (h : ∀ a s, P (set a s) ↔ P s) :
    (Field.of name opt get set read).Keeps depth P :=
  keeps_of fun _ a s _ _ hs => (h a s).2 hs

theorem Record.keeps_of_kept {add : String → Json → σ → σ} (hothers : r.others = .kept add)
    (hfields : ∀ f ∈ r.fields, f.Keeps depth P)
    (hadd : ∀ key v s, v.Stored depth → key ∉ r.fields.map (·.name) → P s → P (add key v s)) :
    r.Keeps depth P where
  field := hfields
  other key value s s' hfits hkey hs hread := by
    rw [readOther, hothers] at hread
    obtain ⟨v, hv, hread⟩ := Except.bind_eq_ok.1 hread
    cases hread
    exact hadd key v s (stored_of_keep value hfits (Except.mapError_eq_ok.1 hv)) hkey hs

theorem Record.keeps_of_ignored (hothers : r.others = .ignored)
    (hfields : ∀ f ∈ r.fields, f.Keeps depth P) : r.Keeps depth P where
  field := hfields
  other key value s s' hfits hkey hs hread := by
    rw [readOther, hothers] at hread
    obtain ⟨_, _, hread⟩ := Except.bind_eq_ok.1 hread
    cases hread
    exact hs

theorem Record.Keeps.readMember (h : r.Keeps depth P) {key : String} {value : Draft}
    (hfits : ∀ n ∈ value.numbers, n.Fits) (hs : P s)
    (hread : r.readMember depth key value s = .ok s') : P s' := by
  unfold Record.readMember at hread
  split at hread
  next hnone =>
    refine h.other key value s s' hfits ?_ hs hread
    simpa using hnone
  next f hf =>
    split at hread
    · cases hread
    · exact h.field f (List.mem_of_find?_eq_some hf) value s s' hfits hs hread

theorem Record.Keeps.readMembers (h : r.Keeps depth P) : (members : DraftMembers) →
    (∀ n ∈ members.numbers, n.Fits) → {s : σ} → P s →
      r.readMembers depth members s = .ok s' → P s'
  | .done, _, _, hs, hread => by
    cases hread
    exact hs
  | .member key value rest, hfits, _, hs, hread => by
    obtain ⟨k, _, hread⟩ := Except.bind_eq_ok.1 hread
    obtain ⟨s₁, hmember, hread⟩ := Except.bind_eq_ok.1 hread
    have hs₁ := h.readMember (fun n hn => hfits n (List.mem_append_left _ hn)) hs hmember
    exact readMembers h rest (fun n hn => hfits n (List.mem_append_right _ hn)) hs₁ hread
  | .broken _, _, _, _, hread => by cases hread

theorem Record.Keeps.readItems (h : r.Keeps depth P) {fields : List (Field σ)}
    (hfields : fields ⊆ r.fields) {position : Nat} {items rest : DraftItems}
    (hfits : ∀ n ∈ items.numbers, n.Fits) (hs : P s)
    (hread : r.readItems depth fields position items s = .ok (s', rest)) : P s' := by
  induction fields generalizing position items s with
  | nil =>
    cases hread
    exact hs
  | cons f fields ih =>
    obtain ⟨hf, hfields⟩ := List.cons_subset.1 hfields
    cases items with
    | done =>
      rw [Record.readItems] at hread
      split at hread
      · exact ih hfields hfits hs hread
      · cases hread
    | item value more =>
      obtain ⟨s₁, hfield, hread⟩ := Except.bind_eq_ok.1 hread
      have hs₁ :=
        h.field f hf value s s₁ (fun n hn => hfits n (List.mem_append_left _ hn)) hs hfield
      exact ih hfields (fun n hn => hfits n (List.mem_append_right _ hn)) hs₁ hread
    | broken fault => cases hread

theorem Record.Keeps.read {inner : Nat} (henter : enter depth = .ok inner) (h : r.Keeps inner P)
    {d : Draft} (hfits : ∀ n ∈ d.numbers, n.Fits) (hs : P s) (hread : r.read depth s d = .ok s') :
    P s' := by
  unfold Record.read at hread
  split at hread
  next members =>
    obtain ⟨depth', henter', hread⟩ := Except.bind_eq_ok.1 hread
    cases henter.symm.trans (Except.mapError_eq_ok.1 henter')
    exact h.readMembers members hfits hs hread
  next items =>
    split at hread
    · obtain ⟨depth', henter', hread⟩ := Except.bind_eq_ok.1 hread
      cases henter.symm.trans (Except.mapError_eq_ok.1 henter')
      obtain ⟨⟨s₁, rest⟩, hitems, hread⟩ := Except.bind_eq_ok.1 hread
      obtain ⟨_, _, hread⟩ := Except.bind_eq_ok.1 hread
      cases hread
      exact h.readItems (List.Subset.refl _) hfits hs hitems
    · exact absurd hread Draft.refuse_ne_ok
  · exact absurd hread Draft.refuse_ne_ok

end

end Json

namespace Node

open Json

def depth : Nat := maxDepth - 2

theorem enter_lists : enter (maxDepth - 1) = .ok depth := rfl

theorem enter_depth : enter depth = .ok (depth - 1) := rfl

theorem enter_data : enter (depth - 1) = .ok (depth - 2) := rfl

structure Stored (n : Node) : Prop where
  data : n.extraData.Stored (depth - 2)
  dataKeys : ∀ m ∈ n.extraData, m.1 ∉ n.kind.dataKeys
  editor : n.editor.Stored (depth - 1)
  editorKeys : ∀ m ∈ n.editor, m.1 ∉ record.fields.map (·.name)

structure Parts.Stored (p : Parts) : Prop where
  data : ∀ ms, p.data = some ms → ms.Stored (depth - 2)
  editor : p.editor.StoredBeside (record.fields.map (·.name)) (depth - 1)

theorem record_keeps : record.Keeps (depth - 1) Parts.Stored := by
  refine Record.keeps_of_kept rfl ?_ fun key v s hv hkey hs => ⟨hs.data, hs.editor.insert hv hkey⟩
  simp only [record, List.forall_mem_cons]
  exact ⟨Field.keeps_of fun _ _ _ _ _ hs => ⟨hs.data, hs.editor⟩,
    Field.keeps_of fun _ _ _ _ _ hs => ⟨hs.data, hs.editor⟩,
    Field.keeps_of fun _ _ _ hfits hms hs =>
      ⟨fun _ h => Option.some.inj h ▸ Draft.stored_of_readMap enter_data hfits hms, hs.editor⟩,
    List.forall_mem_nil _⟩

theorem Parts.stored_empty : Parts.Stored {} where
  data := by rintro _ ⟨⟩
  editor := Members.storedBeside_nil _ _

theorem stored_of_read {d : Draft} {n : Node} (hfits : ∀ n ∈ d.numbers, n.Fits)
    (h : read depth d = .ok n) : n.Stored := by
  obtain ⟨p, hp, h⟩ := Except.bind_eq_ok.1 h
  have hparts : p.Stored := record_keeps.read enter_depth hfits Parts.stored_empty hp
  obtain ⟨id, _, h⟩ := Except.bind_eq_ok.1 h
  obtain ⟨tag, _, h⟩ := Except.bind_eq_ok.1 h
  have hdata : (p.data.getD []).Stored (depth - 2) := by
    cases hdata : p.data with
    | none => exact Members.stored_nil
    | some ms => exact hparts.data ms hdata
  dsimp only at h
  split at h
  · cases h
  · cases h
    exact ⟨⟨hdata.ordered.filter _, fun m hm => hdata.values m (List.mem_of_mem_filter hm)⟩,
      fun m hm => by simpa using (List.mem_filter.1 hm).2, hparts.editor.stored,
      hparts.editor.keys⟩

end Node

namespace Edge

open Json

structure Stored (e : Edge) : Prop where
  extra : e.extra.Stored (Node.depth - 1)
  extraKeys : ∀ m ∈ e.extra, m.1 ∉ record.fields.map (·.name)

theorem record_keeps : record.Keeps (Node.depth - 1) fun p =>
    p.extra.StoredBeside (record.fields.map (·.name)) (Node.depth - 1) :=
  Record.keeps_of_kept rfl (by simp [record]) fun _ _ _ hv hkey hs => hs.insert hv hkey

theorem stored_of_read {d : Draft} {e : Edge} (hfits : ∀ n ∈ d.numbers, n.Fits)
    (h : read Node.depth d = .ok e) : e.Stored := by
  obtain ⟨p, hp, h⟩ := Except.bind_eq_ok.1 h
  have hparts := record_keeps.read Node.enter_depth hfits (Members.storedBeside_nil _ _) hp
  obtain ⟨source, _, h⟩ := Except.bind_eq_ok.1 h
  obtain ⟨target, _, h⟩ := Except.bind_eq_ok.1 h
  cases h
  exact ⟨hparts.stored, hparts.keys⟩

end Edge

open Json

theorem Json.stored_of_readValue {text : String} {v : Json} (h : readValue text = .ok v) :
    v.Stored maxDepth := by
  obtain ⟨_, hkeep⟩ := readText_eq_ok.1 h
  exact stored_of_keep _ (fun n hn => Draft.fits_ofText hn) (Except.mapError_eq_ok.1 hkeep)

structure StoredLists (nodes : Option (List Node)) (edges : Option (List Edge)) : Prop where
  nodes : ∀ ns, nodes = some ns → ∀ n ∈ ns, n.Stored
  edges : ∀ es, edges = some es → ∀ e ∈ es, e.Stored

namespace StoredLists

variable {nodes : Option (List Node)} {edges : Option (List Edge)} {value : Draft}

theorem empty : StoredLists none none where
  nodes := by rintro _ ⟨⟩
  edges := by rintro _ ⟨⟩

theorem set_nodes (h : StoredLists nodes edges) (hfits : ∀ n ∈ value.numbers, n.Fits)
    {ns : List Node} (hns : value.readList (maxDepth - 1) Node.read = .ok ns) :
    StoredLists (some ns) edges where
  nodes _ heq := Option.some.inj heq ▸
    Draft.of_readList Node.enter_lists (fun _ _ => Node.stored_of_read) hfits hns
  edges := h.edges

theorem set_edges (h : StoredLists nodes edges) (hfits : ∀ n ∈ value.numbers, n.Fits)
    {es : List Edge} (hes : value.readList (maxDepth - 1) Edge.read = .ok es) :
    StoredLists nodes (some es) where
  nodes := h.nodes
  edges _ heq := Option.some.inj heq ▸
    Draft.of_readList Node.enter_lists (fun _ _ => Edge.stored_of_read) hfits hes

end StoredLists

theorem Document.record_keeps :
    Document.record.Keeps (maxDepth - 1) fun p => StoredLists p.nodes p.edges := by
  refine Record.keeps_of_ignored rfl ?_
  simp only [record, List.forall_mem_cons]
  exact ⟨Field.keeps_of fun _ _ _ hfits hns hs => hs.set_nodes hfits hns,
    Field.keeps_of fun _ _ _ hfits hes hs => hs.set_edges hfits hes, by simp⟩

namespace Graph

structure Stored (g : Graph) : Prop where
  nodes : ∀ n ∈ g.nodes, n.Stored
  edges : ∀ e ∈ g.edges, e.Stored

theorem record_keeps : record.Keeps (maxDepth - 1) fun p => StoredLists p.nodes p.edges := by
  refine Record.keeps_of_ignored rfl ?_
  simp only [record, List.forall_mem_cons]
  exact ⟨Field.keeps_of fun _ _ _ hfits hns hs => hs.set_nodes hfits hns,
    Field.keeps_of fun _ _ _ hfits hes hs => hs.set_edges hfits hes, List.forall_mem_nil _⟩

theorem stored_of_lists {nodes : Option (List Node)} {edges : Option (List Edge)}
    (h : StoredLists nodes edges) : Stored ⟨nodes.getD [], edges.getD []⟩ where
  nodes := by
    cases hnodes : nodes with
    | none => exact List.forall_mem_nil _
    | some ns => exact h.nodes ns hnodes
  edges := by
    cases hedges : edges with
    | none => exact List.forall_mem_nil _
    | some es => exact h.edges es hedges

theorem stored_ofText {text : String} {g : Graph} (h : ofText text = .ok g) : g.Stored := by
  obtain ⟨_, h⟩ := readText_eq_ok.1 h
  obtain ⟨p, hp, h⟩ := Except.bind_eq_ok.1 h
  cases h
  have hlists : StoredLists p.nodes p.edges :=
    Record.Keeps.read (P := fun p => StoredLists p.nodes p.edges) rfl record_keeps
      (fun n hn => Draft.fits_ofText hn) StoredLists.empty hp
  exact stored_of_lists hlists

theorem stored_of_readDocument {d : Draft} {document : Document}
    (hfits : ∀ n ∈ d.numbers, n.Fits) (h : Document.read maxDepth d = .ok document) :
    document.graph.Stored := by
  obtain ⟨p, hp, h⟩ := Except.bind_eq_ok.1 h
  have hlists : StoredLists p.nodes p.edges :=
    Record.Keeps.read (P := fun p => StoredLists p.nodes p.edges) rfl Document.record_keeps hfits
      StoredLists.empty hp
  obtain ⟨nodes, hnodes, h⟩ := Except.bind_eq_ok.1 h
  obtain ⟨edges, hedges, h⟩ := Except.bind_eq_ok.1 h
  cases h
  rw [required_eq_ok.1 hnodes, required_eq_ok.1 hedges] at hlists
  exact stored_of_lists hlists

theorem stored_importText {text : String} {g : Graph} (h : importText text = .ok g) :
    g.Stored := by
  obtain ⟨value, hvalue, h⟩ := Except.bind_eq_ok.1 h
  have hstored := stored_of_readValue (Except.mapError_eq_ok.1 hvalue)
  split at h
  · obtain ⟨document, hdocument, h⟩ := Except.bind_eq_ok.1 h
    cases h
    refine stored_of_readDocument (fun n hn => ?_) (Except.mapError_eq_ok.1 hdocument)
    exact hstored.fits n (numbers_toDraft value ▸ hn)
  · cases h

end Graph
end ColorGraph
