import ColorGraph.Proofs.NumberTexts
import ColorGraph.Proofs.ReadBack
/-!
Graphs saved and opened again. Main statement: the text that is written for a graph is opened as
that graph, wherever the graph comes from.
-/

set_option autoImplicit false

namespace ColorGraph

open Json

theorem Document.restores {vs ws : List Json} {d : Document}
    (hnodes : List.Forall₂ (Restores Node.depth Node.read) vs d.nodes)
    (hedges : List.Forall₂ (Restores Node.depth Edge.read) ws d.edges) :
    ∃ v, (Json.object [("nodes", .array vs), ("edges", .array ws), ("version", .string d.version),
        ("exportedAt", .string d.exportedAt)]).toDraft.keep maxDepth = .ok v ∧
      v.hasMember "nodes" ∧ v.hasMember "edges" ∧ read maxDepth v.toDraft = .ok d := by
  obtain ⟨ns, hkeepNodes, hreadNodes⟩ := Restores.list Node.enter_lists hnodes
  obtain ⟨es, hkeepEdges, hreadEdges⟩ := Restores.list Node.enter_lists hedges
  have hmembers : (Json.object [("nodes", .array vs), ("edges", .array ws),
      ("version", .string d.version), ("exportedAt", .string d.exportedAt)]).toDraft.keep maxDepth =
      Json.object <$> (membersDraft [("nodes", .array vs), ("edges", .array ws),
        ("version", .string d.version),
        ("exportedAt", .string d.exportedAt)]).keep (maxDepth - 1) [] := rfl
  have hkeep : Draft.keep maxDepth (Json.object [("nodes", .array vs), ("edges", .array ws),
      ("version", .string d.version), ("exportedAt", .string d.exportedAt)]).toDraft =
      .ok (.object [("edges", es), ("exportedAt", .string d.exportedAt), ("nodes", ns),
        ("version", .string d.version)]) := by
    rw [hmembers]
    simp only [membersDraft, DraftMembers.keep, hkeepNodes, hkeepEdges]
    rfl
  refine ⟨_, hkeep, ?_, ?_, ?_⟩
  · change (!ns.isNull) = true
    rw [isNull_of_readList hreadNodes]
    rfl
  · change (!es.isNull) = true
    rw [isNull_of_readList hreadEdges]
    rfl
  · have hread : record.readMembers (maxDepth - 1) (membersDraft [("edges", es),
        ("exportedAt", .string d.exportedAt), ("nodes", ns), ("version", .string d.version)]) {} =
        .ok ⟨some d.nodes, some d.edges, some d.version, some d.exportedAt⟩ := by
      refine Record.readMembers_cons.2 ⟨_, Field.read_of_eq_ok.2 ⟨_, hreadEdges, rfl⟩, ?_⟩
      refine Record.readMembers_cons.2 ⟨_, rfl, ?_⟩
      refine Record.readMembers_cons.2 ⟨_, Field.read_of_eq_ok.2 ⟨_, hreadNodes, rfl⟩, ?_⟩
      exact Record.readMembers_cons.2 ⟨_, rfl, rfl⟩
    exact Except.bind_eq_ok.2 ⟨_, hread, rfl⟩

theorem Document.read_of_keep {d : Document}
    (hnodes : ∀ n ∈ d.nodes, n.toJson.Restores Node.depth Node.read n)
    (hedges : ∀ e ∈ d.edges, e.toJson.Restores Node.depth Edge.read e) :
    ∃ v, d.toJson.toDraft.keep maxDepth = .ok v ∧ v.hasMember "nodes" ∧ v.hasMember "edges" ∧
      read maxDepth v.toDraft = .ok d :=
  Document.restores (List.forall₂_map_left_iff.2 (List.forall₂_same.2 hnodes))
    (List.forall₂_map_left_iff.2 (List.forall₂_same.2 hedges))

theorem Node.stored_new (id : NodeId) (kind : Node.Kind) : Stored { id, kind } where
  data := Members.stored_nil
  dataKeys := List.forall_mem_nil _
  editor := Members.stored_nil
  editorKeys := List.forall_mem_nil _

theorem Node.fits_of_mem_numbers {n : Node} (h : n.Stored) : ∀ x ∈ n.toJson.numbers, x.Fits := by
  intro x hx
  obtain ⟨m, hm, hx⟩ := mem_membersNumbers.1 hx
  obtain hm | hm := List.mem_append.1 hm
  · exact (stored_ownMembers h (Kind.stored_dataMembers _ n.kind) m hm).fits x hx
  · exact (h.editor.values m hm).fits x hx

theorem Edge.fits_of_mem_numbers {e : Edge} (h : e.Stored) : ∀ x ∈ e.toJson.numbers, x.Fits := by
  intro x hx
  obtain ⟨m, hm, hx⟩ := mem_membersNumbers.1 hx
  obtain hm | hm := List.mem_append.1 hm
  · exact (stored_ownMembers e 0 m hm).fits x hx
  · exact (h.extra.values m hm).fits x hx

namespace Graph

variable {g : Graph}

theorem Stored.fits_of_mem_numbers (h : g.Stored) : ∀ x ∈ g.toJson.numbers, x.Fits := by
  intro x hx
  obtain ⟨m, hm, hx⟩ := mem_membersNumbers.1 hx
  obtain rfl | hm := List.mem_cons.1 hm
  · obtain ⟨_, hv, hx⟩ := mem_itemsNumbers.1 hx
    obtain ⟨n, hn, rfl⟩ := List.mem_map.1 hv
    exact Node.fits_of_mem_numbers (h.nodes n hn) x hx
  · obtain rfl := List.mem_singleton.1 hm
    obtain ⟨_, hv, hx⟩ := mem_itemsNumbers.1 hx
    obtain ⟨e, he, rfl⟩ := List.mem_map.1 hv
    exact Edge.fits_of_mem_numbers (h.edges e he) x hx

theorem numbers_document (g : Graph) (exportedAt : String) :
    (Document.ofGraph g exportedAt).toJson.numbers = g.toJson.numbers := rfl

/-- Graphs that are opened, read, or made by placing nodes and connecting them. -/
inductive Obtainable : Graph → Prop
  | empty : Obtainable {}
  | imported {text : String} {g : Graph} (h : importText text = .ok g) : Obtainable g
  | read {text : String} {g : Graph} (h : ofText text = .ok g) : Obtainable g
  | addNode {g : Graph} (h : Obtainable g) (id : NodeId) (kind : Node.Kind) :
    Obtainable (g.addNode id kind)
  | connect {g : Graph} (h : Obtainable g) (source target : NodeId) (handle : Option String) :
    Obtainable (g.connect source target handle)

theorem Obtainable.stored (h : g.Obtainable) : g.Stored := by
  induction h with
  | empty => exact ⟨List.forall_mem_nil _, List.forall_mem_nil _⟩
  | imported h => exact stored_importText h
  | read h => exact stored_ofText h
  | addNode _ id kind ih =>
    refine ⟨List.forall_mem_append.2 ⟨ih.nodes, ?_⟩, ih.edges⟩
    exact List.forall_mem_singleton.2 (Node.stored_new id kind)
  | connect _ source target handle ih =>
    refine ⟨ih.nodes, List.forall_mem_append.2 ⟨ih.edges, ?_⟩⟩
    exact List.forall_mem_singleton.2 ⟨Members.stored_nil, List.forall_mem_nil _⟩

/-- The text of a value is opened by what is kept of the value. -/
theorem importText_of_ofText {text : String} {v w : Json} {d : Document}
    (hdraft : Draft.ofText text = (v.toDraft, false)) (hkeep : v.toDraft.keep maxDepth = .ok w)
    (hnodes : w.hasMember "nodes") (hedges : w.hasMember "edges")
    (hread : Document.read maxDepth w.toDraft = .ok d) : importText text = .ok d.graph := by
  have hvalue : readValue text = .ok w := by
    rw [readValue, readText_eq_ok, hdraft]
    exact ⟨rfl, Except.mapError_eq_ok.2 hkeep⟩
  rw [importText, hvalue]
  change (if w.hasMember "nodes" && w.hasMember "edges" then _ else _) = _
  rw [if_pos (by rw [hnodes, hedges]; rfl), hread]
  rfl

theorem importText_prettyText {v w : Json} {d : Document} (hlegible : ∀ x ∈ v.numbers, x.Legible)
    (hkeep : v.toDraft.keep maxDepth = .ok w) (hnodes : w.hasMember "nodes")
    (hedges : w.hasMember "edges") (hread : Document.read maxDepth w.toDraft = .ok d) :
    importText v.prettyText = .ok d.graph :=
  importText_of_ofText (Draft.ofText_prettyText hlegible) hkeep hnodes hedges hread

/-- A graph that was saved is opened as it was. -/
theorem importText_exportText (hg : g.Obtainable)
    (hvalues : ∀ n ∈ g.nodes, ∀ name x, n.kind = .inputNumber name x → x.isFinite ∧ x ≠ -0.0)
    (hfloats : ∀ x, .float x ∈ g.toJson.numbers →
      readValue (Number.float x).text = .ok (.number (.float x)))
    (exportedAt : String) : importText (g.exportText exportedAt) = .ok g := by
  have hstored := hg.stored
  have hkinds : ∀ n ∈ g.nodes, n.kind.IsExact := by
    intro n hn
    cases hkind : n.kind with
    | inputNumber name x => exact hvalues n hn name x hkind
    | _ => trivial
  have hlegible : ∀ x ∈ g.toJson.numbers, x.Legible := by
    intro x hx
    cases x with
    | int i => exact Number.legible_int (hstored.fits_of_mem_numbers _ hx)
    | float x =>
      exact Number.legible_of_readValue (hstored.fits_of_mem_numbers _ hx) (hfloats x hx)
  obtain ⟨v, hkeep, hnodes, hedges, hread⟩ :=
    Document.read_of_keep (d := Document.ofGraph g exportedAt)
      (fun n hn => Node.restores (hstored.nodes n hn) (hkinds n hn))
      fun e he => Edge.restores (hstored.edges e he)
  exact importText_prettyText (numbers_document g exportedAt ▸ hlegible) hkeep hnodes hedges hread

def shuffledDocument : Json :=
  .object [
    ("edges", .array [.object [("target", .string "dim"), ("targetHandle", .string "amount"),
      ("source", .string "gap"), ("sourceHandle", .null), ("animated", .bool true),
      ("style", .object [("width", .number (.float 0.1)), ("dash", .array [])])]]),
    ("nodes", .array [
      .object [("type", .string "inputNumber"), ("zIndex", .number (.int 9223372036854775807)),
        ("data", .object [("value", .number (.float 0.25)), ("unit", .string "\"em\"\n"),
          ("name", .string "gap")]), ("id", .string "gap")],
      .object [("id", .string "dim"), ("type", .string "lighten"),
        ("data", .object [("isDarken", .bool true)]),
        ("position", .object [("y", .number (.int (-4))), ("x", .number (.float 0.1))])]])]

def shuffled : Graph where
  nodes := [
    { id := "gap", kind := .inputNumber "gap" 0.25,
      extraData := [("unit", .string "\"em\"\n")],
      editor := [("zIndex", .number (.int 9223372036854775807))] },
    { id := "dim", kind := .operation .darken,
      editor := [("position",
        .object [("x", .number (.float 0.1)), ("y", .number (.int (-4)))])] }]
  edges := [
    { id := "", source := "gap", target := "dim", targetHandle := some "amount",
      extra := [("animated", .bool true),
        ("style", .object [("dash", .array []), ("width", .number (.float 0.1))])] }]

theorem readValue_tenth : readValue (Number.float 0.1).text = .ok (.number (.float 0.1)) := by
  have htext : (Number.float 0.1).text = "0.1" := by decide +kernel
  rw [htext]
  rfl

theorem readValue_quarter : readValue (Number.float 0.25).text = .ok (.number (.float 0.25)) := by
  have htext : (Number.float 0.25).text = "0.25" := by decide +kernel
  rw [htext]
  rfl

theorem legible_shuffledDocument : ∀ x ∈ shuffledDocument.numbers, x.Legible := by
  have hnumbers : shuffledDocument.numbers =
      [.float 0.1, .int 9223372036854775807, .float 0.25, .int (-4), .float 0.1] := rfl
  have hlarge : (Number.int 9223372036854775807).Legible :=
    Number.legible_int ⟨by decide, by decide⟩
  have hnegative : (Number.int (-4)).Legible := Number.legible_int ⟨by decide, by decide⟩
  have hfinite : (0.1 : Float).isFinite ∧ (0.25 : Float).isFinite := by decide +kernel
  have htenth : (Number.float 0.1).Legible :=
    Number.legible_of_readValue hfinite.1 readValue_tenth
  have hquarter : (Number.float 0.25).Legible :=
    Number.legible_of_readValue hfinite.2 readValue_quarter
  simp [hnumbers, hlarge, hnegative, htenth, hquarter]

theorem importText_shuffled : importText shuffledDocument.prettyText = .ok shuffled :=
  importText_prettyText (d := ⟨shuffled.nodes, shuffled.edges, "", ""⟩) legible_shuffledDocument rfl
    rfl rfl rfl

theorem importText_exportText_shuffled : shuffled.Obtainable ∧
    importText (shuffled.exportText "2024-05-01T12:00:00Z") = .ok shuffled := by
  have hg : shuffled.Obtainable := .imported importText_shuffled
  have hquarter : (0.25 : Float).isFinite ∧ (0.25 : Float) ≠ -0.0 := by decide +kernel
  have hnumbers : shuffled.toJson.numbers =
      [.float 0.25, .int 9223372036854775807, .float 0.1, .int (-4), .float 0.1] := rfl
  refine ⟨hg, importText_exportText hg ?_ ?_ _⟩
  · simp only [shuffled, List.forall_mem_cons, List.not_mem_nil, IsEmpty.forall_iff, implies_true,
      and_true]
    constructor
    · rintro _ _ ⟨⟩
      exact hquarter
    · rintro _ _ ⟨⟩
  · intro x hx
    rw [hnumbers] at hx
    obtain rfl | rfl : x = 0.25 ∨ x = 0.1 := by simpa [or_comm] using hx
    · exact readValue_quarter
    · exact readValue_tenth

end Graph
end ColorGraph
