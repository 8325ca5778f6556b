import ColorGraph.Proofs.BareGraphs
import ColorGraph.Proofs.Saving
/-!
Graphs that are opened again with other numbers than they were saved with. Main statements: what was
saved is opened, with every number read again; and as long as those of inputs are read as they were
written, all that is compiled stays the same.
-/

set_option autoImplicit false

namespace ColorGraph

open Json

namespace Json

variable {f : Number → Number} {depth : Nat} {v : Json} {ms : Members}

theorem mapItems_eq_map (f : Number → Number) (vs : List Json) :
    mapItems f vs = vs.map (mapNumbers f) := by
  induction vs with
  | nil => rfl
  | cons v vs ih => rw [mapItems, ih, List.map_cons]

theorem mapMembers_eq_map (f : Number → Number) (ms : Members) :
    mapMembers f ms = ms.map fun m => (m.1, m.2.mapNumbers f) := by
  induction ms with
  | nil => rfl
  | cons m ms ih => rw [mapMembers, ih, List.map_cons]

theorem map_fst_mapMembers (f : Number → Number) (ms : Members) :
    (mapMembers f ms).map (·.1) = ms.map (·.1) := by
  rw [mapMembers_eq_map, List.map_map]
  rfl

theorem mapMembers_append (f : Number → Number) (ms ns : Members) :
    mapMembers f (ms ++ ns) = mapMembers f ms ++ mapMembers f ns := by
  simp only [mapMembers_eq_map, List.map_append]

theorem mapMembers_insert (f : Number → Number) (ms : Members) (k : String) (v : Json) :
    mapMembers f (ms.insert k v) = (mapMembers f ms).insert k (v.mapNumbers f) := by
  induction ms with
  | nil => rfl
  | cons m ms ih =>
    obtain ⟨key, value⟩ := m
    rw [Members.insert, mapMembers, Members.insert]
    split
    · rfl
    split
    · rfl
    · rw [mapMembers, ih]

theorem mapMembers_insertAll (f : Number → Number) (ms ns : Members) :
    mapMembers f (ms.insertAll ns) = (mapMembers f ms).insertAll (mapMembers f ns) := by
  induction ns generalizing ms with
  | nil => rfl
  | cons n ns ih =>
    change mapMembers f ((ms.insert n.1 n.2).insertAll ns) = _
    rw [ih, mapMembers_insert]
    rfl

mutual

theorem numbers_mapNumbers (f : Number → Number) :
    (v : Json) → (v.mapNumbers f).numbers = v.numbers.map f
  | .null | .bool _ | .number _ | .string _ => rfl
  | .array items => numbers_mapItems f items
  | .object members => numbers_mapMembers f members

theorem numbers_mapItems (f : Number → Number) :
    (vs : List Json) → itemsNumbers (mapItems f vs) = (itemsNumbers vs).map f
  | [] => rfl
  | v :: vs => by
    rw [mapItems, itemsNumbers, itemsNumbers, numbers_mapNumbers f v, numbers_mapItems f vs,
      List.map_append]

theorem numbers_mapMembers (f : Number → Number) :
    (ms : Members) → membersNumbers (mapMembers f ms) = (membersNumbers ms).map f
  | [] => rfl
  | (_, v) :: ms => by
    rw [mapMembers, membersNumbers, membersNumbers, numbers_mapNumbers f v,
      numbers_mapMembers f ms, List.map_append]

end

mutual

/-- What is kept of a value does not hang on its numbers. -/
theorem keep_mapNumbers (f : Number → Number) (depth : Nat) : (v : Json) →
    (v.mapNumbers f).toDraft.keep depth = mapNumbers f <$> v.toDraft.keep depth
  | .null | .bool _ | .number _ | .string _ => rfl
  | .array items => by
    rw [mapNumbers, toDraft, toDraft, Draft.keep, Draft.keep]
    cases enter depth with
    | error flaw => rfl
    | ok inner =>
      change Json.array <$> (itemsDraft (mapItems f items)).keep inner =
        mapNumbers f <$> Json.array <$> (itemsDraft items).keep inner
      rw [keep_mapItems f inner items]
      cases (itemsDraft items).keep inner <;> rfl
  | .object members => by
    rw [mapNumbers, toDraft, toDraft, Draft.keep, Draft.keep]
    cases enter depth with
    | error flaw => rfl
    | ok inner =>
      change Json.object <$> (membersDraft (mapMembers f members)).keep inner (mapMembers f []) =
        mapNumbers f <$> Json.object <$> (membersDraft members).keep inner []
      rw [keep_mapMembers f inner members []]
      cases (membersDraft members).keep inner [] <;> rfl

theorem keep_mapItems (f : Number → Number) (depth : Nat) : (vs : List Json) →
    (itemsDraft (mapItems f vs)).keep depth = mapItems f <$> (itemsDraft vs).keep depth
  | [] => rfl
  | v :: vs => by
    rw [mapItems, itemsDraft, itemsDraft, DraftItems.keep, DraftItems.keep,
      keep_mapNumbers f depth v, keep_mapItems f depth vs]
    cases v.toDraft.keep depth with
    | error flaw => rfl
    | ok w => cases (itemsDraft vs).keep depth <;> rfl

theorem keep_mapMembers (f : Number → Number) (depth : Nat) : (ms acc : Members) →
    (membersDraft (mapMembers f ms)).keep depth (mapMembers f acc) =
      mapMembers f <$> (membersDraft ms).keep depth acc
  | [], _ => rfl
  | (k, v) :: ms, acc => by
    rw [mapMembers, membersDraft, membersDraft, DraftMembers.keep, DraftMembers.keep,
      keep_mapNumbers f depth v]
    cases v.toDraft.keep depth with
    | error flaw => rfl
    | ok w =>
      change (membersDraft (mapMembers f ms)).keep depth
        ((mapMembers f acc).insert k (w.mapNumbers f)) = _
      rw [← mapMembers_insert, keep_mapMembers f depth ms]
      rfl

end

theorem Stored.mapNumbers (hf : ∀ n : Number, n.Fits → (f n).Fits) (h : v.Stored depth) :
    (v.mapNumbers f).Stored depth where
  kept := by
    rw [keep_mapNumbers, h.kept]
    rfl
  fits n hn := by
    rw [numbers_mapNumbers] at hn
    obtain ⟨m, hm, rfl⟩ := List.mem_map.1 hn
    exact hf m (h.fits m hm)

theorem mem_mapMembers {m : String × Json} (h : m ∈ mapMembers f ms) :
    ∃ m' ∈ ms, m = (m'.1, m'.2.mapNumbers f) := by
  rw [mapMembers_eq_map] at h
  obtain ⟨m', hm', rfl⟩ := List.mem_map.1 h
  exact ⟨m', hm', rfl⟩

theorem Members.Stored.mapMembers (hf : ∀ n : Number, n.Fits → (f n).Fits)
    (h : Members.Stored depth ms) : Members.Stored depth (mapMembers f ms) where
  ordered := by
    rw [mapMembers_eq_map]
    exact List.pairwise_map.2 h.ordered
  values m hm := by
    obtain ⟨m', hm', rfl⟩ := mem_mapMembers hm
    exact (h.values m' hm').mapNumbers hf

namespace Number

theorem fits_of_readValue {text : String} {n : Number} (h : readValue text = .ok (.number n)) :
    n.Fits := by
  obtain ⟨_, hkeep⟩ := readText_eq_ok.1 h
  have hdraft := Draft.eq_of_keep_number (Except.mapError_eq_ok.1 hkeep)
  have hmem : n ∈ (Draft.ofText text).1.numbers := by
    rw [hdraft]
    exact List.mem_singleton.2 rfl
  exact Draft.fits_ofText hmem

theorem Fits.reread {n : Number} (h : n.Fits) : n.reread.Fits := by
  unfold Number.reread
  split
  next hread => exact fits_of_readValue hread
  · exact h

end Number
end Json

variable {f : Number → Number}

namespace Node

namespace Kind

/-- The kind with the number that the JSON of its own comes to. JSON has no form for a number that
is not finite, and zero is read instead. -/
def mapNumbers (f : Number → Number) : Kind → Kind
  | inputNumber name x =>
    inputNumber name (numberIn [("value", (numberJson x).mapNumbers f)] "value")
  | k => k

theorem tag_mapNumbers (f : Number → Number) (k : Kind) : (k.mapNumbers f).tag = k.tag := by
  cases k <;> rfl

theorem dataKeys_mapNumbers (f : Number → Number) (k : Kind) :
    (k.mapNumbers f).dataKeys = k.dataKeys := by
  cases k <;> rfl

theorem ofData?_mapMembers {k : Kind} {data : Members}
    (hdata : ∀ m ∈ mapMembers f k.dataMembers, data.get? m.1 = some m.2) :
    ofData? (k.mapNumbers f).tag data = some (k.mapNumbers f) := by
  cases k with
  | inputNumber name x =>
    simp only [dataMembers, mapMembers, List.forall_mem_cons] at hdata
    obtain ⟨hname, hvalue, -⟩ := hdata
    have htext : textIn data "name" = name := by
      rw [textIn, hname]
      rfl
    have hnumber : numberIn data "value" =
        numberIn [("value", (numberJson x).mapNumbers f)] "value" := by
      rw [numberIn, numberIn, hvalue]
      rfl
    rw [mapNumbers, ofData?, tag, if_neg (by decide), if_pos rfl, htext, hnumber]
  | operation op =>
    have hsame : mapMembers f (operation op).dataMembers = (operation op).dataMembers := by
      cases op <;> rfl
    exact ofData?_tag (k := operation op) trivial (hsame ▸ hdata)
  | inputColor name color => exact ofData?_tag (k := inputColor name color) trivial hdata
  | output name => exact ofData?_tag (k := output name) trivial hdata

def ReadsBack (k : Kind) : Prop :=
  k.mapNumbers Number.reread = k

theorem readsBack_of_number {name : String} {x : Float} {n : Number}
    (hjson : numberJson x = .number n) (hread : n.reread.toFloat = x) :
    (inputNumber name x).ReadsBack := by
  rw [ReadsBack, mapNumbers, hjson]
  exact congrArg (inputNumber name) hread

theorem readsBack_of_int {name : String} {x : Float} {i : Int}
    (hjson : numberJson x = .number (.int i)) (hfinite : x.isFinite) (hzero : x ≠ -0.0) :
    (inputNumber name x).ReadsBack := by
  obtain ⟨n, hn, hx⟩ := numberJson_spec hfinite hzero
  obtain rfl : .int i = n := Json.number.inj (hjson.symm.trans hn)
  have hfits : (Number.int i).Fits :=
    (stored_numberJson 0 x).fits _ (by rw [hjson]; exact List.mem_singleton.2 rfl)
  refine readsBack_of_number hjson ?_
  rw [(Number.legible_int hfits).reread, hx]

end Kind

variable {n : Node}

def mapNumbers (f : Number → Number) (n : Node) : Node :=
  { n with
    kind := n.kind.mapNumbers f
    extraData := mapMembers f n.extraData
    editor := mapMembers f n.editor }

theorem toJson_mapNumbers (f : Number → Number) (n : Node) : n.toJson.mapNumbers f =
    .object ((n.mapNumbers f).ownMembers (mapMembers f n.kind.dataMembers) ++
      (n.mapNumbers f).editor) := by
  have hdata : mapMembers f n.data =
      (n.mapNumbers f).extraData.insertAll (mapMembers f n.kind.dataMembers) :=
    mapMembers_insertAll f n.extraData n.kind.dataMembers
  rw [toJson, Json.mapNumbers, mapMembers_append, ownMembers, ← hdata, mapNumbers,
    Kind.tag_mapNumbers]
  rfl

theorem Stored.mapNumbers (hf : ∀ n : Number, n.Fits → (f n).Fits) (h : n.Stored) :
    (n.mapNumbers f).Stored where
  data := h.data.mapMembers hf
  dataKeys m hm := by
    obtain ⟨m', hm', rfl⟩ := mem_mapMembers hm
    exact (Kind.dataKeys_mapNumbers f n.kind).symm ▸ h.dataKeys m' hm'
  editor := h.editor.mapMembers hf
  editorKeys m hm := by
    obtain ⟨m', hm', rfl⟩ := mem_mapMembers hm
    exact h.editorKeys m' hm'

theorem restores_mapNumbers (hf : ∀ n : Number, n.Fits → (f n).Fits) (h : n.Stored) :
    (n.toJson.mapNumbers f).Restores depth read (n.mapNumbers f) := by
  rw [toJson_mapNumbers]
  refine restores_of_members (h.mapNumbers hf) ?_ ?_ fun _ hdata => Kind.ofData?_mapMembers hdata
  · intro m hm
    obtain ⟨m', hm', rfl⟩ := mem_mapMembers hm
    exact (Kind.stored_dataMembers _ n.kind m' hm').mapNumbers hf
  · rw [map_fst_mapMembers, Kind.map_fst_dataMembers]
    exact (Kind.dataKeys_mapNumbers f n.kind).symm

end Node

namespace Edge

def mapNumbers (f : Number → Number) (e : Edge) : Edge :=
  { e with extra := mapMembers f e.extra }

theorem toJson_mapNumbers (f : Number → Number) (e : Edge) :
    e.toJson.mapNumbers f = (e.mapNumbers f).toJson := by
  rw [toJson, toJson, Json.mapNumbers, mapMembers_append]
  obtain ⟨id, source, target, _ | _, _ | _, extra⟩ := e <;> rfl

theorem Stored.mapNumbers {e : Edge} (hf : ∀ n : Number, n.Fits → (f n).Fits) (h : e.Stored) :
    (e.mapNumbers f).Stored where
  extra := h.extra.mapMembers hf
  extraKeys m hm := by
    obtain ⟨m', hm', rfl⟩ := mem_mapMembers hm
    exact h.extraKeys m' hm'

end Edge

namespace Graph

variable {g : Graph}

def mapNumbers (f : Number → Number) (g : Graph) : Graph where
  nodes := g.nodes.map (Node.mapNumbers f)
  edges := g.edges.map (Edge.mapNumbers f)

/-- Only numbers of inputs are compiled. -/
theorem bare_mapNumbers (hkinds : ∀ n ∈ g.nodes, n.kind.mapNumbers f = n.kind) :
    (g.mapNumbers f).bare = g.bare := by
  have hnodes : ∀ n ∈ g.nodes, (Node.bare ∘ Node.mapNumbers f) n = n.bare := by
    intro n hn
    change (⟨n.id, n.kind.mapNumbers f, [], []⟩ : Node) = _
    rw [hkinds n hn]
    rfl
  rw [bare, bare, mapNumbers, List.map_map, List.map_map, List.map_congr_left hnodes]
  rfl

theorem toJson_mapNumbers (f : Number → Number) (g : Graph) (exportedAt : String) :
    (Document.ofGraph g exportedAt).toJson.mapNumbers f =
      .object [("nodes", .array (g.nodes.map fun n => n.toJson.mapNumbers f)),
        ("edges", .array (g.edges.map fun e => e.toJson.mapNumbers f)),
        ("version", .string Document.currentVersion), ("exportedAt", .string exportedAt)] := by
  simp only [Document.toJson, Document.ofGraph, Json.mapNumbers, mapMembers, mapItems_eq_map,
    List.map_map]
  rfl

/-- Every graph that was saved is opened, and is the graph with its numbers read again. -/
theorem importText_reread (hg : g.Obtainable) (exportedAt : String) :
    importText (g.exportText exportedAt) = .ok (g.mapNumbers Number.reread) := by
  have hstored := hg.stored
  have hfits : ∀ n : Number, n.Fits → n.reread.Fits := fun _ h => h.reread
  have hdraft : Draft.ofText (g.exportText exportedAt) =
      (((Document.ofGraph g exportedAt).toJson.mapNumbers Number.reread).toDraft, false) :=
    Draft.ofText_prettyText_mapNumbers fun n hn =>
      Number.readsAs_reread (hstored.fits_of_mem_numbers n hn)
  have hnodes : List.Forall₂ (Restores Node.depth Node.read)
      (g.nodes.map fun n => n.toJson.mapNumbers Number.reread)
      (g.mapNumbers Number.reread).nodes := by
    rw [mapNumbers, List.forall₂_map_left_iff, List.forall₂_map_right_iff, List.forall₂_same]
    exact fun n hn => Node.restores_mapNumbers hfits (hstored.nodes n hn)
  have hedges : List.Forall₂ (Restores Node.depth Edge.read)
      (g.edges.map fun e => e.toJson.mapNumbers Number.reread)
      (g.mapNumbers Number.reread).edges := by
    rw [mapNumbers, List.forall₂_map_left_iff, List.forall₂_map_right_iff, List.forall₂_same]
    intro e he
    rw [Edge.toJson_mapNumbers]
    exact Edge.restores ((hstored.edges e he).mapNumbers hfits)
  obtain ⟨w, hkeep, hhasNodes, hhasEdges, hread⟩ :=
    Document.restores (d := Document.ofGraph (g.mapNumbers Number.reread) exportedAt) hnodes hedges
  rw [toJson_mapNumbers] at hdraft
  exact importText_of_ofText hdraft hkeep hhasNodes hhasEdges hread

/-- A graph that was saved is opened again with its numbers read anew, and has the same style sheets
if those of its inputs are read back. -/
theorem stylesheet_reopened (hg : g.Obtainable) (exportedAt : String) :
    importText (g.exportText exportedAt) = .ok (g.mapNumbers Number.reread) ∧
      ((∀ n ∈ g.nodes, n.kind.ReadsBack) → ∀ o,
        (g.mapNumbers Number.reread).compile o = g.compile o ∧
          (g.mapNumbers Number.reread).stylesheet o = g.stylesheet o) := by
  refine ⟨importText_reread hg exportedAt, fun hkinds o => ?_⟩
  have hcompile := compile_eq_of_bare_eq (o := o) (bare_mapNumbers hkinds)
  exact ⟨hcompile, by rw [stylesheet, stylesheet, hcompile]⟩

def wanderingDocument : Json :=
  .object [("edges", .array []), ("nodes", .array [
    .object [("data", .object [("name", .string "gap"), ("value", .number (.int 4))]),
      ("id", .string "gap"), ("position", .number (.float 7.483318089770742e-19)),
      ("type", .string "inputNumber")]])]

def wandering : Graph where
  nodes := [
    { id := "gap", kind := .inputNumber "gap" 4.0,
      editor := [("position", .number (.float 7.483318089770743e-19))] }]

set_option maxRecDepth 20000 in
theorem readValue_wandering :
    readValue (Number.float 7.483318089770742e-19).text =
        .ok (.number (.float 7.483318089770743e-19)) ∧
      readValue (Number.float 7.483318089770743e-19).text =
        .ok (.number (.float 7.483318089770744e-19)) := by
  have hfirst : (Number.float 7.483318089770742e-19).text = "7.483318089770742e-19" := by
    decide +kernel
  have hsecond : (Number.float 7.483318089770743e-19).text = "7.483318089770743e-19" := by
    decide +kernel
  rw [hfirst, hsecond]
  exact ⟨rfl, rfl⟩

theorem importText_wandering : importText wanderingDocument.prettyText = .ok wandering := by
  have hnumbers : wanderingDocument.numbers = [.int 4, .float 7.483318089770742e-19] := rfl
  have hreads : ∀ n ∈ wanderingDocument.numbers, n.ReadsAs n.reread := by
    simp only [hnumbers, List.forall_mem_cons, List.not_mem_nil, IsEmpty.forall_iff, implies_true,
      and_true]
    exact ⟨Number.readsAs_reread ⟨by decide, by decide⟩,
      Number.readsAs_reread (by decide +kernel : Float.isFinite _ = true)⟩
  have hdraft := Draft.ofText_prettyText_mapNumbers hreads
  have hfour : (Number.int 4).reread = .int 4 :=
    (Number.legible_int ⟨by decide, by decide⟩).reread
  simp only [wanderingDocument, Json.mapNumbers, mapMembers, mapItems, hfour,
    Number.reread_of_readValue readValue_wandering.1] at hdraft
  exact importText_of_ofText (d := ⟨wandering.nodes, wandering.edges, "", ""⟩) hdraft rfl rfl rfl
    rfl

theorem readsBack_wandering : ∀ n ∈ wandering.nodes, n.kind.ReadsBack := by
  have hjson : Node.Kind.numberJson 4.0 = .number (.int 4) := rfl
  have hfour : (4.0 : Float).isFinite ∧ (4.0 : Float) ≠ -0.0 := by decide +kernel
  simp only [wandering, List.forall_mem_cons, List.not_mem_nil, IsEmpty.forall_iff, implies_true,
    and_true]
  exact Node.Kind.readsBack_of_int hjson hfour.1 hfour.2

theorem stylesheet_reopened_wandering : wandering.Obtainable ∧
    (Number.float 7.483318089770743e-19).reread = .float 7.483318089770744e-19 ∧
    importText (wandering.exportText "2024-05-01T12:00:00Z") =
      .ok (wandering.mapNumbers Number.reread) ∧
    ∀ o, (wandering.mapNumbers Number.reread).compile o = wandering.compile o ∧
      (wandering.mapNumbers Number.reread).stylesheet o = wandering.stylesheet o := by
  have hg : wandering.Obtainable := .imported importText_wandering
  obtain ⟨himport, hsame⟩ := stylesheet_reopened hg "2024-05-01T12:00:00Z"
  exact ⟨hg, Number.reread_of_readValue readValue_wandering.2, himport, hsame readsBack_wandering⟩

end Graph
end ColorGraph
