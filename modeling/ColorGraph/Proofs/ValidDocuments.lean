import ColorGraph.Proofs.GraphRecords
/-!
Documents that are accepted. Main statement: a text is opened exactly when the value in it is a
valid document, and the graph has a node for each element of its nodes and an edge for each element
of its edges, in their order.
-/

set_option autoImplicit false

namespace ColorGraph

namespace Json

def member? (key : String) : Json → Option Json
  | .object ms => Members.get? key ms
  | _ => none

def string? : Json → Option String
  | .string s => some s
  | _ => none

def isString (v : Json) : Bool :=
  v.string?.isSome

def isObject : Json → Bool
  | .object _ => true
  | _ => false

def isHandle (v : Json) : Bool :=
  v.isNull || v.isString

def isListOf (p : Json → Bool) : Json → Bool
  | .array vs => vs.all p
  | _ => false

section

variable {v : Json} {v? : Option Json}

theorem isString_iff : v.isString ↔ ∃ s, v = .string s := by
  cases v <;> simp [isString, string?]

theorem isObject_iff : v.isObject ↔ ∃ ms, v = .object ms := by
  cases v <;> simp [isObject]

theorem isHandle_iff : v.isHandle ↔ ∃ s?, v = ofString? s? := by
  cases v <;> simp [isHandle, isNull, isString, string?, ofString?, Option.exists]

theorem any_iff {α : Type} {p : Json → Bool} {g : α → Json} (h : ∀ v, p v ↔ ∃ a, v = g a) :
    v?.any p ↔ ∃ a, v? = some (g a) := by
  cases v? <;> simp [h]

theorem all_iff {α : Type} {p : Json → Bool} {g : α → Json} (h : ∀ v, p v ↔ ∃ a, v = g a) :
    v?.all p ↔ ∃ a?, v? = Option.map g a? := by
  cases v? <;> simp [h, Option.exists, eq_comm]

end

end Json

open Json

namespace Node

namespace Kind

def tags : List String :=
  ["inputColor", "inputNumber", "output", "lighten", "darken", "saturate", "desaturate", "rotate",
    "mix", "invert", "complementary", "add", "subtract", "multiply", "divide"]

theorem exists_ofData? {tag : String} {data : Members} :
    (∃ k, ofData? tag data = some k) ↔ tag ∈ tags := by
  have htags : tags = "inputColor" :: "inputNumber" :: "output" :: Operation.all.map (·.tag) := rfl
  have hop : (Operation.ofTag? tag).isSome ↔ tag ∈ Operation.all.map (·.tag) := by
    simp [Operation.ofTag?]
  rw [htags, List.mem_cons, List.mem_cons, List.mem_cons, ← hop, ← Option.isSome_iff_exists,
    ofData?]
  split_ifs with h₁ h₂ h₃ <;> simp_all

end Kind

/-- An object with an id and a known tag, and with an object as its data, if it has any. -/
def isValid (v : Json) : Bool :=
  (v.member? "id").any isString &&
    (v.member? "type").any (fun type => type.string?.any Kind.tags.contains) &&
    (v.member? "data").all isObject

theorem isTag_iff {v? : Option Json} :
    v?.any (fun type => type.string?.any Kind.tags.contains) ↔
      ∃ tag ∈ Kind.tags, v? = some (.string tag) := by
  cases v? with
  | none => simp
  | some v => cases v <;> simp [string?]

theorem isValid_iff {v : Json} : isValid v ↔ ∃ n : Node, n.IsOf v := by
  simp only [isValid, Bool.and_eq_true, any_iff fun _ => isString_iff, isTag_iff,
    all_iff fun _ => isObject_iff]
  constructor
  · rintro ⟨⟨⟨id, hid⟩, tag, htag, htype⟩, data?, hdata⟩
    obtain ⟨kind, hkind⟩ := Kind.exists_ofData?.2 htag
    cases v with
    | object ms =>
      exact ⟨⟨id, kind, Members.without kind.dataKeys (data?.getD []), _⟩, ms, rfl, tag, data?, hid,
        htype, hdata, hkind, rfl, rfl⟩
    | _ => cases hid
  · rintro ⟨n, ms, rfl, tag, data?, hn⟩
    exact ⟨⟨⟨n.id, hn.id⟩, tag, Kind.exists_ofData?.1 ⟨n.kind, hn.kind⟩, hn.type⟩, data?, hn.data⟩

end Node

namespace Edge

def isValid (v : Json) : Bool :=
  (v.member? "id").all isString && (v.member? "source").any isString &&
    (v.member? "target").any isString && (v.member? "sourceHandle").all isHandle &&
    (v.member? "targetHandle").all isHandle

theorem isValid_iff {v : Json} : isValid v ↔ ∃ e : Edge, e.IsOf v := by
  simp only [isValid, Bool.and_eq_true, any_iff fun _ => isString_iff,
    all_iff fun _ => isString_iff, all_iff fun _ => isHandle_iff]
  constructor
  · rintro ⟨⟨⟨⟨⟨id?, hid⟩, source, hsource⟩, target, htarget⟩, sourceHandle?, hsourceHandle⟩,
      targetHandle?, htargetHandle⟩
    cases v with
    | object ms =>
      exact ⟨⟨_, source, target, _, _, _⟩, ms, rfl, exists_eq_map_iff.1 ⟨id?, hid, rfl⟩, hsource,
        htarget, exists_eq_map_iff.1 ⟨sourceHandle?, hsourceHandle, rfl⟩,
        exists_eq_map_iff.1 ⟨targetHandle?, htargetHandle, rfl⟩, rfl⟩
    | _ => cases hsource
  · rintro ⟨e, ms, rfl, he⟩
    obtain ⟨id?, hid, _⟩ := exists_eq_map_iff.2 he.id
    obtain ⟨sourceHandle?, hsourceHandle, _⟩ := exists_eq_map_iff.2 he.sourceHandle
    obtain ⟨targetHandle?, htargetHandle, _⟩ := exists_eq_map_iff.2 he.targetHandle
    exact ⟨⟨⟨⟨⟨id?, hid⟩, e.source, he.source⟩, e.target, he.target⟩, sourceHandle?,
      hsourceHandle⟩, targetHandle?, htargetHandle⟩

end Edge

namespace Document

def isValid (v : Json) : Bool :=
  (v.member? "nodes").any (isListOf Node.isValid) &&
    (v.member? "edges").any (isListOf Edge.isValid) && (v.member? "version").all isString &&
    (v.member? "exportedAt").all isString

theorem any_isListOf_iff {α : Type} {p : Json → Bool} {IsOf : Json → α → Prop}
    (h : ∀ v, p v ↔ ∃ a, IsOf v a) {v? : Option Json} :
    v?.any (isListOf p) ↔ ∃ as vs, v? = some (.array vs) ∧ List.Forall₂ IsOf vs as := by
  have hlist : ∀ vs, isListOf p (.array vs) ↔ ∃ as, List.Forall₂ IsOf vs as := by
    intro vs
    rw [exists_forall₂_iff, isListOf, List.all_eq_true]
    simp only [h]
  cases v? with
  | none => simp
  | some v =>
    cases v with
    | array vs => simp [hlist]
    | _ => simp [isListOf]

theorem isValid_iff {ms : Members} : isValid (.object ms) ↔ ∃ d : Document, d.StandsIn ms := by
  simp only [isValid, Bool.and_eq_true, all_iff fun _ => isString_iff,
    any_isListOf_iff fun _ => Node.isValid_iff, any_isListOf_iff fun _ => Edge.isValid_iff]
  constructor
  · rintro ⟨⟨⟨⟨ns, hnodes⟩, es, hedges⟩, version?, hversion⟩, exportedAt?, hexportedAt⟩
    exact ⟨⟨ns, es, _, _⟩, hnodes, hedges, exists_eq_map_iff.1 ⟨version?, hversion, rfl⟩,
      exists_eq_map_iff.1 ⟨exportedAt?, hexportedAt, rfl⟩⟩
  · rintro ⟨d, hd⟩
    obtain ⟨version?, hversion, _⟩ := exists_eq_map_iff.2 hd.version
    obtain ⟨exportedAt?, hexportedAt, _⟩ := exists_eq_map_iff.2 hd.exportedAt
    exact ⟨⟨⟨⟨d.nodes, hd.nodes⟩, d.edges, hd.edges⟩, version?, hversion⟩, exportedAt?, hexportedAt⟩

end Document

theorem Json.hasMember_iff {key : String} {v : Json} :
    v.hasMember key ↔ ∃ w, v.member? key = some w ∧ w ≠ .null := by
  have hnull : ∀ w : Json, (!w.isNull) = true ↔ w ≠ .null := by
    intro w
    cases w <;> simp [isNull]
  cases v with
  | object ms => simp [hasMember, member?, Option.any_eq_true, hnull]
  | _ => simp [hasMember, member?]

namespace Graph

variable {text : String} {v : Json}

/-- What is opened is the document in the text, when both of its lists are there. -/
theorem importText_eq (h : readValue text = .ok v) :
    importText text =
      if v.hasMember "nodes" && v.hasMember "edges" then
        (Document.graph <$> Document.read maxDepth v.toDraft).mapError .json
      else .error .notDocument := by
  rw [importText, h]
  change (if v.hasMember "nodes" && v.hasMember "edges" then do
    let d ← (Document.read maxDepth v.toDraft).mapError ImportError.json
    pure d.graph else _) = _
  cases Document.read maxDepth v.toDraft <;> rfl

theorem importText_eq_notDocument_iff (h : readValue text = .ok v) :
    importText text = .error .notDocument ↔ ¬(v.hasMember "nodes" ∧ v.hasMember "edges") := by
  rw [importText_eq h, ← Bool.and_eq_true]
  split
  next hlists =>
    rw [hlists]
    cases Document.read maxDepth v.toDraft <;> simp [Except.mapError, Functor.map, Except.map]
  next hlists => simp [hlists]

theorem importText_eq_ok (h : readValue text = .ok v) {g : Graph} :
    importText text = .ok g ↔
      ∃ ms, v = .object ms ∧ ∃ d : Document, d.StandsIn ms ∧ d.graph = g := by
  have hstored := stored_of_readValue h
  rw [importText_eq h]
  constructor
  · intro hopen
    split at hopen
    next hlists =>
      obtain ⟨d, hd, rfl⟩ := Except.map_eq_ok.1 (Except.mapError_eq_ok.1 hopen)
      obtain ⟨w, hw, _⟩ := hasMember_iff.1 (Bool.and_eq_true_iff.1 hlists).1
      cases v with
      | object ms => exact ⟨ms, rfl, d, (Document.read_eq_ok (hstored.of_object rfl)).1 hd, rfl⟩
      | _ => cases hw
    · cases hopen
  · rintro ⟨ms, rfl, d, hd, rfl⟩
    obtain ⟨vs, hvs, _⟩ := hd.nodes
    obtain ⟨ws, hws, _⟩ := hd.edges
    have hnodes : (Json.object ms).hasMember "nodes" := hasMember_iff.2 ⟨_, hvs, by simp⟩
    have hedges : (Json.object ms).hasMember "edges" := hasMember_iff.2 ⟨_, hws, by simp⟩
    rw [if_pos (by rw [hnodes, hedges]; rfl),
      (Document.read_eq_ok (hstored.of_object rfl)).2 hd]
    rfl

/-- Exactly the valid documents are opened, as a graph that has their nodes and edges in their
order; a value without the two lists is no document. -/
theorem importText_of_readValue (h : readValue text = .ok v) :
    ((∃ g, importText text = .ok g) ↔ Document.isValid v) ∧
      (importText text = .error .notDocument ↔
        ¬∃ nodes edges, v.member? "nodes" = some nodes ∧ nodes ≠ .null ∧
          v.member? "edges" = some edges ∧ edges ≠ .null) ∧
      ∀ g, importText text = .ok g →
        ∃ vs ws, v.member? "nodes" = some (.array vs) ∧ List.Forall₂ Node.IsOf vs g.nodes ∧
          v.member? "edges" = some (.array ws) ∧ List.Forall₂ Edge.IsOf ws g.edges := by
  refine ⟨?_, ?_, fun g hg => ?_⟩
  · simp only [importText_eq_ok h]
    cases v with
    | object ms =>
      rw [Document.isValid_iff]
      constructor
      · rintro ⟨_, _, ⟨⟩, d, hd, _⟩
        exact ⟨d, hd⟩
      · rintro ⟨d, hd⟩
        exact ⟨d.graph, ms, rfl, d, hd, rfl⟩
    | _ => simp [Document.isValid, member?]
  · rw [importText_eq_notDocument_iff h, hasMember_iff, hasMember_iff]
    refine not_congr ⟨?_, ?_⟩
    · rintro ⟨⟨nodes, hnodes⟩, edges, hedges⟩
      exact ⟨nodes, edges, hnodes.1, hnodes.2, hedges⟩
    · rintro ⟨nodes, edges, hnodes, hnodes', hedges⟩
      exact ⟨⟨nodes, hnodes, hnodes'⟩, edges, hedges⟩
  · obtain ⟨ms, rfl, d, hd, rfl⟩ := (importText_eq_ok h).1 hg
    obtain ⟨vs, hvs, hnodes⟩ := hd.nodes
    obtain ⟨ws, hws, hedges⟩ := hd.edges
    exact ⟨vs, ws, hvs, hnodes, hws, hedges⟩

def looseDocument : Json :=
  .object [
    ("edges", .array [.object [("source", .string "a"), ("sourceHandle", .null),
      ("target", .string "b")]]),
    ("nodes", .array [.object [("id", .string "a"), ("position", .null), ("type", .string "mix")]]),
    ("theme", .array [])]

theorem importText_of_readValue_loose :
    (readValue looseDocument.prettyText = .ok looseDocument ∧
      ∃ g, importText looseDocument.prettyText = .ok g) ∧
    readValue "[]" = .ok (.array []) ∧ importText "[]" = .error .notDocument := by
  have hloose : readValue looseDocument.prettyText = .ok looseDocument := by
    have hdraft := Draft.ofText_prettyText (v := looseDocument) (List.forall_mem_nil _)
    rw [readValue, readText_eq_ok, hdraft]
    exact ⟨rfl, rfl⟩
  have hempty : readValue "[]" = .ok (.array []) := rfl
  refine ⟨⟨hloose, (importText_of_readValue hloose).1.2 rfl⟩, hempty, ?_⟩
  exact (importText_of_readValue hempty).2.1.2 (by simp [member?])

end Graph
end ColorGraph
