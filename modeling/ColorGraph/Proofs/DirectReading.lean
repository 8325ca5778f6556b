import ColorGraph.Proofs.Saving
import ColorGraph.Proofs.ValidDocuments
/-!
Graphs read while their text is, without a value in between. Main statement: a text in which no
object repeats a key, when it is opened as a document, is read as the same graph in this way.
-/

set_option autoImplicit false

namespace ColorGraph

namespace Json

def DraftMembers.keys : DraftMembers → List String
  | .done => []
  | .member (.ok key) _ rest => key :: rest.keys
  | .member (.error _) _ rest => rest.keys
  | .broken _ => []

mutual

def Draft.hasDistinctKeys : Draft → Bool
  | .list items => items.hasDistinctKeys
  | .object members => decide members.keys.Nodup && members.hasDistinctKeys
  | _ => true

def DraftItems.hasDistinctKeys : DraftItems → Bool
  | .done => true
  | .item value rest => value.hasDistinctKeys && rest.hasDistinctKeys
  | .broken _ => true

def DraftMembers.hasDistinctKeys : DraftMembers → Bool
  | .done => true
  | .member _ value rest => value.hasDistinctKeys && rest.hasDistinctKeys
  | .broken _ => true

end

theorem keys_membersDraft (ms : Members) : (membersDraft ms).keys = ms.map (·.1) := by
  induction ms with
  | nil => rfl
  | cons m ms ih => rw [membersDraft, DraftMembers.keys, ih, List.map_cons]

theorem hasDistinctKeys_itemsDraft {vs : List Json} :
    (itemsDraft vs).hasDistinctKeys ↔ ∀ v ∈ vs, v.toDraft.hasDistinctKeys := by
  induction vs with
  | nil => simp [itemsDraft, DraftItems.hasDistinctKeys]
  | cons v vs ih => simp [itemsDraft, DraftItems.hasDistinctKeys, ih]

theorem hasDistinctKeys_membersDraft {ms : Members} :
    (membersDraft ms).hasDistinctKeys ↔ ∀ m ∈ ms, m.2.toDraft.hasDistinctKeys := by
  induction ms with
  | nil => simp [membersDraft, DraftMembers.hasDistinctKeys]
  | cons m ms ih => simp [membersDraft, DraftMembers.hasDistinctKeys, ih]

mutual

theorem Draft.exists_toDraft {depth : Nat} : (d : Draft) → {v : Json} →
    d.keep depth = .ok v → ∃ w : Json, w.toDraft = d
  | .null, _, _ => ⟨.null, rfl⟩
  | .bool b, _, _ => ⟨.bool b, rfl⟩
  | .number none, _, h => by cases h
  | .number (some n), _, _ => ⟨.number n, rfl⟩
  | .string s, _, h => by
    obtain ⟨s, rfl, _⟩ := Except.map_eq_ok.1 h
    exact ⟨.string s, rfl⟩
  | .list items, _, h => by
    obtain ⟨_, _, h⟩ := Except.bind_eq_ok.1 h
    obtain ⟨_, hvs, _⟩ := Except.map_eq_ok.1 h
    obtain ⟨ws, rfl⟩ := items.exists_itemsDraft hvs
    exact ⟨.array ws, rfl⟩
  | .object members, _, h => by
    obtain ⟨_, _, h⟩ := Except.bind_eq_ok.1 h
    obtain ⟨_, hms, _⟩ := Except.map_eq_ok.1 h
    obtain ⟨ws, rfl⟩ := members.exists_membersDraft hms
    exact ⟨.object ws, rfl⟩
  | .misspelt _, _, h => by cases h
  | .broken _, _, h => by cases h

theorem DraftItems.exists_itemsDraft {depth : Nat} : (items : DraftItems) → {vs : List Json} →
    items.keep depth = .ok vs → ∃ ws, itemsDraft ws = items
  | .done, _, _ => ⟨[], rfl⟩
  | .item value rest, _, h => by
    obtain ⟨_, hv, h⟩ := Except.bind_eq_ok.1 h
    obtain ⟨_, hvs, _⟩ := Except.bind_eq_ok.1 h
    obtain ⟨w, rfl⟩ := value.exists_toDraft hv
    obtain ⟨ws, rfl⟩ := rest.exists_itemsDraft hvs
    exact ⟨w :: ws, rfl⟩
  | .broken _, _, h => by cases h

theorem DraftMembers.exists_membersDraft {depth : Nat} : (members : DraftMembers) →
    {acc ms : Members} → members.keep depth acc = .ok ms → ∃ ws, membersDraft ws = members
  | .done, _, _, _ => ⟨[], rfl⟩
  | .member key value rest, _, _, h => by
    obtain ⟨k, hk, h⟩ := Except.bind_eq_ok.1 h
    obtain ⟨_, hv, hms⟩ := Except.bind_eq_ok.1 h
    obtain ⟨w, rfl⟩ := value.exists_toDraft hv
    obtain ⟨ws, rfl⟩ := rest.exists_membersDraft hms
    exact ⟨(k, w) :: ws, by rw [hk]; rfl⟩
  | .broken _, _, _, h => by cases h

end

section

variable {depth inner : Nat}

theorem forall₂_of_keep_itemsDraft {us vs : List Json} (h : (itemsDraft us).keep depth = .ok vs) :
    List.Forall₂ (fun u v => u.toDraft.keep depth = .ok v) us vs := by
  induction us generalizing vs with
  | nil =>
    cases h
    exact .nil
  | cons u us ih =>
    obtain ⟨_, hu, h⟩ := Except.bind_eq_ok.1 h
    obtain ⟨_, hus, h⟩ := Except.bind_eq_ok.1 h
    cases h
    exact .cons hu (ih hus)

theorem forall₂_of_keep_membersDraft {us acc ms : Members}
    (h : (membersDraft us).keep depth acc = .ok ms) :
    ∃ vs, List.Forall₂ (fun u v => u.1 = v.1 ∧ u.2.toDraft.keep depth = .ok v.2) us vs ∧
      ms = acc.insertAll vs := by
  induction us generalizing acc with
  | nil =>
    cases h
    exact ⟨[], .nil, rfl⟩
  | cons u us ih =>
    obtain ⟨_, ⟨⟩, h⟩ := Except.bind_eq_ok.1 h
    obtain ⟨v, hv, h⟩ := Except.bind_eq_ok.1 h
    obtain ⟨vs, hvs, rfl⟩ := ih h
    exact ⟨(u.1, v) :: vs, .cons ⟨rfl, hv⟩ hvs, rfl⟩

/-- A value as it stands in a text, where no object repeats a key, and what is kept of it. -/
structure KeptAs (depth : Nat) (w v : Json) : Prop where
  distinct : w.toDraft.hasDistinctKeys
  kept : w.toDraft.keep depth = .ok v
  stored : v.Stored depth

namespace KeptAs

variable {v w : Json}

theorem of_array {us : List Json} (h : KeptAs depth (.array us) v) :
    ∃ inner vs, enter depth = .ok inner ∧ v = .array vs ∧ List.Forall₂ (KeptAs inner) us vs := by
  obtain ⟨inner, henter, hkept⟩ := Except.bind_eq_ok.1 h.kept
  obtain ⟨vs, hvs, rfl⟩ := Except.map_eq_ok.1 hkept
  have hdistinct := hasDistinctKeys_itemsDraft.1 h.distinct
  have hstored := h.stored.of_array henter
  exact ⟨inner, vs, henter, rfl, (forall₂_with_mem (forall₂_of_keep_itemsDraft hvs)).imp
    fun u v ⟨hu, hv, hkeep⟩ => ⟨hdistinct u hu, hkeep, hstored v hv⟩⟩

theorem of_object {us : Members} (h : KeptAs depth (.object us) v) :
    ∃ inner vs ms, enter depth = .ok inner ∧ v = .object ms ∧ vs.Perm ms ∧ (vs.map (·.1)).Nodup ∧
      List.Forall₂ (fun u v => u.1 = v.1 ∧ KeptAs inner u.2 v.2) us vs := by
  obtain ⟨inner, henter, hkept⟩ := Except.bind_eq_ok.1 h.kept
  obtain ⟨_, hms, rfl⟩ := Except.map_eq_ok.1 hkept
  obtain ⟨hkeys, hdistinct⟩ := Bool.and_eq_true_iff.1 h.distinct
  obtain ⟨vs, hvs, rfl⟩ := forall₂_of_keep_membersDraft hms
  have hnodup : (vs.map (·.1)).Nodup := by
    have hmap : us.map (·.1) = vs.map (·.1) := by
      rw [← List.forall₂_eq_eq_eq, List.forall₂_map_left_iff, List.forall₂_map_right_iff]
      exact hvs.imp fun _ _ h => h.1
    rw [← hmap, ← keys_membersDraft]
    exact of_decide_eq_true hkeys
  have hperm : (Members.insertAll [] vs).Perm vs := Members.insertAll_perm hnodup
  have hstored := (h.stored.of_object henter).values
  refine ⟨inner, vs, _, henter, rfl, hperm.symm, hnodup, (forall₂_with_mem hvs).imp ?_⟩
  rintro u v ⟨hu, hv, hkey, hkeep⟩
  exact ⟨hkey, hasDistinctKeys_membersDraft.1 hdistinct u hu, hkeep,
    hstored v (hperm.mem_iff.2 hv)⟩

theorem eq_of_scalar (h : KeptAs depth w v) (hlist : ∀ vs, v ≠ .array vs)
    (hobject : ∀ ms, v ≠ .object ms) : w = v := by
  cases w with
  | array us =>
    obtain ⟨_, vs, _, rfl, _⟩ := h.of_array
    exact absurd rfl (hlist vs)
  | object us =>
    obtain ⟨_, _, ms, _, rfl, _⟩ := h.of_object
    exact absurd rfl (hobject ms)
  | _ =>
    have hkept := h.kept
    cases hkept
    rfl

theorem eq_object {ms : Members} (h : KeptAs depth w (.object ms)) : ∃ us, w = .object us := by
  obtain ⟨members, hmembers⟩ := Draft.eq_object_of_keep h.kept
  cases w with
  | object us => exact ⟨us, rfl⟩
  | _ => cases hmembers

end KeptAs

def ReadsInPlace {α : Type} (depth : Nat) (read : Draft → Read α) : Prop :=
  ∀ w v a, KeptAs depth w v → read v.toDraft = .ok a → read w.toDraft = .ok a

variable {α β σ : Type} {read : Nat → Draft → Read α}

theorem ReadsInPlace.bind {read : Draft → Read α} (h : ReadsInPlace depth read) (f : α → Read β) :
    ReadsInPlace depth fun d => read d >>= f := by
  intro w v b hw hread
  obtain ⟨a, ha, hb⟩ := Except.bind_eq_ok.1 hread
  exact Except.bind_eq_ok.2 ⟨a, h w v a hw ha, hb⟩

theorem readsInPlace_string : ReadsInPlace depth Draft.readString := by
  intro w v s hw hread
  obtain rfl := readString_toDraft.1 hread
  obtain rfl := hw.eq_of_scalar (by simp) (by simp)
  exact hread

theorem readsInPlace_optional : ReadsInPlace depth (Draft.readOptional Draft.readString) := by
  intro w v s? hw hread
  obtain rfl := readOptional_toDraft.1 hread
  obtain rfl : w = ofString? s? := by
    cases s? <;> exact hw.eq_of_scalar (by simp [ofString?]) (by simp [ofString?])
  exact hread

theorem readsInPlace_map : ReadsInPlace depth (Draft.readMap depth) := by
  intro w v ms hw hread
  rw [Draft.readMap_eq_ok, hw.stored.kept] at hread
  rw [Draft.readMap_eq_ok, hw.kept, hread]

theorem readsInPlace_list (h : ∀ inner, enter depth = .ok inner → ReadsInPlace inner (read inner)) :
    ReadsInPlace depth fun d => d.readList depth read := by
  intro w v as hw hread
  cases w with
  | array us =>
    obtain ⟨inner, vs, henter, rfl, hus⟩ := hw.of_array
    obtain ⟨_, ⟨⟩, has⟩ := (readList_toDraft henter).1 hread
    refine (readList_toDraft henter).2 ⟨us, rfl, ?_⟩
    clear hw hread
    induction hus generalizing as with
    | nil =>
      cases has
      exact .nil
    | cons hu _ ih =>
      cases has with
      | cons ha has => exact .cons (h inner henter _ _ _ hu ha) (ih _ has)
  | object us =>
    obtain ⟨_, _, _, _, rfl, _⟩ := hw.of_object
    cases hread
  | _ =>
    have hkept := hw.kept
    cases hkept
    exact hread

theorem Field.readsInPlace_of {name : String} {opt : Bool} {get : σ → Option α} {set : α → σ → σ}
    (h : ReadsInPlace depth (read depth)) (s : σ) :
    ReadsInPlace depth fun d => (Field.of name opt get set read).read depth d s :=
  h.bind fun a => pure (set a s)

namespace Record

def FieldsInPlace (r : Record σ) (depth : Nat) : Prop :=
  ∀ f ∈ r.fields, ∀ s, ReadsInPlace depth fun d => f.read depth d s

variable {r : Record σ} (hfields : r.FieldsInPlace depth)
include hfields

theorem readsInPlace_member (key : String) (s : σ) :
    ReadsInPlace depth fun d => r.readMember depth key d s := by
  intro w v s' hw hread
  dsimp only at hread ⊢
  unfold readMember at hread ⊢
  split at hread
  next =>
    unfold readOther at hread ⊢
    split at hread
    · rwa [skip_toDraft] at hread ⊢
    · rw [hw.stored.kept] at hread
      rwa [hw.kept]
  next f hf =>
    split at hread
    · cases hread
    next hset =>
      rw [if_neg hset]
      exact hfields f (List.mem_of_find?_eq_some hf) s w v s' hw hread

theorem readMembers_of_keptAs {us vs : Members}
    (h : List.Forall₂ (fun u v => u.1 = v.1 ∧ KeptAs depth u.2 v.2) us vs) {s s' : σ}
    (hread : r.readMembers depth (membersDraft vs) s = .ok s') :
    r.readMembers depth (membersDraft us) s = .ok s' := by
  induction h generalizing s with
  | nil => exact hread
  | cons hu _ ih =>
    obtain ⟨s₁, hmember, hread⟩ := readMembers_cons.1 hread
    refine readMembers_cons.2 ⟨s₁, ?_, ih hread⟩
    rw [hu.1]
    exact readsInPlace_member hfields _ s _ _ s₁ hu.2 hmember

omit hfields in
/-- A record of this kind is read from the members as they stand in the text. -/
theorem IsOrderless.readsInPlace (hr : r.IsOrderless) (hlist : r.hasListForm = false)
    (hfields : ∀ inner, r.FieldsInPlace inner) (s : σ) : ReadsInPlace depth (r.read depth s) := by
  intro w v s' hw hread
  cases w with
  | object us =>
    obtain ⟨inner, vs, ms, henter, rfl, hperm, hnodup, hus⟩ := hw.of_object
    obtain ⟨_, entered, ⟨⟩, hentered, hms⟩ := (read_eq_ok hlist).1 hread
    obtain rfl : entered = inner := Except.ok.inj (hentered.symm.trans henter)
    have hvs := hr.readMembers_perm hperm.symm ((hperm.map (·.1)).nodup_iff.1 hnodup) hms
    exact (read_eq_ok hlist).2
      ⟨us, _, rfl, henter, readMembers_of_keptAs (hfields _) hus hvs⟩
  | array us =>
    obtain ⟨_, _, _, rfl, _⟩ := hw.of_array
    obtain ⟨_, _, ⟨⟩, _⟩ := (read_eq_ok hlist).1 hread
  | _ =>
    have hkept := hw.kept
    cases hkept
    exact hread

end Record
end

end Json

open Json

theorem Node.readsInPlace (depth : Nat) : ReadsInPlace depth (read depth) := by
  refine (Record.IsOrderless.readsInPlace record_isOrderless rfl ?_ {}).bind ofParts
  intro inner
  simp only [Record.FieldsInPlace, record, List.forall_mem_cons, List.not_mem_nil,
    IsEmpty.forall_iff, implies_true, and_true]
  exact ⟨Field.readsInPlace_of readsInPlace_string, Field.readsInPlace_of readsInPlace_string,
    Field.readsInPlace_of readsInPlace_map⟩

theorem Edge.readsInPlace (depth : Nat) : ReadsInPlace depth (read depth) := by
  refine (Record.IsOrderless.readsInPlace record_isOrderless rfl ?_ {}).bind ofParts
  intro inner
  simp only [Record.FieldsInPlace, record, List.forall_mem_cons, List.not_mem_nil,
    IsEmpty.forall_iff, implies_true, and_true]
  exact ⟨Field.readsInPlace_of readsInPlace_string, Field.readsInPlace_of readsInPlace_string,
    Field.readsInPlace_of readsInPlace_string, Field.readsInPlace_of readsInPlace_optional,
    Field.readsInPlace_of readsInPlace_optional⟩

theorem Document.fieldsInPlace (depth : Nat) : record.FieldsInPlace depth := by
  simp only [Record.FieldsInPlace, record, List.forall_mem_cons, List.not_mem_nil,
    IsEmpty.forall_iff, implies_true, and_true]
  exact ⟨Field.readsInPlace_of (readsInPlace_list fun inner _ => Node.readsInPlace inner),
    Field.readsInPlace_of (readsInPlace_list fun inner _ => Edge.readsInPlace inner),
    Field.readsInPlace_of readsInPlace_string, Field.readsInPlace_of readsInPlace_string⟩

namespace Graph

theorem readMember_of_document {depth : Nat} {key : String} {v : Json} {p p' : Document.Parts}
    (h : Document.record.readMember depth key v.toDraft p = .ok p') :
    record.readMember depth key v.toDraft ⟨p.nodes, p.edges⟩ = .ok ⟨p'.nodes, p'.edges⟩ := by
  have hnames : (record.fields.map (·.name)).Nodup := by decide
  have hother : ∀ key ∉ record.fields.map (·.name), ∀ p,
      record.readMember depth key v.toDraft p = .ok p := fun key hkey p =>
    (Record.readMember_eq_ok hnames).2 (.inr ⟨hkey, Record.readOther_ignored rfl key v p⟩)
  obtain ⟨f, hf, rfl, hstep⟩ | ⟨hkey, hstep⟩ := (Record.readMember_eq_ok (by decide)).1 h
  · simp only [Document.record, List.mem_cons, List.not_mem_nil, or_false] at hf
    obtain rfl | rfl | rfl | rfl := hf <;> obtain ⟨hnone, a, ha, rfl⟩ := Field.step_of_eq_ok.1 hstep
    · exact (Record.readMember_eq_ok hnames).2
        (.inl ⟨_, .head _, rfl, Field.step_of_eq_ok.2 ⟨hnone, a, ha, rfl⟩⟩)
    · exact (Record.readMember_eq_ok hnames).2
        (.inl ⟨_, .tail _ (.head _), rfl, Field.step_of_eq_ok.2 ⟨hnone, a, ha, rfl⟩⟩)
    · exact hother "version" (by decide) _
    · exact hother "exportedAt" (by decide) _
  · cases (Record.readOther_ignored rfl key v p).symm.trans hstep
    have hsub : record.fields.map (·.name) ⊆ Document.record.fields.map (·.name) := by decide
    exact hother key (fun hmem => hkey (hsub hmem)) _

theorem readMembers_of_document {depth : Nat} {ms : Members} {p p' : Document.Parts}
    (h : Document.record.readMembers depth (membersDraft ms) p = .ok p') :
    record.readMembers depth (membersDraft ms) ⟨p.nodes, p.edges⟩ = .ok ⟨p'.nodes, p'.edges⟩ := by
  induction ms generalizing p with
  | nil =>
    cases h
    rfl
  | cons m ms ih =>
    obtain ⟨p₁, hm, h⟩ := Record.readMembers_cons.1 h
    exact Record.readMembers_cons.2 ⟨_, readMember_of_document hm, ih h⟩

/-- A document that was kept is read as its graph where it stands in the text. -/
theorem read_of_document {us ms : Members} {d : Document}
    (hw : KeptAs maxDepth (.object us) (.object ms))
    (h : Document.read maxDepth (Json.object ms).toDraft = .ok d) :
    read maxDepth (Json.object us).toDraft = .ok d.graph := by
  obtain ⟨_, vs, _, ⟨⟩, ⟨⟩, hperm, hnodup, hus⟩ := hw.of_object
  obtain ⟨p, hp, hparts⟩ := Except.bind_eq_ok.1 h
  change Document.record.readMembers (maxDepth - 1) (membersDraft ms) {} = .ok p at hp
  have hvs := Document.record_isOrderless.readMembers_perm hperm.symm
    ((hperm.map (·.1)).nodup_iff.1 hnodup) hp
  have hread := readMembers_of_document
    (Record.readMembers_of_keptAs (Document.fieldsInPlace _) hus hvs)
  obtain ⟨ns, hns, hparts⟩ := Except.bind_eq_ok.1 hparts
  obtain ⟨es, hes, hparts⟩ := Except.bind_eq_ok.1 hparts
  cases hparts
  rw [required_eq_ok.1 hns, required_eq_ok.1 hes] at hread
  exact Except.bind_eq_ok.2 ⟨_, hread, rfl⟩

/-- A text that is opened as a document is read as the same graph without a value in between. -/
theorem ofText_of_importText {text : String} {g : Graph}
    (hkeys : (Draft.ofText text).1.hasDistinctKeys) (h : importText text = .ok g) :
    ofText text = .ok g := by
  obtain ⟨v, hvalue, _⟩ := Except.bind_eq_ok.1 h
  replace hvalue := Except.mapError_eq_ok.1 hvalue
  obtain ⟨ms, rfl, d, hd, rfl⟩ := (importText_eq_ok hvalue).1 h
  have hstored := stored_of_readValue hvalue
  obtain ⟨hmore, hkeep⟩ := readText_eq_ok.1 hvalue
  replace hkeep := Except.mapError_eq_ok.1 hkeep
  obtain ⟨w, hw⟩ := Draft.exists_toDraft _ hkeep
  rw [← hw] at hkeys hkeep
  have hkept : KeptAs maxDepth w (.object ms) := ⟨hkeys, hkeep, hstored⟩
  obtain ⟨us, rfl⟩ := hkept.eq_object
  have hread := read_of_document hkept ((Document.read_eq_ok (hstored.of_object rfl)).2 hd)
  exact readText_eq_ok.2 ⟨hmore, hw ▸ hread⟩

theorem ofText_of_importText_shuffled :
    (Draft.ofText shuffledDocument.prettyText).1.hasDistinctKeys ∧
      importText shuffledDocument.prettyText = .ok shuffled ∧
      ofText shuffledDocument.prettyText = .ok shuffled := by
  have hkeys : (Draft.ofText shuffledDocument.prettyText).1.hasDistinctKeys := by
    rw [Draft.ofText_prettyText legible_shuffledDocument]
    rfl
  exact ⟨hkeys, importText_shuffled, ofText_of_importText hkeys importText_shuffled⟩

end Graph
end ColorGraph
