import ColorGraph.Proofs.StoredGraphs
import ColorGraph.Proofs.WholeNumbers
/-!
Values that are kept and then read. Main statement: what is kept of the JSON that stands for a node
or an edge is read as that node or that edge.
-/

set_option autoImplicit false

namespace ColorGraph

attribute [local instance (2000)] instPowNat

namespace Json

section

variable {α σ : Type} {depth inner : Nat} {read : Nat → Draft → Read α}

def Restores (depth : Nat) (read : Nat → Draft → Read α) (v : Json) (a : α) : Prop :=
  ∃ w, v.toDraft.keep depth = .ok w ∧ read depth w.toDraft = .ok a

theorem Restores.items {vs : List Json} {as : List α}
    (h : List.Forall₂ (Restores depth read) vs as) :
    ∃ ws, (itemsDraft vs).keep depth = .ok ws ∧ (itemsDraft ws).readAll (read depth) = .ok as := by
  induction h with
  | nil => exact ⟨[], rfl, rfl⟩
  | cons h _ ih =>
    obtain ⟨w, hkeep, hread⟩ := h
    obtain ⟨ws, hkeeps, hreads⟩ := ih
    refine ⟨w :: ws, ?_, ?_⟩
    · rw [itemsDraft, DraftItems.keep, hkeep, hkeeps]
      rfl
    · rw [itemsDraft, DraftItems.readAll, hread, hreads]
      rfl

theorem Restores.list (henter : enter depth = .ok inner) {vs : List Json} {as : List α}
    (h : List.Forall₂ (Restores inner read) vs as) :
    (Json.array vs).Restores depth (fun depth d => d.readList depth read) as := by
  obtain ⟨ws, hkeep, hread⟩ := Restores.items h
  refine ⟨.array ws, ?_, ?_⟩
  · rw [toDraft, Draft.keep, henter]
    exact Except.map_eq_ok.2 ⟨ws, hkeep, rfl⟩
  · change (Flaw.lift (enter depth) >>= fun depth => (itemsDraft ws).readAll (read depth)) = _
    rw [henter]
    exact hread

theorem isNull_of_readList {v : Json} {as : List α}
    (h : v.toDraft.readList depth read = .ok as) : v.isNull = false := by
  cases v with
  | null => cases h
  | _ => rfl

theorem Restores.bind {v : Json} {a : α} {β : Type} {f : α → Read β} {b : β}
    (h : v.Restores depth read a) (hf : f a = .ok b) :
    v.Restores depth (fun depth d => read depth d >>= f) b := by
  obtain ⟨w, hkeep, hread⟩ := h
  exact ⟨w, hkeep, Except.bind_eq_ok.2 ⟨a, hread, hf⟩⟩

variable {r : Record σ} {ms ns : Members} {s : σ}

theorem Record.readMembers_append (ms ns : Members) (s : σ) :
    r.readMembers depth (membersDraft (ms ++ ns)) s =
      r.readMembers depth (membersDraft ms) s >>= r.readMembers depth (membersDraft ns) := by
  induction ms generalizing s with
  | nil => rfl
  | cons m ms ih =>
    change (r.readMember depth m.1 m.2.toDraft s >>=
      r.readMembers depth (membersDraft (ms ++ ns))) = _
    simp only [funext ih]
    exact (bind_assoc _ _ _).symm

variable {add : String → Json → σ → σ} {parts : Members → σ}

theorem Record.readMembers_kept (hothers : r.others = .kept add)
    (hadd : ∀ ms key v, add key v (parts ms) = parts (ms.insert key v))
    (hkept : ∀ n ∈ ns, n.2.toDraft.keep depth = .ok n.2)
    (hkeys : ∀ n ∈ ns, n.1 ∉ r.fields.map (·.name)) (ms : Members) :
    r.readMembers depth (membersDraft ns) (parts ms) = .ok (parts (ms.insertAll ns)) := by
  induction ns generalizing ms with
  | nil => rfl
  | cons n ns ih =>
    have hfind : r.fields.find? (·.name == n.1) = none := by
      simpa using hkeys n (.head _)
    have hmember : r.readMember depth n.1 n.2.toDraft (parts ms) =
        .ok (parts (ms.insert n.1 n.2)) := by
      simp only [readMember, hfind, readOther, hothers, hkept n (.head _), ← hadd]
      rfl
    exact readMembers_cons.2 ⟨_, hmember,
      ih (fun m hm => hkept m (.tail _ hm)) (fun m hm => hkeys m (.tail _ hm)) _⟩

/-- A record is read back from its own members, which come first, and others that it keeps. -/
theorem Record.IsOrderless.restores (hr : r.IsOrderless) (parts : Members → σ)
    (henter : enter depth = .ok inner) (hothers : r.others = .kept add)
    (hadd : ∀ ms key v, add key v (parts ms) = parts (ms.insert key v))
    (hms : ∀ m ∈ ms, m.2.Stored inner) (hnames : (ms.map (·.1)).Sublist (r.fields.map (·.name)))
    (hfields : (r.fields.map (·.name)).Nodup) (hns : ns.Stored inner)
    (hkeys : ∀ m ∈ ns, m.1 ∉ r.fields.map (·.name))
    (hread : r.readMembers inner (membersDraft ms) s = .ok (parts [])) :
    (Json.object (ms ++ ns)).Restores depth (fun depth d => r.read depth s d) (parts ns) := by
  have hvalues : ∀ m ∈ ms ++ ns, m.2.Stored inner := by
    intro m hm
    obtain hm | hm := List.mem_append.1 hm
    · exact hms m hm
    · exact hns.values m hm
  have hnodup : ((ms ++ ns).map (·.1)).Nodup := by
    rw [List.map_append, List.nodup_append]
    refine ⟨hnames.nodup hfields, hns.ordered.nodup_keys, ?_⟩
    rintro key hkey _ hkey' rfl
    obtain ⟨m, hm, rfl⟩ := List.mem_map.1 hkey'
    exact hkeys m hm (hnames.subset hkey)
  have hreads : r.readMembers inner (membersDraft (ms ++ ns)) s = .ok (parts ns) := by
    rw [readMembers_append, hread]
    change r.readMembers inner (membersDraft ns) (parts []) = _
    rw [readMembers_kept hothers hadd (fun m hm => (hns.values m hm).kept) hkeys,
      Members.insertAll_nil_of_ordered hns.ordered]
  obtain ⟨ws, hkeep, hperm, _⟩ := exists_keep_object henter hvalues hnodup
  refine ⟨.object ws, hkeep, ?_⟩
  change (Flaw.lift (enter depth) >>= fun depth => r.readMembers depth _ s) = _
  rw [henter]
  exact hr.readMembers_perm hperm.symm hnodup hreads

end

theorem stored_string (depth : Nat) (s : String) : (Json.string s).Stored depth :=
  ⟨rfl, List.forall_mem_nil _⟩

theorem stored_bool (depth : Nat) (b : Bool) : (Json.bool b).Stored depth :=
  ⟨rfl, List.forall_mem_nil _⟩

end Json

namespace Node

open Json

namespace Kind

def IsExact : Kind → Prop
  | inputNumber _ x => x.isFinite ∧ x ≠ -0.0
  | _ => True

theorem numberJson_spec {x : Float} (hfinite : x.isFinite) (hzero : x ≠ -0.0) :
    ∃ n, numberJson x = .number n ∧ n.toFloat = x := by
  have hfloat : Json.ofFloat x = .number (.float x) := by
    rw [Json.ofFloat, if_pos hfinite]
  unfold numberJson
  split
  next n hn =>
    split
    · exact ⟨.int n, rfl, ofInt_of_toInt? hn hzero⟩
    · exact ⟨.float x, hfloat, rfl⟩
  · exact ⟨.float x, hfloat, rfl⟩

theorem stored_numberJson (depth : Nat) (x : Float) : (numberJson x).Stored depth := by
  have hnumber : ∀ n : Number, n.Fits → (Json.number n).Stored depth := fun n hn =>
    ⟨rfl, by simpa [numbers] using hn⟩
  have hfloat : (Json.ofFloat x).Stored depth := by
    unfold Json.ofFloat
    split
    next hfinite => exact hnumber _ hfinite
    · exact ⟨rfl, List.forall_mem_nil _⟩
  unfold numberJson
  split
  · split
    next hsmall =>
      refine hnumber _ ?_
      simp only [Number.Fits]
      omega
    · exact hfloat
  · exact hfloat

theorem stored_dataMembers (depth : Nat) (k : Kind) :
    ∀ m ∈ k.dataMembers, m.2.Stored depth := by
  cases k with
  | inputColor name color => simp [dataMembers, stored_string]
  | inputNumber name x => simp [dataMembers, stored_string, stored_numberJson]
  | output name => simp [dataMembers, stored_string]
  | operation op =>
    rw [dataMembers]
    split <;> simp [stored_bool]

theorem ofData?_tag {k : Kind} (hk : k.IsExact) {data : Members}
    (hdata : ∀ m ∈ k.dataMembers, data.get? m.1 = some m.2) : ofData? k.tag data = some k := by
  cases k with
  | inputColor name color =>
    simp only [dataMembers, List.forall_mem_cons] at hdata
    simp [ofData?, tag, textIn, hdata.1, hdata.2.1]
  | inputNumber name x =>
    obtain ⟨n, hn, hx⟩ := numberJson_spec hk.1 hk.2
    simp only [dataMembers, List.forall_mem_cons, hn] at hdata
    simp [ofData?, tag, textIn, numberIn, hdata.1, hdata.2.1, hx]
  | output name =>
    simp only [dataMembers, List.forall_mem_cons] at hdata
    simp [ofData?, tag, textIn, hdata.1]
  | operation op =>
    have htag : op.tag ≠ "inputColor" ∧ op.tag ≠ "inputNumber" ∧ op.tag ≠ "output" := by
      cases op <;> decide
    rw [tag, ofData?, if_neg htag.1, if_neg htag.2.1, if_neg htag.2.2, Operation.ofTag?_tag]
    cases op <;> simp_all [dataMembers, Operation.pair?, flagIn, Operation.Pair.choose]

end Kind

variable {n : Node} {ms : Members}

def ownMembers (n : Node) (ms : Members) : Members :=
  [("id", .string n.id), ("type", .string n.kind.tag), ("data", .object (n.extraData.insertAll ms))]

theorem stored_data (h : n.Stored) (hms : ∀ m ∈ ms, m.2.Stored (depth - 2)) :
    (n.extraData.insertAll ms).Stored (depth - 2) :=
  h.data.insertAll hms

theorem stored_ownMembers (h : n.Stored) (hms : ∀ m ∈ ms, m.2.Stored (depth - 2)) :
    ∀ m ∈ n.ownMembers ms, m.2.Stored (depth - 1) := by
  have hdata : (Json.object (n.extraData.insertAll ms)).Stored (depth - 1) :=
    .object enter_data (stored_data h hms)
  simp [ownMembers, stored_string, hdata]

theorem nodup_dataKeys (k : Kind) : k.dataKeys.Nodup := by
  cases k with
  | operation op => cases op <;> decide
  | _ => simp [Kind.dataKeys]

theorem filter_data (h : n.Stored) (hkeys : ms.map (·.1) = n.kind.dataKeys) :
    (n.extraData.insertAll ms).filter (fun (key, _) => !n.kind.dataKeys.contains key) =
      n.extraData := by
  have hown : ∀ m ∈ ms, (!n.kind.dataKeys.contains m.1) = false := by
    intro m hm
    rw [← hkeys]
    simpa using ⟨m.2, hm⟩
  have hother : ∀ m ∈ n.extraData, (!n.kind.dataKeys.contains m.1) = true := by
    simpa using h.dataKeys
  exact (Members.filter_insertAll (p := fun key => !n.kind.dataKeys.contains key) hown
    n.extraData).trans (List.filter_eq_self.2 hother)

/-- What is kept of a node's JSON is read as the node, whatever members its kind is made from. -/
theorem restores_of_members (h : n.Stored) (hms : ∀ m ∈ ms, m.2.Stored (depth - 2))
    (hkeys : ms.map (·.1) = n.kind.dataKeys)
    (hkind : ∀ data : Members, (∀ m ∈ ms, data.get? m.1 = some m.2) →
      Kind.ofData? n.kind.tag data = some n.kind) :
    (Json.object (n.ownMembers ms ++ n.editor)).Restores depth read n := by
  have hdata := stored_data h hms
  have hmap : (Json.object (n.extraData.insertAll ms)).toDraft.readMap (depth - 1) =
      .ok (n.extraData.insertAll ms) := by
    have hkeep : (membersDraft (n.extraData.insertAll ms)).keep (depth - 2) [] =
        .ok (n.extraData.insertAll ms) := by
      rw [keep_membersDraft fun m hm => (hdata.values m hm).kept,
        Members.insertAll_nil_of_ordered hdata.ordered]
    change Flaw.lift ((membersDraft (n.extraData.insertAll ms)).keep (depth - 2) []) = _
    rw [hkeep]
    rfl
  have hofData : Kind.ofData? n.kind.tag (n.extraData.insertAll ms) = some n.kind := by
    have hnodup : (ms.map (·.1)).Nodup := hkeys ▸ nodup_dataKeys n.kind
    exact hkind _ fun m hm => Members.get?_insertAll_of_mem hnodup hm n.extraData
  let parts : Members → Parts :=
    Parts.mk (some n.id) (some n.kind.tag) (some (n.extraData.insertAll ms))
  have hown : record.readMembers (depth - 1) (membersDraft (n.ownMembers ms)) {} =
      .ok (parts []) := by
    refine Record.readMembers_cons.2 ⟨_, rfl, Record.readMembers_cons.2 ⟨_, rfl, ?_⟩⟩
    exact Record.readMembers_cons.2 ⟨_, Field.read_of_eq_ok.2 ⟨_, hmap, rfl⟩, rfl⟩
  have hparts : ofParts (parts n.editor) = .ok n := by
    simp only [parts, ofParts, required, Option.getD_some, pure_bind, hofData,
      filter_data h hkeys]
    rfl
  exact (record_isOrderless.restores parts enter_depth rfl (fun _ _ _ => rfl)
    (stored_ownMembers h hms) (List.Sublist.refl _) (by decide) h.editor h.editorKeys hown).bind
    hparts

theorem restores (h : n.Stored) (hk : n.kind.IsExact) : n.toJson.Restores depth read n :=
  restores_of_members h (Kind.stored_dataMembers _ n.kind) (Kind.map_fst_dataMembers n.kind)
    fun _ hdata => Kind.ofData?_tag hk hdata

end Node

namespace Edge

open Json

def ownMembers (e : Edge) : Members :=
  [("id", .string e.id), ("source", .string e.source), ("target", .string e.target)] ++
    handleMember "sourceHandle" e.sourceHandle ++ handleMember "targetHandle" e.targetHandle

theorem stored_ownMembers (e : Edge) (depth : Nat) : ∀ m ∈ e.ownMembers, m.2.Stored depth := by
  have hhandle : ∀ key h, ∀ m ∈ handleMember key h, m.2.Stored depth := by
    rintro key (_ | h) m hm
    · cases hm
    · cases List.mem_singleton.1 hm
      exact stored_string depth h
  simp only [ownMembers, List.mem_append]
  rintro m ((hm | hm) | hm)
  · revert m
    simp [stored_string]
  · exact hhandle _ _ m hm
  · exact hhandle _ _ m hm

theorem restores {e : Edge} (h : e.Stored) : e.toJson.Restores Node.depth read e := by
  have hhandle : ∀ key h, ((handleMember key h).map (·.1)).Sublist [key] := by
    rintro key (_ | h)
    · exact List.nil_sublist _
    · exact List.Sublist.refl _
  have hnames : (e.ownMembers.map (·.1)).Sublist (record.fields.map (·.name)) := by
    simp only [ownMembers, List.map_append]
    exact ((List.Sublist.refl _).append (hhandle _ _)).append (hhandle _ _)
  let parts : Members → Parts := Parts.mk (some e.id) (some e.source) (some e.target)
    (e.sourceHandle.map some) (e.targetHandle.map some)
  have hown : record.readMembers (Node.depth - 1) (membersDraft e.ownMembers) {} =
      .ok (parts []) := by
    obtain ⟨id, source, target, _ | _, _ | _, extra⟩ := e <;> rfl
  have hparts : ofParts (parts e.extra) = .ok e := by
    obtain ⟨id, source, target, _ | _, _ | _, extra⟩ := e <;> rfl
  exact (record_isOrderless.restores parts Node.enter_depth rfl (fun _ _ _ => rfl)
    (stored_ownMembers e _) hnames (by decide) h.extra h.extraKeys hown).bind hparts

end Edge
end ColorGraph
