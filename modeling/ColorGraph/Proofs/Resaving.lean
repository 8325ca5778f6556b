import ColorGraph.Proofs.GraphRecords
/-!
What a node or an edge is written as after it was read. Main statement: of its members only those
that it knows are changed, and what is written is read as the same node or edge again.
-/

set_option autoImplicit false

namespace ColorGraph

namespace Json

variable {depth inner : Nat} {own ms : Members} {keys : List String}

theorem Members.without_append_without (hkeys : ∀ m ∈ own, m.1 ∈ keys) :
    Members.without keys (own ++ ms.without keys) = ms.without keys := by
  have hnone : Members.without keys own = [] := by
    simpa [without, List.filter_eq_nil_iff] using hkeys
  have hall : (ms.without keys).without keys = ms.without keys := by
    simp [without, List.filter_filter]
  calc Members.without keys (own ++ ms.without keys)
      = Members.without keys own ++ (ms.without keys).without keys := List.filter_append ..
    _ = ms.without keys := by rw [hnone, hall, List.nil_append]

theorem exists_keep_record (keys : List String) (henter : enter depth = .ok inner)
    (hms : ms.Stored inner) (hown : ∀ m ∈ own, m.2.Stored inner) (hnodup : (own.map (·.1)).Nodup)
    (hkeys : ∀ m ∈ own, m.1 ∈ keys) :
    ∃ ws : Members, (Json.object (own ++ ms.without keys)).toDraft.keep depth = .ok (.object ws) ∧
      ws.Stored inner ∧ (∀ key ∈ keys, ws.get? key = own.get? key) ∧
        ws.without keys = ms.without keys := by
  have hvalues : ∀ m ∈ own ++ ms.without keys, m.2.Stored inner := by
    rw [List.forall_mem_append]
    exact ⟨hown, fun m hm => hms.values m (Members.mem_without.1 hm).1⟩
  have hdistinct : ((own ++ ms.without keys).map (·.1)).Nodup := by
    rw [List.map_append, List.nodup_append]
    refine ⟨hnodup, (hms.ordered.without keys).nodup_keys, ?_⟩
    rintro key hkey _ hkey' rfl
    rcases List.mem_map.1 hkey with ⟨m, hm, rfl⟩
    rcases List.mem_map.1 hkey' with ⟨m', hm', heq⟩
    exact (Members.mem_without.1 hm').2 (heq ▸ hkeys m hm)
  rcases exists_keep_object henter hvalues hdistinct with ⟨ws, hkeep, hperm, hws⟩
  refine ⟨ws, hkeep, hws, fun key hkey => ?_, ?_⟩
  · rw [Members.get?_eq_of_perm hperm hdistinct, Members.get?_append,
      Members.get?_without_of_mem hkey, Option.or_none]
  · have hothers : (Members.without keys ws).Perm (ms.without keys) :=
      (hperm.filter _).trans (.of_eq (Members.without_append_without hkeys))
    exact (hws.ordered.without keys).eq_of_perm (hms.ordered.without keys) hothers

end Json

namespace Node

open Json

def dataIn (ms : Members) : Members :=
  match ms.get? "data" with
  | some (.object data) => data
  | _ => []

structure IsResaved (n : Node) (ms ws : Members) : Prop where
  id : ws.get? "id" = ms.get? "id"
  type : ws.get? "type" = some (.string n.kind.tag)
  data : ∃ ds : Members, ws.get? "data" = some (.object ds) ∧
    (∀ key ∈ n.kind.dataKeys, ds.get? key = n.kind.dataMembers.get? key) ∧
      ds.without n.kind.dataKeys = (dataIn ms).without n.kind.dataKeys
  others : ws.without ["id", "type", "data"] = ms.without ["id", "type", "data"]

variable {depth inner innermost : Nat} {ms : Members} {n : Node} {tag : String}
  {data? : Option Members}

theorem dataIn_eq (h : ms.get? "data" = data?.map .object) : dataIn ms = data?.getD [] := by
  rw [dataIn, h]
  cases data? <;> rfl

theorem stored_dataIn (hms : ms.Stored inner) (henter : enter inner = .ok innermost) :
    (dataIn ms).Stored innermost := by
  unfold dataIn
  split
  next data hdata =>
    have hstored : (Json.object data).Stored inner := hms.values _ (Members.mem_of_get? hdata)
    exact hstored.of_object henter
  · exact Members.stored_nil

theorem get?_data {m : String × Json} (hm : m ∈ n.kind.dataMembers) :
    n.data.get? m.1 = some m.2 := by
  have hkeys : (n.kind.dataMembers.map (·.1)).Nodup := by
    rw [Kind.map_fst_dataMembers]
    exact nodup_dataKeys n.kind
  exact Members.get?_insertAll_of_mem hkeys hm n.extraData

namespace StandsIn

theorem stored_extraData (hn : n.StandsIn ms tag data?) (hms : ms.Stored inner)
    (henter : enter inner = .ok innermost) : n.extraData.Stored innermost := by
  have hdata := stored_dataIn hms henter
  rw [hn.extraData, ← dataIn_eq hn.data]
  exact ⟨hdata.ordered.without _, fun m hm => hdata.values m (Members.mem_without.1 hm).1⟩

theorem without_data (hn : n.StandsIn ms tag data?) :
    n.data.without n.kind.dataKeys = n.extraData := by
  have hown : ∀ m ∈ n.kind.dataMembers, (!n.kind.dataKeys.contains m.1) = false := by
    intro m hm
    rw [← Kind.map_fst_dataMembers]
    simpa using ⟨m.2, hm⟩
  calc n.data.without n.kind.dataKeys
      = n.extraData.without n.kind.dataKeys :=
        Members.filter_insertAll (p := fun key => !n.kind.dataKeys.contains key) hown n.extraData
    _ = n.extraData := by simp [hn.extraData, Members.without, List.filter_filter]

theorem exists_resaved (hn : n.StandsIn ms tag data?) (hms : ms.Stored inner)
    (henter : enter depth = .ok inner) (henter' : enter inner = .ok innermost) :
    ∃ ws : Members, n.toJson.toDraft.keep depth = .ok (.object ws) ∧ ws.Stored inner ∧
      n.IsResaved ms ws ∧ (n.kind.IsExact → n.IsOf (.object ws)) := by
  have hdata : n.data.Stored innermost :=
    (hn.stored_extraData hms henter').insertAll (Kind.stored_dataMembers innermost n.kind)
  have hown : ∀ m ∈ n.ownMembers n.kind.dataMembers, m.2.Stored inner := by
    have hobject : (Json.object n.data).Stored inner := .object henter' hdata
    simp only [ownMembers, List.forall_mem_cons]
    exact ⟨stored_string _ _, stored_string _ _, hobject, List.forall_mem_nil _⟩
  rcases exists_keep_record ["id", "type", "data"] henter hms hown (by simp [ownMembers])
    (by simp [ownMembers]) with ⟨ws, hkeep, hws, hget, hothers⟩
  have hid : ws.get? "id" = some (.string n.id) := hget "id" (by decide)
  have htype : ws.get? "type" = some (.string n.kind.tag) := hget "type" (by decide)
  have hobject : ws.get? "data" = some (.object n.data) := hget "data" (by decide)
  rw [← hn.editor] at hkeep
  refine ⟨ws, hkeep, hws, ?_, fun hexact => ?_⟩
  · refine ⟨hid.trans hn.id.symm, htype, ⟨n.data, hobject, fun key hkey => ?_, ?_⟩, hothers⟩
    · rw [← Kind.map_fst_dataMembers] at hkey
      rcases List.mem_map.1 hkey with ⟨m, hm, rfl⟩
      have hnodup : (n.kind.dataMembers.map (·.1)).Nodup := by
        rw [Kind.map_fst_dataMembers]
        exact nodup_dataKeys n.kind
      rw [get?_data hm, (Members.get?_eq_some_iff hnodup).2 hm]
    · rw [hn.without_data, hn.extraData, dataIn_eq hn.data]
  · have hkind : Kind.ofData? n.kind.tag n.data = some n.kind :=
      Kind.ofData?_tag hexact fun m hm => get?_data hm
    exact ⟨ws, rfl, n.kind.tag, some n.data, hid, htype, hobject, hkind, hn.without_data.symm,
      hn.editor.trans hothers.symm⟩

end StandsIn
end Node

namespace Edge

open Json

structure IsResaved (ms ws : Members) : Prop where
  id : ws.get? "id" = some ((ms.get? "id").getD (.string ""))
  source : ws.get? "source" = ms.get? "source"
  target : ws.get? "target" = ms.get? "target"
  sourceHandle : ws.get? "sourceHandle" = (ms.get? "sourceHandle").filter (!·.isNull)
  targetHandle : ws.get? "targetHandle" = (ms.get? "targetHandle").filter (!·.isNull)
  others : ws.without ["id", "source", "target", "sourceHandle", "targetHandle"] =
    ms.without ["id", "source", "target", "sourceHandle", "targetHandle"]

variable {depth inner : Nat} {ms ws : Members} {e : Edge} {key : String}
  {handle? : Option String}

theorem filter_handle (h : ms.get? key = some (ofString? handle?) ∨
    ms.get? key = none ∧ handle? = none) :
    (ms.get? key).filter (!·.isNull) = handle?.map .string := by
  rcases h with h | ⟨h, rfl⟩
  · rw [h]
    cases handle? <;> rfl
  · rw [h]
    rfl

theorem handle_of_map (h : ws.get? key = handle?.map .string) :
    ws.get? key = some (ofString? handle?) ∨ ws.get? key = none ∧ handle? = none := by
  cases handle? with
  | none => exact .inr ⟨h, rfl⟩
  | some handle => exact .inl h

theorem get?_ownMembers_handle {key : String} {handle : Option String}
    (h : (key, handle) ∈ [("sourceHandle", e.sourceHandle), ("targetHandle", e.targetHandle)]) :
    e.ownMembers.get? key = handle.map .string := by
  simp only [List.mem_cons, Prod.mk.injEq, List.not_mem_nil, or_false] at h
  rcases e with ⟨id, source, target, _ | _, _ | _, extra⟩ <;>
    obtain ⟨rfl, rfl⟩ | ⟨rfl, rfl⟩ := h <;> rfl

theorem nodup_ownMembers : (e.ownMembers.map (·.1)).Nodup := by
  rcases e with ⟨id, source, target, _ | _, _ | _, extra⟩ <;> simp [ownMembers, handleMember]

theorem key_ownMembers : ∀ m ∈ e.ownMembers,
    m.1 ∈ ["id", "source", "target", "sourceHandle", "targetHandle"] := by
  rcases e with ⟨id, source, target, _ | _, _ | _, extra⟩ <;> simp [ownMembers, handleMember]

theorem StandsIn.exists_resaved (he : e.StandsIn ms) (hms : ms.Stored inner)
    (henter : enter depth = .ok inner) :
    ∃ ws : Members, e.toJson.toDraft.keep depth = .ok (.object ws) ∧ ws.Stored inner ∧
      IsResaved ms ws ∧ e.IsOf (.object ws) := by
  rcases exists_keep_record ["id", "source", "target", "sourceHandle", "targetHandle"] henter hms
    (stored_ownMembers e inner) nodup_ownMembers key_ownMembers with ⟨ws, hkeep, hws, hget, hothers⟩
  have hid : ws.get? "id" = some (.string e.id) := hget "id" (by decide)
  have hsource : ws.get? "source" = some (.string e.source) := hget "source" (by decide)
  have htarget : ws.get? "target" = some (.string e.target) := hget "target" (by decide)
  have hsourceHandle : ws.get? "sourceHandle" = e.sourceHandle.map .string :=
    (hget _ (by decide)).trans (get?_ownMembers_handle (.head _))
  have htargetHandle : ws.get? "targetHandle" = e.targetHandle.map .string :=
    (hget _ (by decide)).trans (get?_ownMembers_handle (.tail _ (.head _)))
  have hdefault : (ms.get? "id").getD (.string "") = .string e.id := by
    rcases he.id with h | ⟨h, hempty⟩
    · rw [h, Option.getD_some]
    · rw [h, Option.getD_none, hempty]
  rw [← he.extra] at hkeep
  refine ⟨ws, hkeep, hws, ?_, ws, rfl, ?_⟩
  · exact ⟨hdefault ▸ hid, hsource.trans he.source.symm, htarget.trans he.target.symm,
      hsourceHandle.trans (filter_handle he.sourceHandle).symm,
      htargetHandle.trans (filter_handle he.targetHandle).symm, hothers⟩
  · exact ⟨.inl hid, hsource, htarget, handle_of_map hsourceHandle, handle_of_map htargetHandle,
      he.extra.trans hothers.symm⟩

end Edge

namespace Json

variable {depth : Nat} {v : Json}

/-- A node or an edge that was read is written with all members that it does not know as they were,
and what is written is read as it again. The data of a node needs a depth of three. -/
theorem Stored.resaves (hv : v.Stored depth) :
    (∀ n : Node, Node.read depth v.toDraft = .ok n → ∃ ms ws, v = .object ms ∧
      n.toJson.toDraft.keep (max depth 3) = .ok (.object ws) ∧ n.IsResaved ms ws ∧
        (n.kind.IsExact → Node.read (max depth 3) (Json.object ws).toDraft = .ok n)) ∧
      ∀ e : Edge, Edge.read depth v.toDraft = .ok e → ∃ ms ws, v = .object ms ∧
        e.toJson.toDraft.keep (max depth 3) = .ok (.object ws) ∧ Edge.IsResaved ms ws ∧
          Edge.read (max depth 3) (Json.object ws).toDraft = .ok e := by
  have hroom : v.Stored (max depth 3) := hv.mono v (le_max_left depth 3)
  have henter : enter (max depth 3) = .ok (max depth 3 - 1) := if_neg (by omega)
  have henter' : enter (max depth 3 - 1) = .ok (max depth 3 - 1 - 1) := if_neg (by omega)
  constructor
  · intro n hread
    rcases (Node.read_eq_ok hv).1 hread with ⟨ms, rfl, tag, data?, hn⟩
    rcases hn.exists_resaved (hroom.of_object henter) henter henter' with
      ⟨ws, hkeep, hws, hresaved, hsame⟩
    refine ⟨ms, ws, rfl, hkeep, hresaved, fun hexact => ?_⟩
    exact (Node.read_eq_ok (.object henter hws)).2 (hsame hexact)
  · intro e hread
    rcases (Edge.read_eq_ok hv).1 hread with ⟨ms, rfl, he⟩
    rcases he.exists_resaved (hroom.of_object henter) henter with
      ⟨ws, hkeep, hws, hresaved, hsame⟩
    exact ⟨ms, ws, rfl, hkeep, hresaved, (Edge.read_eq_ok (.object henter hws)).2 hsame⟩

def retagged : Members :=
  [("data", .object [("isDarken", .bool false), ("isDivide", .string "maybe"),
      ("value", .array [.object [("color", .null)]])]),
    ("id", .string "d"), ("position", .object [("x", .number (.int 4))]),
    ("type", .string "darken")]

def unlabelled : Members :=
  [("animated", .bool true), ("source", .string "d"), ("sourceHandle", .null),
    ("target", .string "o"), ("targetHandle", .string "in-1")]

theorem resaves_retagged_unlabelled :
    (∃ n ws, Node.read 6 (Json.object retagged).toDraft = .ok n ∧ n.kind.tag = "lighten" ∧
      n.toJson.toDraft.keep 6 = .ok (.object ws) ∧ n.IsResaved retagged ws ∧
        Node.read 6 (Json.object ws).toDraft = .ok n) ∧
      ∃ e ws, Edge.read 2 (Json.object unlabelled).toDraft = .ok e ∧
        e.toJson.toDraft.keep 3 = .ok (.object ws) ∧ Edge.IsResaved unlabelled ws ∧
          Edge.read 3 (Json.object ws).toDraft = .ok e := by
  have hretagged : (Json.object retagged).Stored 6 := ⟨rfl, by
    simp [retagged, numbers, membersNumbers, itemsNumbers, Number.Fits]⟩
  have hunlabelled : (Json.object unlabelled).Stored 2 := ⟨rfl, by
    simp [unlabelled, numbers, membersNumbers]⟩
  have hnode : Node.read 6 (Json.object retagged).toDraft =
      .ok ⟨"d", .operation .lighten, [("isDivide", .string "maybe"),
        ("value", .array [.object [("color", .null)]])],
        [("position", .object [("x", .number (.int 4))])]⟩ := rfl
  have hedge : Edge.read 2 (Json.object unlabelled).toDraft =
      .ok ⟨"", "d", "o", none, some "in-1", [("animated", .bool true)]⟩ := rfl
  constructor
  · rcases hretagged.resaves.1 _ hnode with ⟨_, ws, ⟨⟩, hkeep, hresaved, hsame⟩
    exact ⟨_, ws, hnode, rfl, hkeep, hresaved, hsame trivial⟩
  · rcases hunlabelled.resaves.2 _ hedge with ⟨_, ws, ⟨⟩, hkeep, hresaved, hsame⟩
    exact ⟨_, ws, hedge, hkeep, hresaved, hsame⟩

end Json

end ColorGraph
