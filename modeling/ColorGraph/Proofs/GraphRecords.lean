import ColorGraph.Proofs.RecordFields
/-!
What nodes, edges and documents are read as. Main statements: an object is read as a node, an edge
or a document exactly when its members stand for it, each part for the member with its name.
-/

set_option autoImplicit false

namespace ColorGraph

namespace Node

open Json

variable {depth inner : Nat} {ms : Members} {p : Parts}

theorem readFields (inner : Nat) (ms : Members) :
    record.fields.foldlM (Field.readNamed inner ms) {} = (do
      let id ← (ms.get? "id").mapM fun v => v.toDraft.readString
      let type ← (ms.get? "type").mapM fun v => v.toDraft.readString
      let data ← (ms.get? "data").mapM fun v => v.toDraft.readMap inner
      pure ⟨id, type, data, []⟩) := by
  refine (Field.foldlM_readNamed_of (Parts.mk · none none []) rfl).trans (bind_congr fun id => ?_)
  refine (Field.foldlM_readNamed_of (Parts.mk id · none []) rfl).trans (bind_congr fun type => ?_)
  refine (Field.foldlM_readNamed_of (Parts.mk id type · []) rfl).trans (bind_congr fun data => rfl)

theorem readMembers_eq_ok (h : ms.Stored inner) :
    record.readMembers inner (membersDraft ms) {} = .ok p ↔
      ms.get? "id" = p.id.map .string ∧ ms.get? "type" = p.type.map .string ∧
        ms.get? "data" = p.data.map .object ∧ p.editor = ms.without ["id", "type", "data"] := by
  have hdata : ∀ v ∈ ms.get? "data", ∀ data, v.toDraft.readMap inner = .ok data ↔
      v = .object data := by
    intro v hv data
    rw [Draft.readMap_eq_ok, (h.values _ (Members.mem_of_get? hv)).kept, Except.ok.injEq]
  rw [record_isOrderless.readMembers_iff (by decide) h.ordered.nodup_keys, readFields]
  simp only [Except.bind_eq_ok, mapM_eq_ok fun _ _ _ => readString_toDraft, mapM_eq_ok hdata]
  constructor
  · rintro ⟨_, ⟨id, hid, type, htype, data, hdata, ⟨⟩⟩, hothers⟩
    cases (Record.readMembers_without (Parts.mk id type data) rfl (fun _ _ _ => rfl)
      h).symm.trans hothers
    exact ⟨hid, htype, hdata, rfl⟩
  · obtain ⟨id, type, data, editor⟩ := p
    rintro ⟨hid, htype, hdata, rfl⟩
    exact ⟨_, ⟨id, hid, type, htype, data, hdata, rfl⟩,
      Record.readMembers_without (Parts.mk id type data) rfl (fun _ _ _ => rfl) h⟩

structure StandsIn (ms : Members) (tag : String) (data? : Option Members) (n : Node) : Prop where
  id : ms.get? "id" = some (.string n.id)
  type : ms.get? "type" = some (.string tag)
  data : ms.get? "data" = data?.map .object
  kind : Kind.ofData? tag (data?.getD []) = some n.kind
  extraData : n.extraData = (data?.getD []).without n.kind.dataKeys
  editor : n.editor = ms.without ["id", "type", "data"]

theorem ofParts_eq_ok {n : Node} :
    ofParts p = .ok n ↔ p.id = some n.id ∧ ∃ tag, p.type = some tag ∧
      Kind.ofData? tag (p.data.getD []) = some n.kind ∧
        n.extraData = (p.data.getD []).without n.kind.dataKeys ∧ n.editor = p.editor := by
  simp only [ofParts, Except.bind_eq_ok, required_eq_ok]
  constructor
  · rintro ⟨id, hid, tag, htag, h⟩
    split at h
    · cases h
    next kind hkind =>
      cases h
      exact ⟨hid, tag, htag, hkind, rfl, rfl⟩
  · obtain ⟨id, kind, extraData, editor⟩ := n
    rintro ⟨hid, tag, htag, hkind, hextra, heditor⟩
    dsimp only at hkind hextra heditor
    subst hextra heditor
    refine ⟨id, hid, tag, htag, ?_⟩
    rw [hkind]
    rfl

def IsOf (v : Json) (n : Node) : Prop :=
  ∃ ms, v = .object ms ∧ ∃ tag data?, n.StandsIn ms tag data?

theorem read_eq_ok {v : Json} (h : v.Stored depth) {n : Node} :
    read depth v.toDraft = .ok n ↔ n.IsOf v := by
  simp only [read, Except.bind_eq_ok, Record.read_eq_ok (r := record) rfl, ofParts_eq_ok]
  constructor
  · rintro ⟨p, ⟨ms, inner, rfl, henter, hp⟩, hid, tag, htag, hkind, hextra, heditor⟩
    have hms := (readMembers_eq_ok (h.of_object henter)).1 hp
    rw [hid, htag] at hms
    exact ⟨ms, rfl, tag, p.data, hms.1, hms.2.1, hms.2.2.1, hkind, hextra,
      heditor.trans hms.2.2.2⟩
  · rintro ⟨ms, rfl, tag, data?, hn⟩
    obtain ⟨inner, henter, hstored⟩ := h.exists_of_object
    have hms := (readMembers_eq_ok (p := ⟨some n.id, some tag, data?, n.editor⟩) hstored).2
      ⟨hn.id, hn.type, hn.data, hn.editor⟩
    exact ⟨_, ⟨ms, inner, rfl, henter, hms⟩, rfl, tag, rfl, hn.kind, hn.extraData, rfl⟩

end Node

namespace Edge

open Json

variable {depth inner : Nat} {ms : Members} {p : Parts}

theorem readFields (inner : Nat) (ms : Members) :
    record.fields.foldlM (Field.readNamed inner ms) {} = (do
      let id ← (ms.get? "id").mapM fun v => v.toDraft.readString
      let source ← (ms.get? "source").mapM fun v => v.toDraft.readString
      let target ← (ms.get? "target").mapM fun v => v.toDraft.readString
      let sourceHandle ← (ms.get? "sourceHandle").mapM fun v =>
        v.toDraft.readOptional Draft.readString
      let targetHandle ← (ms.get? "targetHandle").mapM fun v =>
        v.toDraft.readOptional Draft.readString
      pure ⟨id, source, target, sourceHandle, targetHandle, []⟩) := by
  refine (Field.foldlM_readNamed_of (Parts.mk · none none none none []) rfl).trans
    (bind_congr fun id => ?_)
  refine (Field.foldlM_readNamed_of (Parts.mk id · none none none []) rfl).trans
    (bind_congr fun source => ?_)
  refine (Field.foldlM_readNamed_of (Parts.mk id source · none none []) rfl).trans
    (bind_congr fun target => ?_)
  refine (Field.foldlM_readNamed_of (Parts.mk id source target · none []) rfl).trans
    (bind_congr fun sourceHandle => ?_)
  refine (Field.foldlM_readNamed_of (Parts.mk id source target sourceHandle · []) rfl).trans
    (bind_congr fun targetHandle => rfl)

theorem readMembers_eq_ok (h : ms.Stored inner) :
    record.readMembers inner (membersDraft ms) {} = .ok p ↔
      ms.get? "id" = p.id.map .string ∧ ms.get? "source" = p.source.map .string ∧
        ms.get? "target" = p.target.map .string ∧
        ms.get? "sourceHandle" = p.sourceHandle.map ofString? ∧
        ms.get? "targetHandle" = p.targetHandle.map ofString? ∧
        p.extra = ms.without ["id", "source", "target", "sourceHandle", "targetHandle"] := by
  rw [record_isOrderless.readMembers_iff (by decide) h.ordered.nodup_keys, readFields]
  simp only [Except.bind_eq_ok, mapM_eq_ok fun _ _ _ => readString_toDraft,
    mapM_eq_ok fun _ _ _ => readOptional_toDraft]
  constructor
  · rintro ⟨_, ⟨id, hid, source, hsource, target, htarget, sourceHandle, hsourceHandle,
      targetHandle, htargetHandle, ⟨⟩⟩, hothers⟩
    cases (Record.readMembers_without (Parts.mk id source target sourceHandle targetHandle) rfl
      (fun _ _ _ => rfl) h).symm.trans hothers
    exact ⟨hid, hsource, htarget, hsourceHandle, htargetHandle, rfl⟩
  · obtain ⟨id, source, target, sourceHandle, targetHandle, extra⟩ := p
    rintro ⟨hid, hsource, htarget, hsourceHandle, htargetHandle, rfl⟩
    exact ⟨_, ⟨id, hid, source, hsource, target, htarget, sourceHandle, hsourceHandle,
      targetHandle, htargetHandle, rfl⟩, Record.readMembers_without
      (Parts.mk id source target sourceHandle targetHandle) rfl (fun _ _ _ => rfl) h⟩

structure StandsIn (ms : Members) (e : Edge) : Prop where
  id : ms.get? "id" = some (.string e.id) ∨ ms.get? "id" = none ∧ e.id = ""
  source : ms.get? "source" = some (.string e.source)
  target : ms.get? "target" = some (.string e.target)
  sourceHandle : ms.get? "sourceHandle" = some (ofString? e.sourceHandle) ∨
    ms.get? "sourceHandle" = none ∧ e.sourceHandle = none
  targetHandle : ms.get? "targetHandle" = some (ofString? e.targetHandle) ∨
    ms.get? "targetHandle" = none ∧ e.targetHandle = none
  extra : e.extra = ms.without ["id", "source", "target", "sourceHandle", "targetHandle"]

theorem ofParts_eq_ok {e : Edge} :
    ofParts p = .ok e ↔ p.source = some e.source ∧ p.target = some e.target ∧
      e.id = p.id.getD "" ∧ e.sourceHandle = p.sourceHandle.getD none ∧
        e.targetHandle = p.targetHandle.getD none ∧ e.extra = p.extra := by
  have hjoin : ∀ h : Option (Option String), h.join = h.getD none := by
    rintro (_ | _) <;> rfl
  simp only [ofParts, Except.bind_eq_ok, required_eq_ok, hjoin]
  constructor
  · rintro ⟨source, hsource, target, htarget, ⟨⟩⟩
    exact ⟨hsource, htarget, rfl, rfl, rfl, rfl⟩
  · obtain ⟨id, source, target, sourceHandle, targetHandle, extra⟩ := e
    rintro ⟨hsource, htarget, hid, hsourceHandle, htargetHandle, hextra⟩
    dsimp only at hid hsourceHandle htargetHandle hextra
    subst hid hsourceHandle htargetHandle hextra
    exact ⟨source, hsource, target, htarget, rfl⟩

def IsOf (v : Json) (e : Edge) : Prop :=
  ∃ ms, v = .object ms ∧ e.StandsIn ms

theorem read_eq_ok {v : Json} (h : v.Stored depth) {e : Edge} :
    read depth v.toDraft = .ok e ↔ e.IsOf v := by
  simp only [read, Except.bind_eq_ok, Record.read_eq_ok (r := record) rfl, ofParts_eq_ok]
  constructor
  · rintro ⟨p, ⟨ms, inner, rfl, henter, hp⟩, hsource, htarget, hid, hsourceHandle,
      htargetHandle, hextra⟩
    have hms := (readMembers_eq_ok (h.of_object henter)).1 hp
    rw [hsource, htarget] at hms
    obtain ⟨hid', hsource', htarget', hsourceHandle', htargetHandle', hextra'⟩ := hms
    exact ⟨ms, rfl, exists_eq_map_iff.1 ⟨_, hid', hid⟩, hsource', htarget',
      exists_eq_map_iff.1 ⟨_, hsourceHandle', hsourceHandle⟩,
      exists_eq_map_iff.1 ⟨_, htargetHandle', htargetHandle⟩, hextra.trans hextra'⟩
  · rintro ⟨ms, rfl, he⟩
    obtain ⟨inner, henter, hstored⟩ := h.exists_of_object
    obtain ⟨id, hid', hid⟩ := exists_eq_map_iff.2 he.id
    obtain ⟨sourceHandle, hsourceHandle', hsourceHandle⟩ := exists_eq_map_iff.2 he.sourceHandle
    obtain ⟨targetHandle, htargetHandle', htargetHandle⟩ := exists_eq_map_iff.2 he.targetHandle
    have hms := (readMembers_eq_ok hstored
      (p := ⟨id, some e.source, some e.target, sourceHandle, targetHandle, e.extra⟩)).2
      ⟨hid', he.source, he.target, hsourceHandle', htargetHandle', he.extra⟩
    exact ⟨_, ⟨ms, inner, rfl, henter, hms⟩, rfl, rfl, hid, hsourceHandle, htargetHandle, rfl⟩

end Edge

namespace Document

open Json

variable {ms : Members}

theorem readFields (inner : Nat) (ms : Members) :
    record.fields.foldlM (Field.readNamed inner ms) {} = (do
      let nodes ← (ms.get? "nodes").mapM fun v => v.toDraft.readList inner Node.read
      let edges ← (ms.get? "edges").mapM fun v => v.toDraft.readList inner Edge.read
      let version ← (ms.get? "version").mapM fun v => v.toDraft.readString
      let exportedAt ← (ms.get? "exportedAt").mapM fun v => v.toDraft.readString
      pure ⟨nodes, edges, version, exportedAt⟩) := by
  refine (Field.foldlM_readNamed_of (Parts.mk · none none none) rfl).trans
    (bind_congr fun nodes => ?_)
  refine (Field.foldlM_readNamed_of (Parts.mk nodes · none none) rfl).trans
    (bind_congr fun edges => ?_)
  refine (Field.foldlM_readNamed_of (Parts.mk nodes edges · none) rfl).trans
    (bind_congr fun version => ?_)
  refine (Field.foldlM_readNamed_of (Parts.mk nodes edges version ·) rfl).trans
    (bind_congr fun exportedAt => rfl)

structure StandsIn (ms : Members) (d : Document) : Prop where
  nodes : ∃ vs, ms.get? "nodes" = some (.array vs) ∧ List.Forall₂ Node.IsOf vs d.nodes
  edges : ∃ vs, ms.get? "edges" = some (.array vs) ∧ List.Forall₂ Edge.IsOf vs d.edges
  version : ms.get? "version" = some (.string d.version) ∨
    ms.get? "version" = none ∧ d.version = ""
  exportedAt : ms.get? "exportedAt" = some (.string d.exportedAt) ∨
    ms.get? "exportedAt" = none ∧ d.exportedAt = ""

theorem mapM_readList_eq_ok {α : Type} {read : Nat → Draft → Read α} {IsOf : Json → α → Prop}
    (h : ms.Stored (maxDepth - 1))
    (hread : ∀ v : Json, v.Stored Node.depth →
      ∀ a, read Node.depth v.toDraft = .ok a ↔ IsOf v a) {key : String} {as : List α} :
    (ms.get? key).mapM (fun v => v.toDraft.readList (maxDepth - 1) read) = .ok (some as) ↔
      ∃ vs, ms.get? key = some (.array vs) ∧ List.Forall₂ IsOf vs as := by
  simp only [mapM_eq_ok_some, readList_toDraft Node.enter_lists]
  constructor
  · rintro ⟨_, hkey, vs, rfl, has⟩
    have hvs := (h.values _ (Members.mem_of_get? hkey)).of_array Node.enter_lists
    exact ⟨vs, hkey, (forall₂_congr_left fun v hv => hread v (hvs v hv)).1 has⟩
  · rintro ⟨vs, hkey, has⟩
    have hvs := (h.values _ (Members.mem_of_get? hkey)).of_array Node.enter_lists
    exact ⟨_, hkey, vs, rfl, (forall₂_congr_left fun v hv => hread v (hvs v hv)).2 has⟩

theorem read_eq_ok (h : ms.Stored (maxDepth - 1)) {d : Document} :
    read maxDepth (Json.object ms).toDraft = .ok d ↔ d.StandsIn ms := by
  have hread : ∀ p, record.read maxDepth {} (Json.object ms).toDraft = .ok p ↔
      record.fields.foldlM (Field.readNamed (maxDepth - 1) ms) {} = .ok p := by
    intro p
    change record.readMembers (maxDepth - 1) (membersDraft ms) {} = .ok p ↔ _
    have hnames : (record.fields.map (·.name)).Nodup := by decide
    rw [record_isOrderless.readMembers_iff hnames h.ordered.nodup_keys]
    simp [Record.readMembers_ignored hnames rfl fun m hm => (Members.mem_without.1 hm).2]
  simp only [read, Except.bind_eq_ok, hread, required_eq_ok, readFields,
    mapM_eq_ok fun _ _ _ => readString_toDraft]
  constructor
  · rintro ⟨_, ⟨nodes, hnodes, edges, hedges, version, hversion, exportedAt, hexportedAt, ⟨⟩⟩,
      ns, rfl, es, rfl, ⟨⟩⟩
    exact ⟨(mapM_readList_eq_ok h fun _ hv _ => Node.read_eq_ok hv).1 hnodes,
      (mapM_readList_eq_ok h fun _ hv _ => Edge.read_eq_ok hv).1 hedges,
      exists_eq_map_iff.1 ⟨version, hversion, rfl⟩,
      exists_eq_map_iff.1 ⟨exportedAt, hexportedAt, rfl⟩⟩
  · obtain ⟨ns, es, _, _⟩ := d
    intro hd
    obtain ⟨version, hversion, rfl⟩ := exists_eq_map_iff.2 hd.version
    obtain ⟨exportedAt, hexportedAt, rfl⟩ := exists_eq_map_iff.2 hd.exportedAt
    have hnodes := (mapM_readList_eq_ok h fun _ hv _ => Node.read_eq_ok hv).2 hd.nodes
    have hedges := (mapM_readList_eq_ok h fun _ hv _ => Edge.read_eq_ok hv).2 hd.edges
    exact ⟨_, ⟨some ns, hnodes, some es, hedges, version, hversion, exportedAt, hexportedAt, rfl⟩,
      ns, rfl, es, rfl, rfl⟩

end Document
end ColorGraph
