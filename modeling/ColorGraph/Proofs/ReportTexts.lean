import ColorGraph.Compile.ReportRecord
import ColorGraph.Proofs.JsonText
import ColorGraph.Proofs.RecordFields
/-!
Reports and options as JSON texts. Main statement: a report or a set of options is read back from
each text that is written for it, and options of which some members are left out take the defaults
for these.
-/

set_option autoImplicit false

namespace ColorGraph

namespace Json

variable {α : Type} {depth inner : Nat} {v : Json} {cs : List Char} {ms ns : Members}
  {keys : List String}

theorem readText_of_spells {read : Draft → Read α} {a : α} (h : Spells (.value v) cs)
    (hread : read v.toDraft = .ok a) : readText read (String.ofList cs) = .ok a := by
  rw [readText, Draft.ofText_of_spells h]
  show (read v.toDraft >>= fun a => pure a) = .ok a
  rw [hread]
  rfl

/-- A value without numbers is read from both of its texts. -/
theorem readText_text {read : Draft → Read α} {a : α} (hnumbers : v.numbers = [])
    (hread : read v.toDraft = .ok a) :
    readText read v.text = .ok a ∧ readText read v.prettyText = .ok a := by
  have hlegible : ∀ n ∈ v.numbers, n.Legible := by simp [hnumbers]
  exact ⟨readText_of_spells (spells_chars_of_legible hlegible) hread,
    readText_of_spells (spells_prettyChars_of_legible hlegible) hread⟩

theorem itemsNumbers_map {as : List α} {f : α → Json} (h : ∀ a ∈ as, (f a).numbers = []) :
    itemsNumbers (as.map f) = [] := by
  induction as with
  | nil => rfl
  | cons a as ih =>
    rw [List.map_cons, itemsNumbers, h a List.mem_cons_self,
      ih fun b hb => h b (List.mem_cons_of_mem a hb)]
    rfl

theorem membersNumbers_eq_nil (h : ∀ m ∈ ms, m.2.numbers = []) : membersNumbers ms = [] := by
  induction ms with
  | nil => rfl
  | cons m ms ih =>
    rw [membersNumbers, h m List.mem_cons_self, ih fun n hn => h n (List.mem_cons_of_mem m hn)]
    rfl

theorem readList_map (henter : enter depth = .ok inner) {read : Nat → Draft → Read α} {f : α → Json}
    {as : List α} (h : ∀ a, read inner (f a).toDraft = .ok a) :
    (Json.array (as.map f)).toDraft.readList depth read = .ok as := by
  refine (readList_toDraft henter).2 ⟨_, rfl, List.forall₂_map_left_iff.2 ?_⟩
  exact List.forall₂_same.2 fun a _ => h a

theorem Members.get?_of_subset (hsub : ms ⊆ ns) (hkeys : (ns.map (·.1)).Nodup) (k : String) :
    ms.get? k = if k ∈ ms.map (·.1) then ns.get? k else none := by
  by_cases hk : k ∈ ms.map (·.1)
  · obtain ⟨m, hm, rfl⟩ := List.mem_map.1 hk
    rw [if_pos hk]
    cases hget : ms.get? m.1 with
    | none =>
      have hfind := List.find?_eq_none.1 (Option.map_eq_none_iff.1 hget)
      exact absurd (beq_self_eq_true m.1) (hfind m hm)
    | some v => exact ((get?_eq_some_iff hkeys).2 (hsub (mem_of_get? hget))).symm
  · rw [if_neg hk, get?_eq_none_of_notMem hk]

theorem getD_if {p : Prop} [Decidable p] (a default : α) :
    (if p then some a else none).getD default = if p then a else default := by
  split <;> rfl

theorem mapM_if {p : Prop} [Decidable p] {f : Json → Read α} {a : α} (h : f v = .ok a) :
    (if p then some v else none).mapM f = .ok (if p then some a else none) := by
  split
  · change some <$> f v = _
    rw [h]
    rfl
  · rfl

end Json

open Json

namespace Css.Variable

theorem read_toJson (depth : Nat) (v : Variable) :
    read (depth + 2) v.toJson.toDraft = .ok v :=
  rfl

theorem numbers_toJson (v : Variable) : v.toJson.numbers = [] :=
  rfl

end Css.Variable

namespace Diagnostic

theorem keep_texts (depth : Nat) (texts : List String) :
    (itemsDraft (texts.map .string)).keep depth = .ok (texts.map .string) := by
  induction texts with
  | nil => rfl
  | cons t texts ih =>
    rw [List.map_cons, itemsDraft, DraftItems.keep, ih]
    rfl

theorem readMembers_outputs (depth : Nat) (outputs : List String) :
    readMembers (depth + 2) (membersDraft [("kind", .string "cyclicOutputs"),
        ("outputs", .array (outputs.map .string))]) none =
      .ok (some .cyclicOutputs, membersDraft [("outputs", .array (outputs.map .string))]) := by
  have hkeep : (Json.array (outputs.map .string)).toDraft.keep (depth + 2) =
      .ok (.array (outputs.map .string)) := by
    show Json.array <$> (itemsDraft (outputs.map .string)).keep (depth + 1) = _
    rw [keep_texts]
    rfl
  show (Flaw.lift ((Json.array (outputs.map .string)).toDraft.keep (depth + 2)) >>= fun _ =>
    pure (some Kind.cyclicOutputs, membersDraft [("outputs", .array (outputs.map .string))])) = _
  rw [hkeep]
  rfl

theorem read_toJson (depth : Nat) (d : Diagnostic) :
    read (depth + 3) d.toJson.toDraft = .ok d := by
  cases d with
  | cyclicOutputs outputs =>
    have hlist : (Json.array (outputs.map .string)).toDraft.readList (depth + 2)
        (fun _ => Draft.readString) = .ok outputs :=
      readList_map rfl fun s => readString_toDraft.2 rfl
    show (readMembers (depth + 2) _ none >>= _) = _
    rw [readMembers_outputs]
    show (((Json.array (outputs.map .string)).toDraft.readList (depth + 2)
      (fun _ => Draft.readString) >>= _) >>= _) >>= _ = _
    rw [hlist]
    rfl
  | _ => rfl

theorem numbers_toJson (d : Diagnostic) : d.toJson.numbers = [] := by
  cases d with
  | cyclicOutputs outputs =>
    show itemsNumbers (outputs.map .string) ++ [] = []
    rw [itemsNumbers_map fun _ _ => rfl, List.append_nil]
  | _ => rfl

end Diagnostic

namespace Compile

theorem Report.read_toJson (depth : Nat) (r : Report) :
    Report.read (depth + 5) r.toJson.toDraft = .ok r := by
  have hvariables : (Json.array (r.variables.map Css.Variable.toJson)).toDraft.readList (depth + 4)
      Css.Variable.read = .ok r.variables :=
    readList_map rfl fun v => v.read_toJson (depth + 1)
  have hdiagnostics : (Json.array (r.diagnostics.map Diagnostic.toJson)).toDraft.readList
      (depth + 4) Diagnostic.read = .ok r.diagnostics :=
    readList_map rfl fun d => d.read_toJson depth
  show (((Json.array (r.variables.map Css.Variable.toJson)).toDraft.readList (depth + 4)
    Css.Variable.read >>= _) >>= _) >>= _ = _
  rw [hvariables]
  show (((Json.array (r.diagnostics.map Diagnostic.toJson)).toDraft.readList (depth + 4)
    Diagnostic.read >>= _) >>= _) >>= _ = _
  rw [hdiagnostics]
  rfl

theorem Report.numbers_toJson (r : Report) : r.toJson.numbers = [] := by
  show itemsNumbers (r.variables.map Css.Variable.toJson) ++
    (itemsNumbers (r.diagnostics.map Diagnostic.toJson) ++ []) = []
  rw [itemsNumbers_map fun v _ => v.numbers_toJson, itemsNumbers_map fun d _ => d.numbers_toJson]
  rfl

namespace Options

def members (o : Options) : Members :=
  [("selector", .string o.selector), ("slotOrder", .string o.slotOrder.name),
    ("reuseBindings", .bool o.reuseBindings), ("normalizeNames", .bool o.normalizeNames)]

theorem nodup_keys (o : Options) : (o.members.map (·.1)).Nodup := by
  show ["selector", "slotOrder", "reuseBindings", "normalizeNames"].Nodup
  decide

def keeping (o : Options) (keys : List String) : Options :=
  let d : Options := {}
  { selector := if "selector" ∈ keys then o.selector else d.selector
    slotOrder := if "slotOrder" ∈ keys then o.slotOrder else d.slotOrder
    reuseBindings := if "reuseBindings" ∈ keys then o.reuseBindings else d.reuseBindings
    normalizeNames := if "normalizeNames" ∈ keys then o.normalizeNames else d.normalizeNames }

theorem record_isOrderless : record.IsOrderless :=
  Record.isOrderless_of_ignored rfl (by simp [record])

theorem readFields (inner : Nat) (ms : Members) :
    record.fields.foldlM (Field.readNamed inner ms) {} = (do
      let selector ← (ms.get? "selector").mapM fun v => v.toDraft.readString
      let slotOrder ← (ms.get? "slotOrder").mapM fun v => SlotOrder.read v.toDraft
      let reuseBindings ← (ms.get? "reuseBindings").mapM fun v => v.toDraft.readBool
      let normalizeNames ← (ms.get? "normalizeNames").mapM fun v => v.toDraft.readBool
      pure ⟨selector, slotOrder, reuseBindings, normalizeNames⟩) := by
  refine (Field.foldlM_readNamed_of (Given.mk · none none none) rfl).trans
    (bind_congr fun selector => ?_)
  refine (Field.foldlM_readNamed_of (Given.mk selector · none none) rfl).trans
    (bind_congr fun slotOrder => ?_)
  refine (Field.foldlM_readNamed_of (Given.mk selector slotOrder · none) rfl).trans
    (bind_congr fun reuseBindings => ?_)
  refine (Field.foldlM_readNamed_of (Given.mk selector slotOrder reuseBindings ·) rfl).trans
    (bind_congr fun normalizeNames => rfl)

variable {o : Options} {ms : Members}

theorem read_of_subset (hsub : ms ⊆ o.members) (hms : ms.Nodup) :
    read maxDepth (Json.object ms).toDraft = .ok (o.keeping (ms.map (·.1))) := by
  have hwritten := o.nodup_keys
  have hkeys : (ms.map (·.1)).Nodup :=
    hms.map_on fun m hm n hn heq => List.inj_on_of_nodup_map hwritten (hsub hm) (hsub hn) heq
  have hget : ∀ k, ms.get? k = if k ∈ ms.map (·.1) then o.members.get? k else none :=
    Members.get?_of_subset hsub hwritten
  have hselector : o.members.get? "selector" = some (.string o.selector) := rfl
  have hslotOrder : o.members.get? "slotOrder" = some (.string o.slotOrder.name) := rfl
  have hreuse : o.members.get? "reuseBindings" = some (.bool o.reuseBindings) := rfl
  have hnormalize : o.members.get? "normalizeNames" = some (.bool o.normalizeNames) := rfl
  have horder : SlotOrder.read (Json.string o.slotOrder.name).toDraft = .ok o.slotOrder := by
    cases o.slotOrder <;> rfl
  have hrest : ∀ m ∈ ms.without (record.fields.map (·.name)),
      m.1 ∉ record.fields.map (·.name) := fun m hm => (Members.mem_without.1 hm).2
  have hread : record.readMembers (maxDepth - 1) (membersDraft ms) {} =
      .ok ⟨if "selector" ∈ ms.map (·.1) then some o.selector else none,
        if "slotOrder" ∈ ms.map (·.1) then some o.slotOrder else none,
        if "reuseBindings" ∈ ms.map (·.1) then some o.reuseBindings else none,
        if "normalizeNames" ∈ ms.map (·.1) then some o.normalizeNames else none⟩ := by
    refine (record_isOrderless.readMembers_iff (by decide) hkeys).2
      ⟨_, ?_, Record.readMembers_ignored (by decide) rfl hrest _⟩
    rw [readFields]
    simp only [hget, hselector, hslotOrder, hreuse, hnormalize]
    rw [mapM_if (f := fun v => v.toDraft.readString) rfl,
      mapM_if (f := fun v => SlotOrder.read v.toDraft) horder,
      mapM_if (f := fun v => v.toDraft.readBool) rfl,
      mapM_if (f := fun v => v.toDraft.readBool) rfl]
    rfl
  show Given.options <$> record.readMembers (maxDepth - 1) (membersDraft ms) {} = _
  rw [hread]
  show Except.ok (Given.options _) = _
  simp only [Given.options, keeping, getD_if]

theorem numbers_of_subset (hsub : ms ⊆ o.members) : (Json.object ms).numbers = [] := by
  have hwritten : ∀ m ∈ o.members, m.2.numbers = [] := by simp [members, numbers]
  exact membersNumbers_eq_nil fun m hm => hwritten m (hsub hm)

theorem keeping_members (o : Options) : o.keeping (o.members.map (·.1)) = o :=
  rfl

theorem read_toJson (o : Options) : read maxDepth o.toJson.toDraft = .ok o := by
  exact (read_of_subset (List.Subset.refl _) o.nodup_keys.of_map).trans
    (congrArg _ o.keeping_members)

end Options

/-- Reading takes back what was written, from each of the texts that are written. Options of which
only some members are given, in any order and with any white space, are those and the defaults. -/
theorem texts_survive :
    (∀ r : Report, readText (Report.read maxDepth) r.toJson.text = .ok r ∧
      readText (Report.read maxDepth) r.toJson.prettyText = .ok r) ∧
    (∀ o : Options, o.toJson = .object o.members ∧ Options.ofText o.toJson.text = .ok o ∧
      Options.ofText o.toJson.prettyText = .ok o) ∧
    ∀ (o : Options) (ms : Members), ms ⊆ o.members → ms.Nodup →
      Options.ofText (Json.object ms).text = .ok (o.keeping (ms.map (·.1))) ∧
        ∀ cs, Spells (.value (.object ms)) cs →
          Options.ofText (String.ofList cs) = .ok (o.keeping (ms.map (·.1))) := by
  refine ⟨fun r => readText_text r.numbers_toJson (r.read_toJson 123), fun o => ?_,
    fun o ms hsub hms => ⟨?_, fun cs hcs => ?_⟩⟩
  · have hnumbers := Options.numbers_of_subset (List.Subset.refl o.members)
    exact ⟨rfl, readText_text hnumbers o.read_toJson⟩
  · exact (readText_text (Options.numbers_of_subset hsub) (Options.read_of_subset hsub hms)).1
  · exact readText_of_spells hcs (Options.read_of_subset hsub hms)

def quotedReport : Report where
  «variables» := [⟨"--\"a\"", "\x07\\"⟩]
  diagnostics := [.missingNode "" "a\nb", .unnamedNode "", .disconnectedOutput "\u2028",
    .cyclicOutputs ["𝄞", "\""], .cyclicInput "\t"]

theorem texts_survive_quoted :
    let o : Options := { selector := "\"x\"", slotOrder := .numeric, reuseBindings := false }
    let ms : Members := [("reuseBindings", .bool false), ("selector", .string "\"x\"")]
    (readText (Report.read maxDepth) quotedReport.toJson.text = .ok quotedReport ∧
      readText (Report.read maxDepth) quotedReport.toJson.prettyText = .ok quotedReport) ∧
    Options.ofText o.toJson.prettyText = .ok o ∧
    ms ⊆ o.members ∧ ms.Nodup ∧
    (Json.object ms).text = "\x7b\"reuseBindings\":false,\"selector\":\"\\\"x\\\"\"\x7d" ∧
    Options.ofText (Json.object ms).text =
      .ok { selector := "\"x\"", reuseBindings := false } := by
  intro o ms
  have hsub : ms ⊆ o.members := by simp [ms, o, Options.members]
  have hkeys : (ms.map (·.1)).Nodup := by
    show ["reuseBindings", "selector"].Nodup
    decide
  obtain ⟨hreports, hoptions, hsome⟩ := texts_survive
  exact ⟨hreports quotedReport, (hoptions o).2.2, hsub, hkeys.of_map, by decide,
    (hsome o ms hsub hkeys.of_map).1⟩

end Compile
end ColorGraph
