import ColorGraph.Proofs.JsonText
import ColorGraph.Proofs.OrderedMembers
/-!
JSON values as they are stored: members in the order of their keys, no deeper than a reader goes,
and whole numbers of 64 bits. Main statements: what a text is read as is stored so, and what is
stored so is read as itself.
-/

set_option autoImplicit false

namespace ColorGraph.Json

structure Stored (depth : Nat) (v : Json) : Prop where
  kept : v.toDraft.keep depth = .ok v
  fits : ∀ n ∈ v.numbers, n.Fits

structure Members.Stored (depth : Nat) (ms : Members) : Prop where
  ordered : ms.Ordered
  values : ∀ m ∈ ms, m.2.Stored depth

section

variable {depth inner : Nat} {v : Json} {vs : List Json} {ms acc : Members} {n : Number}

theorem mem_itemsNumbers : n ∈ itemsNumbers vs ↔ ∃ v ∈ vs, n ∈ v.numbers := by
  induction vs with
  | nil => simp [itemsNumbers]
  | cons v vs ih => simp [itemsNumbers, ih]

theorem mem_membersNumbers : n ∈ membersNumbers ms ↔ ∃ m ∈ ms, n ∈ m.2.numbers := by
  induction ms with
  | nil => simp [membersNumbers]
  | cons m ms ih => simp [membersNumbers, ih]

theorem keep_itemsDraft (h : ∀ v ∈ vs, v.toDraft.keep depth = .ok v) :
    (itemsDraft vs).keep depth = .ok vs := by
  induction vs with
  | nil => rfl
  | cons v vs ih =>
    rw [itemsDraft, DraftItems.keep, h v (.head _), ih fun w hw => h w (.tail _ hw)]
    rfl

theorem keep_membersDraft (h : ∀ m ∈ ms, m.2.toDraft.keep depth = .ok m.2) :
    (membersDraft ms).keep depth acc = .ok (acc.insertAll ms) := by
  induction ms generalizing acc with
  | nil => rfl
  | cons m ms ih =>
    rw [membersDraft, DraftMembers.keep, h m (.head _)]
    exact ih fun m' hm => h m' (.tail _ hm)

theorem Stored.array (henter : enter depth = .ok inner) (h : ∀ v ∈ vs, v.Stored inner) :
    (Json.array vs).Stored depth where
  kept := by
    rw [toDraft, Draft.keep, henter]
    change Json.array <$> (itemsDraft vs).keep inner = _
    rw [keep_itemsDraft fun v hv => (h v hv).kept]
    rfl
  fits n hn := by
    obtain ⟨v, hv, hn⟩ := mem_itemsNumbers.1 hn
    exact (h v hv).fits n hn

theorem Stored.object (henter : enter depth = .ok inner) (h : ms.Stored inner) :
    (Json.object ms).Stored depth where
  kept := by
    rw [toDraft, Draft.keep, henter]
    change Json.object <$> (membersDraft ms).keep inner [] = _
    rw [keep_membersDraft fun m hm => (h.values m hm).kept,
      Members.insertAll_nil_of_ordered h.ordered]
    rfl
  fits n hn := by
    obtain ⟨m, hm, hn⟩ := mem_membersNumbers.1 hn
    exact (h.values m hm).fits n hn

theorem Members.stored_nil : Members.Stored depth [] where
  ordered := List.Pairwise.nil
  values := List.forall_mem_nil _

theorem Members.Stored.insert (h : ms.Stored depth) (hv : v.Stored depth) (k : String) :
    Members.Stored depth (ms.insert k v) where
  ordered := h.ordered.insert k v
  values m hm := by
    obtain rfl | hm := Members.mem_insert hm
    · exact hv
    · exact h.values m hm

theorem Members.Stored.insertAll (h : ms.Stored depth) {ns : Members}
    (hns : ∀ m ∈ ns, m.2.Stored depth) : Members.Stored depth (ms.insertAll ns) :=
  List.foldlRecOn (motive := Members.Stored depth) ns _ h
    fun _ h m hm => h.insert (hns m hm) m.1

theorem exists_keep_object (henter : enter depth = .ok inner) (hms : ∀ m ∈ ms, m.2.Stored inner)
    (hkeys : (ms.map (·.1)).Nodup) :
    ∃ ws, (Json.object ms).toDraft.keep depth = .ok (.object ws) ∧ ws.Perm ms ∧
      Members.Stored inner ws := by
  refine ⟨Members.insertAll [] ms, ?_, Members.insertAll_perm hkeys,
    Members.stored_nil.insertAll hms⟩
  rw [toDraft, Draft.keep, henter]
  exact Except.map_eq_ok.2 ⟨_, keep_membersDraft fun m hm => (hms m hm).kept, rfl⟩

end

mutual

def Draft.numbers : Draft → List Number
  | .number (some n) => [n]
  | .list items => items.numbers
  | .object members => members.numbers
  | _ => []

def DraftItems.numbers : DraftItems → List Number
  | .done => []
  | .item value rest => value.numbers ++ rest.numbers
  | .broken _ => []

def DraftMembers.numbers : DraftMembers → List Number
  | .done => []
  | .member _ value rest => value.numbers ++ rest.numbers
  | .broken _ => []

end

mutual

theorem numbers_toDraft : (v : Json) → v.toDraft.numbers = v.numbers
  | .null | .bool _ | .number _ | .string _ => rfl
  | .array items => numbers_itemsDraft items
  | .object members => numbers_membersDraft members

theorem numbers_itemsDraft : (vs : List Json) → (itemsDraft vs).numbers = itemsNumbers vs
  | [] => rfl
  | v :: vs => by
    rw [itemsDraft, DraftItems.numbers, numbers_toDraft v, numbers_itemsDraft vs, itemsNumbers]

theorem numbers_membersDraft : (ms : Members) → (membersDraft ms).numbers = membersNumbers ms
  | [] => rfl
  | (_, v) :: ms => by
    rw [membersDraft, DraftMembers.numbers, numbers_toDraft v, numbers_membersDraft ms,
      membersNumbers]

end

mutual

theorem stored_of_keep {depth : Nat} : (d : Draft) → (∀ n ∈ d.numbers, n.Fits) → {v : Json} →
    d.keep depth = .ok v → v.Stored depth
  | .null, _, _, h => by
    cases h
    exact ⟨rfl, List.forall_mem_nil _⟩
  | .bool b, _, _, h => by
    cases h
    exact ⟨rfl, List.forall_mem_nil _⟩
  | .number none, _, _, h => by cases h
  | .number (some n), hfits, _, h => by
    cases h
    exact ⟨rfl, hfits⟩
  | .string s, _, _, h => by
    obtain ⟨s, _, rfl⟩ := Except.map_eq_ok.1 h
    exact ⟨rfl, List.forall_mem_nil _⟩
  | .list items, hfits, _, h => by
    obtain ⟨inner, henter, h⟩ := Except.bind_eq_ok.1 h
    obtain ⟨vs, hvs, rfl⟩ := Except.map_eq_ok.1 h
    exact .array henter (stored_of_keepItems items hfits hvs)
  | .object members, hfits, _, h => by
    obtain ⟨inner, henter, h⟩ := Except.bind_eq_ok.1 h
    obtain ⟨ms, hms, rfl⟩ := Except.map_eq_ok.1 h
    exact .object henter (stored_of_keepMembers members hfits Members.stored_nil hms)
  | .misspelt _, _, _, h => by cases h
  | .broken _, _, _, h => by cases h

theorem stored_of_keepItems {depth : Nat} : (items : DraftItems) → (∀ n ∈ items.numbers, n.Fits) →
    {vs : List Json} → items.keep depth = .ok vs → ∀ v ∈ vs, v.Stored depth
  | .done, _, _, h => by
    cases h
    exact List.forall_mem_nil _
  | .item value rest, hfits, _, h => by
    obtain ⟨v, hv, h⟩ := Except.bind_eq_ok.1 h
    obtain ⟨vs, hvs, h⟩ := Except.bind_eq_ok.1 h
    cases h
    have hvalue := stored_of_keep value (fun n hn => hfits n (List.mem_append_left _ hn)) hv
    have hrest := stored_of_keepItems rest (fun n hn => hfits n (List.mem_append_right _ hn)) hvs
    exact List.forall_mem_cons.2 ⟨hvalue, hrest⟩
  | .broken _, _, _, h => by cases h

theorem stored_of_keepMembers {depth : Nat} : (members : DraftMembers) →
    (∀ n ∈ members.numbers, n.Fits) → {acc ms : Members} → acc.Stored depth →
      members.keep depth acc = .ok ms → ms.Stored depth
  | .done, _, _, _, hacc, h => by
    cases h
    exact hacc
  | .member key value rest, hfits, _, _, hacc, h => by
    obtain ⟨k, _, h⟩ := Except.bind_eq_ok.1 h
    obtain ⟨v, hv, h⟩ := Except.bind_eq_ok.1 h
    have hvalue := stored_of_keep value (fun n hn => hfits n (List.mem_append_left _ hn)) hv
    exact stored_of_keepMembers rest (fun n hn => hfits n (List.mem_append_right _ hn))
      (hacc.insert hvalue k) h
  | .broken _, _, _, _, _, h => by cases h

end

section

variable {depth inner : Nat} (henter : enter depth = .ok inner)
include henter

theorem Stored.of_array {vs : List Json} (h : (Json.array vs).Stored depth) :
    ∀ v ∈ vs, v.Stored inner := by
  obtain ⟨inner', henter', hkept⟩ := Except.bind_eq_ok.1 h.kept
  cases henter.symm.trans henter'
  obtain ⟨_, hvs, heq⟩ := Except.map_eq_ok.1 hkept
  cases heq
  exact stored_of_keepItems _ (numbers_itemsDraft vs ▸ h.fits) hvs

theorem Stored.of_object {ms : Members} (h : (Json.object ms).Stored depth) : ms.Stored inner := by
  obtain ⟨inner', henter', hkept⟩ := Except.bind_eq_ok.1 h.kept
  cases henter.symm.trans henter'
  obtain ⟨_, hms, heq⟩ := Except.map_eq_ok.1 hkept
  cases heq
  exact stored_of_keepMembers _ (numbers_membersDraft ms ▸ h.fits) Members.stored_nil hms

end

theorem Stored.exists_of_object {depth : Nat} {ms : Members} (h : (Json.object ms).Stored depth) :
    ∃ inner, enter depth = .ok inner ∧ ms.Stored inner := by
  rcases Except.bind_eq_ok.1 h.kept with ⟨inner, henter, _⟩
  exact ⟨inner, henter, h.of_object henter⟩

theorem Stored.exists_of_array {depth : Nat} {vs : List Json} (h : (Json.array vs).Stored depth) :
    ∃ inner, enter depth = .ok inner ∧ ∀ v ∈ vs, v.Stored inner := by
  rcases Except.bind_eq_ok.1 h.kept with ⟨inner, henter, _⟩
  exact ⟨inner, henter, h.of_array henter⟩

theorem enter_mono {depth depth' inner : Nat} (h : enter depth = .ok inner)
    (hle : depth ≤ depth') : ∃ inner', enter depth' = .ok inner' ∧ inner ≤ inner' := by
  unfold enter at h ⊢
  split at h
  · cases h
  · cases h
    exact ⟨depth' - 1, if_neg (by omega), by omega⟩

mutual

theorem Stored.mono : (v : Json) → {depth depth' : Nat} → v.Stored depth → depth ≤ depth' →
    v.Stored depth'
  | .null, _, _, h, _ | .bool _, _, _, h, _ | .number _, _, _, h, _ | .string _, _, _, h, _ =>
    ⟨rfl, h.fits⟩
  | .array vs, _, _, h, hle => by
    rcases h.exists_of_array with ⟨inner, henter, hvs⟩
    rcases enter_mono henter hle with ⟨inner', henter', hle'⟩
    exact .array henter' (storedItems_mono vs hvs hle')
  | .object ms, _, _, h, hle => by
    rcases h.exists_of_object with ⟨inner, henter, hms⟩
    rcases enter_mono henter hle with ⟨inner', henter', hle'⟩
    exact .object henter' ⟨hms.ordered, storedMembers_mono ms hms.values hle'⟩

theorem storedItems_mono : (vs : List Json) → {depth depth' : Nat} → (∀ v ∈ vs, v.Stored depth) →
    depth ≤ depth' → ∀ v ∈ vs, v.Stored depth'
  | [], _, _, _, _ => List.forall_mem_nil _
  | v :: vs, _, _, h, hle => by
    rcases List.forall_mem_cons.1 h with ⟨hv, hvs⟩
    exact List.forall_mem_cons.2 ⟨hv.mono v hle, storedItems_mono vs hvs hle⟩

theorem storedMembers_mono : (ms : Members) → {depth depth' : Nat} →
    (∀ m ∈ ms, m.2.Stored depth) → depth ≤ depth' → ∀ m ∈ ms, m.2.Stored depth'
  | [], _, _, _, _ => List.forall_mem_nil _
  | (_, v) :: ms, _, _, h, hle => by
    rcases List.forall_mem_cons.1 h with ⟨hv, hms⟩
    exact List.forall_mem_cons.2 ⟨hv.mono v hle, storedMembers_mono ms hms hle⟩

end

namespace Reader

theorem numbers_word {v : Draft} (hv : v.numbers = []) (ws cs : List Char) :
    (word v ws cs).1.numbers = [] := by
  obtain h | ⟨fault, h⟩ := word_eq v ws cs
  · rw [h, hv]
  · rw [h]
    rfl

theorem fits_number {negative : Bool} {cs : List Char} {n : Number}
    (h : n ∈ (number negative cs).1.numbers) : n.Fits := by
  unfold number at h
  split at h
  next numeral rest _ =>
    dsimp only at h
    cases hvalue : numeral.value with
    | none =>
      rw [hvalue] at h
      cases h
    | some m =>
      rw [hvalue] at h
      obtain rfl := List.mem_singleton.1 h
      exact Numeral.fits_of_value hvalue
  · cases h

structure Fitting (fuel : Nat) : Prop where
  value : ∀ cs, ∀ n ∈ (value fuel cs).1.numbers, n.Fits
  items : ∀ first cs, ∀ n ∈ (items fuel first cs).1.numbers, n.Fits
  item : ∀ cs, ∀ n ∈ (item fuel cs).1.numbers, n.Fits
  members : ∀ first cs, ∀ n ∈ (members fuel first cs).1.numbers, n.Fits
  member : ∀ cs, ∀ n ∈ (member fuel cs).1.numbers, n.Fits

namespace Fitting

variable {fuel : Nat} {cs : List Char} {first : Bool} {n : Number}

theorem value_succ (h : Fitting fuel) (hn : n ∈ (Reader.value (fuel + 1) cs).1.numbers) :
    n.Fits := by
  rw [Reader.value] at hn
  split at hn
  · cases hn
  next c cs _ =>
    split at hn
    · rw [numbers_word rfl] at hn
      cases hn
    split at hn
    · rw [numbers_word rfl] at hn
      cases hn
    split at hn
    · rw [numbers_word rfl] at hn
      cases hn
    split at hn
    · exact fits_number hn
    split at hn
    · exact fits_number hn
    split at hn
    · unfold string at hn
      split at hn <;> cases hn
    split at hn
    · exact h.items true cs n hn
    split at hn
    · exact h.members true cs n hn
    · cases hn

theorem items_succ (h : Fitting fuel) (hn : n ∈ (Reader.items (fuel + 1) first cs).1.numbers) :
    n.Fits := by
  rw [Reader.items] at hn
  split at hn
  · cases hn
  split at hn
  · cases hn
  split at hn
  · exact h.item _ n hn
  split at hn
  · split at hn
    · cases hn
    split at hn
    · cases hn
    · exact h.item _ n hn
  · cases hn

theorem item_succ (h : Fitting fuel) (hn : n ∈ (Reader.item (fuel + 1) cs).1.numbers) :
    n.Fits := by
  have hfirst := h.value cs
  rw [Reader.item] at hn
  generalize Reader.value fuel cs = result at hn hfirst
  obtain ⟨v, _ | rest⟩ := result
  · rw [DraftItems.numbers, DraftItems.numbers, List.append_nil] at hn
    exact hfirst n hn
  · obtain hn | hn := List.mem_append.1 hn
    · exact hfirst n hn
    · exact h.items false rest n hn

theorem members_succ (h : Fitting fuel)
    (hn : n ∈ (Reader.members (fuel + 1) first cs).1.numbers) : n.Fits := by
  rw [Reader.members] at hn
  split at hn
  · cases hn
  split at hn
  · cases hn
  split at hn
  · exact h.member _ n hn
  split at hn
  · split at hn
    · cases hn
    split at hn
    · cases hn
    · exact h.member _ n hn
  · cases hn

theorem member_succ (h : Fitting fuel) (hn : n ∈ (Reader.member (fuel + 1) cs).1.numbers) :
    n.Fits := by
  cases cs with
  | nil => cases hn
  | cons c cs =>
    rw [Reader.member] at hn
    split at hn
    · split at hn
      · cases hn
      next key rest _ =>
        split at hn
        · cases hn
        next c rest _ =>
          split at hn
          · have hfirst := h.value rest
            generalize Reader.value fuel rest = result at hn hfirst
            obtain ⟨v, _ | rest⟩ := result
            · rw [DraftMembers.numbers, DraftMembers.numbers, List.append_nil] at hn
              exact hfirst n hn
            · obtain hn | hn := List.mem_append.1 hn
              · exact hfirst n hn
              · exact h.members false rest n hn
          · cases hn
    · cases hn

end Fitting

theorem fitting (fuel : Nat) : Fitting fuel := by
  induction fuel with
  | zero => constructor <;> intros <;> contradiction
  | succ fuel ih =>
    exact ⟨fun _ _ => ih.value_succ, fun _ _ _ => ih.items_succ, fun _ _ => ih.item_succ,
      fun _ _ _ => ih.members_succ, fun _ _ => ih.member_succ⟩

end Reader

theorem Draft.fits_ofText {text : String} {n : Number} (h : n ∈ (Draft.ofText text).1.numbers) :
    n.Fits := by
  have hread := (Reader.fitting (Reader.fuelFor text.toList)).value text.toList
  simp only [Draft.ofText] at h
  generalize Reader.value (Reader.fuelFor text.toList) text.toList = result at h hread
  obtain ⟨d, _ | rest⟩ := result
  · exact hread n h
  · exact hread n h

end ColorGraph.Json
