import ColorGraph.Proofs.ReadBack
import ColorGraph.Proofs.Traversals
/-!
Records read by the names of their fields. Main statement: a record is read from its members as its
fields are, one after the other, from the members with their names.
-/

set_option autoImplicit false

namespace ColorGraph

namespace Json

mutual

theorem skip_toDraft : (v : Json) → v.toDraft.skip = .ok ()
  | .null | .bool _ | .number _ | .string _ => rfl
  | .array items => skip_itemsDraft items
  | .object members => skip_membersDraft members

theorem skip_itemsDraft : (vs : List Json) → (itemsDraft vs).skip = .ok ()
  | [] => rfl
  | v :: vs => by
    rw [itemsDraft, DraftItems.skip, skip_toDraft v]
    exact skip_itemsDraft vs

theorem skip_membersDraft : (ms : Members) → (membersDraft ms).skip = .ok ()
  | [] => rfl
  | (_, v) :: ms => by
    rw [membersDraft, DraftMembers.skip, skip_toDraft v]
    exact skip_membersDraft ms

end

namespace Members

variable {ms : Members} {k : String} {v : Json} {keys : List String}

theorem mem_of_get? (h : ms.get? k = some v) : (k, v) ∈ ms := by
  obtain ⟨m, hm, rfl⟩ := Option.map_eq_some_iff.1 h
  obtain rfl := beq_iff_eq.1 (List.find?_some (p := fun m : String × Json => m.1 == k) hm)
  exact List.mem_of_find?_eq_some hm

theorem get?_eq_some_iff (hkeys : (ms.map (·.1)).Nodup) : ms.get? k = some v ↔ (k, v) ∈ ms :=
  ⟨mem_of_get?, fun h => by rw [get?, find?_of_nodup_map hkeys h]; rfl⟩

def select (keys : List String) (ms : Members) : Members :=
  keys.filterMap fun key => (ms.get? key).map (key, ·)

def without (keys : List String) (ms : Members) : Members :=
  ms.filter fun m => !keys.contains m.1

theorem mem_select (hkeys : (ms.map (·.1)).Nodup) {m : String × Json} :
    m ∈ ms.select keys ↔ m ∈ ms ∧ m.1 ∈ keys := by
  simp only [select, List.mem_filterMap, Option.map_eq_some_iff, get?_eq_some_iff hkeys]
  constructor
  · rintro ⟨k, hk, v, hv, rfl⟩
    exact ⟨hv, hk⟩
  · rintro ⟨hm, hk⟩
    exact ⟨m.1, hk, m.2, hm, rfl⟩

theorem mem_without {m : String × Json} : m ∈ ms.without keys ↔ m ∈ ms ∧ m.1 ∉ keys := by
  simp [without]

theorem get?_eq_of_perm {ns : Members} (h : ms.Perm ns) (hkeys : (ns.map (·.1)).Nodup)
    (k : String) : ms.get? k = ns.get? k := by
  refine Option.ext fun v => ?_
  rw [get?_eq_some_iff ((h.map (·.1)).nodup_iff.2 hkeys), get?_eq_some_iff hkeys, h.mem_iff]

theorem get?_without_of_mem (h : k ∈ keys) (ms : Members) : (ms.without keys).get? k = none := by
  refine get?_eq_none_of_notMem fun hk => ?_
  rcases List.mem_map.1 hk with ⟨m, hm, rfl⟩
  exact (mem_without.1 hm).2 h

theorem Ordered.without (h : ms.Ordered) (keys : List String) : (ms.without keys).Ordered :=
  h.filter _

theorem nodup_select (hnames : keys.Nodup) : (ms.select keys).Nodup := by
  refine hnames.filterMap fun k k' m hm hm' => ?_
  obtain ⟨_, _, rfl⟩ := Option.map_eq_some_iff.1 hm
  obtain ⟨_, _, heq⟩ := Option.map_eq_some_iff.1 hm'
  exact (congrArg Prod.fst heq).symm

theorem perm_select_append (hnames : keys.Nodup) (hkeys : (ms.map (·.1)).Nodup) :
    ms.Perm (ms.select keys ++ ms.without keys) := by
  have hnodup := hkeys.of_map
  have hdisjoint : ∀ a ∈ ms.select keys, ∀ b ∈ ms.without keys, a ≠ b := by
    rintro a ha _ hb rfl
    exact (mem_without.1 hb).2 ((mem_select hkeys).1 ha).2
  have hsplit : (ms.select keys ++ ms.without keys).Nodup :=
    List.nodup_append.2 ⟨nodup_select hnames, hnodup.filter _, hdisjoint⟩
  rw [List.perm_ext_iff_of_nodup hnodup hsplit]
  intro m
  rw [List.mem_append, mem_select hkeys, mem_without, ← and_or_left]
  exact (and_iff_left (Classical.em _)).symm

end Members

section

variable {σ α : Type} {depth inner : Nat} {ms : Members} {s s' : σ}

def Field.readNamed (depth : Nat) (ms : Members) (s : σ) (f : Field σ) : Read σ :=
  match ms.get? f.name with
  | none => pure s
  | some v => f.step depth v.toDraft s

theorem Field.foldlM_readNamed_of {name : String} {opt : Bool} {get : σ → Option α}
    {set : α → σ → σ} {read : Nat → Draft → Read α} {fields : List (Field σ)} (t : Option α → σ)
    (hget : get s = none) (ht : ∀ a?, a?.elim s (set · s) = t a? := by rintro (_ | _) <;> rfl) :
    (Field.of name opt get set read :: fields).foldlM (readNamed depth ms) s =
      (ms.get? name).mapM (fun v => read depth v.toDraft) >>= fun a? =>
        fields.foldlM (readNamed depth ms) (t a?) := by
  have hname : (Field.of name opt get set read).name = name := rfl
  rw [List.foldlM_cons, readNamed, hname]
  cases ms.get? name with
  | none => exact congrArg (fields.foldlM (readNamed depth ms)) (ht none)
  | some v =>
    have hstep : (Field.of name opt get set read).step depth v.toDraft s =
        read depth v.toDraft >>= fun a => pure (t (some a)) := by
      simp only [step, of, hget, Option.isSome_none, Bool.false_eq_true, if_false, ← ht]
      rfl
    change (Field.of name opt get set read).step depth v.toDraft s >>= _ =
      some <$> read depth v.toDraft >>= _
    rw [hstep]
    cases read depth v.toDraft <;> rfl

variable {r : Record σ}

theorem Record.readMember_field (hnames : (r.fields.map (·.name)).Nodup) {f : Field σ}
    (hf : f ∈ r.fields) (value : Draft) : r.readMember depth f.name value = f.step depth value := by
  funext s
  rw [readMember, find?_of_nodup_map hnames hf]
  rfl

theorem Record.readOther_ignored (hothers : r.others = .ignored) (key : String) (v : Json) (s : σ) :
    r.readOther depth key v.toDraft s = .ok s := by
  rw [readOther, hothers, skip_toDraft]
  rfl

theorem Record.readMember_eq_ok (hnames : (r.fields.map (·.name)).Nodup) {key : String}
    {value : Draft} : r.readMember depth key value s = .ok s' ↔
      (∃ f ∈ r.fields, f.name = key ∧ f.step depth value s = .ok s') ∨
        key ∉ r.fields.map (·.name) ∧ r.readOther depth key value s = .ok s' := by
  by_cases hkey : key ∈ r.fields.map (·.name)
  · obtain ⟨f, hf, rfl⟩ := List.mem_map.1 hkey
    rw [readMember_field hnames hf]
    constructor
    · exact fun h => .inl ⟨f, hf, rfl, h⟩
    · rintro (⟨g, hg, hname, h⟩ | ⟨hkey', _⟩)
      · rwa [← List.inj_on_of_nodup_map hnames hg hf hname]
      · exact absurd hkey hkey'
  · have hfind : r.fields.find? (·.name == key) = none := by simpa using hkey
    have hread : r.readMember depth key value s = r.readOther depth key value s := by
      rw [readMember, hfind]
    rw [hread]
    constructor
    · exact fun h => .inr ⟨hkey, h⟩
    · rintro (⟨f, hf, rfl, _⟩ | ⟨_, h⟩)
      · exact absurd (List.mem_map_of_mem hf) hkey
      · exact h

theorem Record.readMembers_select (hnames : (r.fields.map (·.name)).Nodup)
    {fields : List (Field σ)} (hfields : fields ⊆ r.fields) (s : σ) :
    r.readMembers depth (membersDraft (ms.select (fields.map (·.name)))) s =
      fields.foldlM (Field.readNamed depth ms) s := by
  induction fields generalizing s with
  | nil => rfl
  | cons f fields ih =>
    obtain ⟨hf, hfields⟩ := List.cons_subset.1 hfields
    rw [List.foldlM_cons, List.map_cons, Members.select, List.filterMap_cons, Field.readNamed]
    cases ms.get? f.name with
    | none => exact ih hfields s
    | some v =>
      change r.readMember depth f.name v.toDraft s >>= r.readMembers depth (membersDraft
        (ms.select (fields.map (·.name)))) = _
      rw [readMember_field hnames hf]
      exact congrArg _ (funext (ih hfields))

/-- The fields are read by their names first, and then the other members. -/
theorem Record.IsOrderless.readMembers_iff (hr : r.IsOrderless)
    (hnames : (r.fields.map (·.name)).Nodup) (hkeys : (ms.map (·.1)).Nodup) :
    r.readMembers depth (membersDraft ms) s = .ok s' ↔
      ∃ s₁, r.fields.foldlM (Field.readNamed depth ms) s = .ok s₁ ∧
        r.readMembers depth (membersDraft (ms.without (r.fields.map (·.name)))) s₁ = .ok s' := by
  have hperm := Members.perm_select_append hnames hkeys
  rw [← Except.bind_eq_ok, ← readMembers_select hnames (List.Subset.refl _), ← readMembers_append]
  exact ⟨hr.readMembers_perm hperm hkeys,
    hr.readMembers_perm hperm.symm ((hperm.map (·.1)).nodup_iff.1 hkeys)⟩

theorem Record.readMembers_ignored (hnames : (r.fields.map (·.name)).Nodup)
    (hothers : r.others = .ignored) (hkeys : ∀ m ∈ ms, m.1 ∉ r.fields.map (·.name)) (s : σ) :
    r.readMembers depth (membersDraft ms) s = .ok s := by
  induction ms with
  | nil => rfl
  | cons m ms ih =>
    have hmember : r.readMember depth m.1 m.2.toDraft s = .ok s :=
      (readMember_eq_ok hnames).2 (.inr ⟨hkeys m (.head _), readOther_ignored hothers m.1 m.2 s⟩)
    exact readMembers_cons.2 ⟨s, hmember, ih fun n hn => hkeys n (.tail _ hn)⟩

theorem mapM_eq_ok {f : Json → Read α} {g : α → Json} {v? : Option Json} {a? : Option α}
    (h : ∀ v ∈ v?, ∀ a, f v = .ok a ↔ v = g a) : v?.mapM f = .ok a? ↔ v? = a?.map g := by
  cases v? with
  | none =>
    cases a? with
    | none => exact ⟨fun _ => rfl, fun _ => rfl⟩
    | some a => exact ⟨fun h => (by cases h), fun h => (by cases h)⟩
  | some v =>
    change some <$> f v = .ok a? ↔ _
    rw [Except.map_eq_ok]
    constructor
    · rintro ⟨a, ha, rfl⟩
      exact congrArg some ((h v rfl a).1 ha)
    · intro heq
      obtain ⟨a, rfl, hg⟩ := Option.map_eq_some_iff.1 heq.symm
      exact ⟨a, (h v rfl a).2 hg.symm, rfl⟩

theorem mapM_eq_ok_some {f : Json → Read α} {v? : Option Json} {a : α} :
    v?.mapM f = .ok (some a) ↔ ∃ v, v? = some v ∧ f v = .ok a := by
  cases v? with
  | none => exact ⟨fun h => (by cases h), fun ⟨_, h, _⟩ => (by cases h)⟩
  | some v =>
    change some <$> f v = .ok (some a) ↔ _
    simp [Except.map_eq_ok]

theorem exists_eq_map_iff {g : α → Json} {v? : Option Json} {a default : α} :
    (∃ a?, v? = Option.map g a? ∧ a = a?.getD default) ↔
      v? = some (g a) ∨ v? = none ∧ a = default := by
  constructor
  · rintro ⟨_ | b, rfl, rfl⟩
    · exact .inr ⟨rfl, rfl⟩
    · exact .inl rfl
  · rintro (rfl | ⟨rfl, rfl⟩)
    · exact ⟨some a, rfl, rfl⟩
    · exact ⟨none, rfl, rfl⟩

theorem readString_toDraft {v : Json} {s : String} :
    v.toDraft.readString = .ok s ↔ v = .string s := by
  cases v <;> simp [toDraft, Draft.readString, Draft.refuse, pure, Except.pure, throw, throwThe,
    MonadExceptOf.throw]

def ofString? (s? : Option String) : Json :=
  s?.elim .null .string

theorem readOptional_toDraft {v : Json} {s? : Option String} :
    v.toDraft.readOptional Draft.readString = .ok s? ↔ v = ofString? s? := by
  cases s? <;> cases v <;> simp [toDraft, Draft.readOptional, Draft.readString, Draft.refuse, pure,
    Except.pure, throw, throwThe, MonadExceptOf.throw, Functor.map, Except.map, ofString?]

theorem Draft.eq_object_of_keep {d : Draft} (h : d.keep depth = .ok (.object ms)) :
    ∃ members, d = .object members := by
  cases d with
  | object members => exact ⟨members, rfl⟩
  | number n => cases n <;> cases h
  | string s =>
    obtain ⟨_, _, heq⟩ := Except.map_eq_ok.1 h
    cases heq
  | list items =>
    obtain ⟨_, _, h⟩ := Except.bind_eq_ok.1 h
    obtain ⟨_, _, heq⟩ := Except.map_eq_ok.1 h
    cases heq
  | _ => cases h

theorem Draft.readMap_eq_ok {d : Draft} :
    d.readMap depth = .ok ms ↔ d.keep depth = .ok (.object ms) := by
  have hobject : ∀ members, (Draft.object members).readMap depth = .ok ms ↔
      (Draft.object members).keep depth = .ok (.object ms) := by
    intro members
    change Flaw.lift (enter depth >>= fun depth => members.keep depth []) = .ok ms ↔
      (enter depth >>= fun depth => Json.object <$> members.keep depth []) = .ok (.object ms)
    rw [Flaw.lift, Except.mapError_eq_ok]
    simp [Except.bind_eq_ok, Except.map_eq_ok]
  constructor
  · intro h
    have hread := h
    unfold Draft.readMap at hread
    split at hread
    next members => exact (hobject members).1 h
    · exact absurd hread refuse_ne_ok
  · intro h
    obtain ⟨members, rfl⟩ := eq_object_of_keep h
    exact (hobject members).2 h

theorem readAll_itemsDraft {read : Draft → Read α} {vs : List Json} {as : List α} :
    (itemsDraft vs).readAll read = .ok as ↔
      List.Forall₂ (fun v a => read v.toDraft = .ok a) vs as := by
  induction vs generalizing as with
  | nil =>
    rw [List.forall₂_nil_left_iff]
    exact ⟨fun h => (Except.ok.inj h).symm, fun h => congrArg Except.ok h.symm⟩
  | cons v vs ih =>
    change (read v.toDraft >>= fun a => (itemsDraft vs).readAll read >>= fun as =>
      pure (a :: as)) = .ok as ↔ _
    simp only [Except.bind_eq_ok, List.forall₂_cons_left_iff, ih]
    constructor
    · rintro ⟨a, ha, as, has, h⟩
      cases h
      exact ⟨a, as, ha, has, rfl⟩
    · rintro ⟨a, as, ha, has, rfl⟩
      exact ⟨a, ha, as, has, rfl⟩

theorem readList_toDraft (henter : enter depth = .ok inner) {read : Nat → Draft → Read α}
    {v : Json} {as : List α} :
    v.toDraft.readList depth read = .ok as ↔
      ∃ vs, v = .array vs ∧ List.Forall₂ (fun v a => read inner v.toDraft = .ok a) vs as := by
  cases v with
  | array vs =>
    change (Flaw.lift (enter depth) >>= fun depth => (itemsDraft vs).readAll (read depth)) = _ ↔ _
    rw [henter]
    change (itemsDraft vs).readAll (read inner) = .ok as ↔ _
    rw [readAll_itemsDraft]
    simp
  | _ => simp [toDraft, Draft.readList, Draft.refuse, throw, throwThe, MonadExceptOf.throw]

theorem Record.readMembers_without {add : String → Json → σ → σ} (parts : Members → σ)
    (hothers : r.others = .kept add)
    (hadd : ∀ ms key v, add key v (parts ms) = parts (ms.insert key v)) (h : ms.Stored depth) :
    r.readMembers depth (membersDraft (ms.without (r.fields.map (·.name)))) (parts []) =
      .ok (parts (ms.without (r.fields.map (·.name)))) := by
  have hmem : ∀ m ∈ ms.without (r.fields.map (·.name)), m ∈ ms ∧ m.1 ∉ r.fields.map (·.name) :=
    fun m => Members.mem_without.1
  rw [readMembers_kept hothers hadd (fun m hm => (h.values m (hmem m hm).1).kept)
    (fun m hm => (hmem m hm).2), Members.insertAll_nil_of_ordered (h.ordered.without _)]

theorem Record.read_eq_ok (hlist : r.hasListForm = false) {v : Json} :
    r.read depth s v.toDraft = .ok s' ↔ ∃ ms inner, v = .object ms ∧ enter depth = .ok inner ∧
      r.readMembers inner (membersDraft ms) s = .ok s' := by
  cases v with
  | object ms =>
    change (Flaw.lift (enter depth) >>= fun depth => r.readMembers depth _ s) = _ ↔ _
    simp [Except.bind_eq_ok, Flaw.lift, Except.mapError_eq_ok]
  | array vs =>
    simp [toDraft, read, hlist, Draft.refuse, throw, throwThe, MonadExceptOf.throw]
  | _ => simp [toDraft, read, Draft.refuse, throw, throwThe, MonadExceptOf.throw]

end

end Json

end ColorGraph
