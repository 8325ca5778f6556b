import ColorGraph.Graph.Document
import ColorGraph.Proofs.StoredValues
import Mathlib.Data.List.Pairwise
/-!
Records read from members in any order. Main statements: members that a record is read from may
stand in any other order, and nodes, edges and documents are records of this kind.
-/

set_option autoImplicit false

namespace ColorGraph

namespace Json

section

variable {σ : Type}

/-- What is read by `f` and then by `g` is read by `g` and then by `f`. -/
def Swaps (f g : σ → Read σ) : Prop :=
  ∀ s s₁ s₂, f s = .ok s₁ → g s₁ = .ok s₂ → ∃ s₁', g s = .ok s₁' ∧ f s₁' = .ok s₂

def Record.IsOrderless (r : Record σ) : Prop :=
  ∀ depth key key' value value', key ≠ key' →
    Swaps (r.readMember depth key value) (r.readMember depth key' value')

theorem Record.readMembers_cons {r : Record σ} {depth : Nat} {m : String × Json} {ms : Members}
    {s s' : σ} : r.readMembers depth (membersDraft (m :: ms)) s = .ok s' ↔
      ∃ s₁, r.readMember depth m.1 m.2.toDraft s = .ok s₁ ∧
        r.readMembers depth (membersDraft ms) s₁ = .ok s' := by
  have hstep : r.readMembers depth (membersDraft (m :: ms)) s =
      r.readMember depth m.1 m.2.toDraft s >>= r.readMembers depth (membersDraft ms) := rfl
  rw [hstep, Except.bind_eq_ok]

/-- The members may stand in any order. -/
theorem Record.IsOrderless.readMembers_perm {r : Record σ} (hr : r.IsOrderless) {depth : Nat}
    {ms ns : Members} (hperm : ms.Perm ns) (hkeys : (ms.map (·.1)).Nodup) {s s' : σ}
    (h : r.readMembers depth (membersDraft ms) s = .ok s') :
    r.readMembers depth (membersDraft ns) s = .ok s' := by
  induction hperm generalizing s with
  | nil => exact h
  | cons m _ ih =>
    obtain ⟨s₁, hm, h⟩ := readMembers_cons.1 h
    exact readMembers_cons.2 ⟨s₁, hm, ih (List.nodup_cons.1 hkeys).2 h⟩
  | swap m n ms =>
    obtain ⟨s₁, hn, h⟩ := readMembers_cons.1 h
    obtain ⟨s₂, hm, h⟩ := readMembers_cons.1 h
    -- With one key twice, the second member would be refused or would win.
    have hne : n.1 ≠ m.1 := fun heq =>
      (List.nodup_cons.1 hkeys).1 (List.mem_map.2 ⟨m, .head _, heq.symm⟩)
    obtain ⟨s₁', hm', hn'⟩ := hr depth _ _ _ _ hne s s₁ s₂ hn hm
    exact readMembers_cons.2 ⟨s₁', hm', readMembers_cons.2 ⟨s₂, hn', h⟩⟩
  | trans h₁ _ ih₁ ih₂ => exact ih₂ ((h₁.map (·.1)).nodup_iff.1 hkeys) (ih₁ hkeys h)

def Field.step (f : Field σ) (depth : Nat) (value : Draft) (s : σ) : Read σ :=
  if f.isSet s then throw (.mismatch (.duplicate f.name)) else f.read depth value s

def Field.Apart (f g : Field σ) : Prop :=
  ∀ depth value value', Swaps (f.step depth value) (g.step depth value') ∧
    Swaps (g.step depth value') (f.step depth value)

theorem Field.Apart.symm {f g : Field σ} (h : f.Apart g) : g.Apart f :=
  fun depth value value' => (h depth value' value).symm

instance : Std.Symm (Field.Apart (σ := σ)) where
  symm _ _ := Field.Apart.symm

variable {α β : Type} {name name' : String} {opt opt' : Bool} {get : σ → Option α}
  {get' : σ → Option β} {set : α → σ → σ} {set' : β → σ → σ} {read : Nat → Draft → Read α}
  {read' : Nat → Draft → Read β}

theorem Field.read_of_eq_ok {depth : Nat} {value : Draft} {s s' : σ} :
    (Field.of name opt get set read).read depth value s = .ok s' ↔
      ∃ a, read depth value = .ok a ∧ set a s = s' := by
  simp [Field.of, Except.bind_eq_ok, pure, Except.pure]

theorem Field.step_of_eq_ok {depth : Nat} {value : Draft} {s s' : σ} :
    (Field.of name opt get set read).step depth value s = .ok s' ↔
      get s = none ∧ ∃ a, read depth value = .ok a ∧ set a s = s' := by
  have hset : (Field.of name opt get set read).isSet s = (get s).isSome := rfl
  have hread : (Field.of name opt get set read).read depth value s = .ok s' ↔
      ∃ a, read depth value = .ok a ∧ set a s = s' := read_of_eq_ok
  rw [Field.step, hset, ← hread]
  cases get s <;> simp [throw, throwThe, MonadExceptOf.throw]

/-- Fields whose parts have nothing to do with each other. -/
@[simp]
theorem Field.apart_of (hget : ∀ a s, get' (set a s) = get' s)
    (hget' : ∀ b s, get (set' b s) = get s) (hset : ∀ a b s, set' b (set a s) = set a (set' b s)) :
    (Field.of name opt get set read).Apart (Field.of name' opt' get' set' read') := by
  intro depth value value'
  constructor
  · intro s s₁ s₂ h h'
    obtain ⟨hs, a, ha, rfl⟩ := step_of_eq_ok.1 h
    obtain ⟨hs', b, hb, rfl⟩ := step_of_eq_ok.1 h'
    exact ⟨set' b s, step_of_eq_ok.2 ⟨hget a s ▸ hs', b, hb, rfl⟩,
      step_of_eq_ok.2 ⟨(hget' b s).trans hs, a, ha, (hset a b s).symm⟩⟩
  · intro s s₁ s₂ h h'
    obtain ⟨hs, b, hb, rfl⟩ := step_of_eq_ok.1 h
    obtain ⟨hs', a, ha, rfl⟩ := step_of_eq_ok.1 h'
    exact ⟨set a s, step_of_eq_ok.2 ⟨hget' b s ▸ hs', a, ha, rfl⟩,
      step_of_eq_ok.2 ⟨(hget a s).trans hs, b, hb, hset a b s⟩⟩

theorem Record.isOrderless_of {r : Record σ} (rest : String → Field σ)
    (hrest : ∀ depth key value, r.readOther depth key value = (rest key).step depth value)
    (hfields : r.fields.Pairwise Field.Apart)
    (hapart : ∀ f ∈ r.fields, ∀ key, f.Apart (rest key))
    (hothers : ∀ key key', key ≠ key' → (rest key).Apart (rest key')) : r.IsOrderless := by
  have hfield : ∀ key, ∃ f : Field σ,
      (∀ depth value, r.readMember depth key value = f.step depth value) ∧
      (f ∈ r.fields ∧ f.name = key ∨ f = rest key) := by
    intro key
    cases hf : r.fields.find? (·.name == key) with
    | some f =>
      refine ⟨f, fun depth value => ?_, .inl ⟨List.mem_of_find?_eq_some hf, ?_⟩⟩
      · funext s
        rw [readMember, hf]
        rfl
      · exact beq_iff_eq.1 (List.find?_some (p := fun f : Field σ => f.name == key) hf)
    | none =>
      refine ⟨rest key, fun depth value => ?_, .inr rfl⟩
      funext s
      rw [readMember, hf]
      exact congrFun (hrest depth key value) s
  intro depth key key' value value' hkey
  obtain ⟨f, hf, hfkind⟩ := hfield key
  obtain ⟨g, hg, hgkind⟩ := hfield key'
  rw [hf, hg]
  obtain ⟨hfmem, rfl⟩ | rfl := hfkind
  · obtain ⟨hgmem, rfl⟩ | rfl := hgkind
    · have hne : f ≠ g := fun heq => hkey (congrArg Field.name heq)
      exact (hfields.forall hfmem hgmem hne depth value value').1
    · exact (hapart f hfmem key' depth value value').1
  · obtain ⟨hgmem, rfl⟩ | rfl := hgkind
    · exact ((hapart g hgmem key).symm depth value value').1
    · exact (hothers key key' hkey depth value value').1

def Others.field (add : String → Json → σ → σ) (key : String) : Field σ :=
  .of key true (fun _ => (none : Option Json)) (add key) fun depth d => Flaw.lift (d.keep depth)

/-- A record that keeps what is no field among the members that it `holds`. -/
theorem Record.isOrderless_of_kept {r : Record σ} (holds : σ → Members) (put : Members → σ → σ)
    (hothers : r.others = .kept fun key v s => put ((holds s).insert key v) s)
    (hholds : ∀ ms s, holds (put ms s) = ms) (hput : ∀ ms ms' s, put ms (put ms' s) = put ms s)
    (hfields : ∀ key, (Others.field (fun key v s => put ((holds s).insert key v) s) key ::
      r.fields).Pairwise Field.Apart) : r.IsOrderless := by
  refine isOrderless_of (Others.field _) (fun depth key value => ?_)
    (List.pairwise_cons.1 (hfields "")).2
    (fun f hf key => ((List.pairwise_cons.1 (hfields key)).1 f hf).symm)
    fun key key' hkey => Field.apart_of (fun _ _ => rfl) (fun _ _ => rfl) fun v v' s => ?_
  · funext s
    rw [readOther, hothers]
    rfl
  · simp only [hholds, hput, Members.insert_comm hkey]

def Others.skipped (key : String) : Field σ :=
  .of key true (fun _ => (none : Option Unit)) (fun _ s => s) fun _ d => Flaw.lift d.skip

theorem Field.apart_skipped (f : Field σ) (key : String) : f.Apart (Others.skipped key) := by
  intro depth value value'
  constructor
  · intro s s₁ s₂ h h'
    obtain ⟨-, a, ha, rfl⟩ := step_of_eq_ok.1 h'
    exact ⟨s, step_of_eq_ok.2 ⟨rfl, a, ha, rfl⟩, h⟩
  · intro s s₁ s₂ h h'
    obtain ⟨-, a, ha, rfl⟩ := step_of_eq_ok.1 h
    exact ⟨s₂, h', step_of_eq_ok.2 ⟨rfl, a, ha, rfl⟩⟩

theorem Record.isOrderless_of_ignored {r : Record σ} (hothers : r.others = .ignored)
    (hfields : r.fields.Pairwise Field.Apart) : r.IsOrderless := by
  refine isOrderless_of Others.skipped (fun depth key value => ?_) hfields
    (fun f _ => f.apart_skipped) fun key _ _ => (Others.skipped key).apart_skipped _
  funext s
  rw [readOther, hothers]
  rfl

end

end Json

theorem Node.record_isOrderless : Node.record.IsOrderless :=
  Json.Record.isOrderless_of_kept Parts.editor (fun ms s => { s with editor := ms }) rfl
    (fun _ _ => rfl) (fun _ _ _ => rfl) fun _ => by simp [record, Json.Others.field]

theorem Edge.record_isOrderless : Edge.record.IsOrderless :=
  Json.Record.isOrderless_of_kept Parts.extra (fun ms s => { s with extra := ms }) rfl
    (fun _ _ => rfl) (fun _ _ _ => rfl) fun _ => by simp [record, Json.Others.field]

theorem Document.record_isOrderless : Document.record.IsOrderless :=
  Json.Record.isOrderless_of_ignored rfl (by simp [record])

end ColorGraph
