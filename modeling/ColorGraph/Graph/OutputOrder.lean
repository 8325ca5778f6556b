import ColorGraph.Graph.Ancestors
/-!
The order in which outputs are compiled: an output comes after those whose producers are
ancestors of its own, and otherwise the order of the graph is kept. Outputs that wait for each other
in a cycle come last.
-/

set_option autoImplicit false

namespace ColorGraph

structure OutputOrder where
  order : List Node
  cycle : List NodeId

namespace OutputOrder

variable {α : Type}

def firstReady (dependsOn : α → α → Bool) (pending : List α) : List α → Option (α × List α)
  | [] => none
  | a :: rest =>
    if pending.any (dependsOn a) then
      (firstReady dependsOn pending rest).map fun (b, others) => (b, a :: others)
    else some (a, rest)

/-- Takes out the first that is ready until none is; then what is left. -/
def arrange (dependsOn : α → α → Bool) : Nat → List α → List α × List α
  | 0, pending => ([], pending)
  | steps + 1, pending =>
    match firstReady dependsOn pending pending with
    | none => ([], pending)
    | some (a, others) =>
      let (ordered, left) := arrange dependsOn steps others
      (a :: ordered, left)

variable {dependsOn : α → α → Bool} {pending candidates others : List α} {a : α}

theorem firstReady_eq_none_iff : firstReady dependsOn pending candidates = none ↔
    ∀ c ∈ candidates, ∃ b ∈ pending, dependsOn c b = true := by
  induction candidates with
  | nil => simp [firstReady]
  | cons c rest ih =>
    rw [firstReady, List.forall_mem_cons, ← ih, ← List.any_eq_true]
    split
    next hc => rw [Option.map_eq_none_iff, and_iff_right hc]
    next hc => simp [hc]

theorem firstReady_eq_some_iff : firstReady dependsOn pending candidates = some (a, others) ↔
    ∃ before after, candidates = before ++ a :: after ∧ others = before ++ after ∧
      (∀ c ∈ before, ∃ b ∈ pending, dependsOn c b = true) ∧
        ∀ b ∈ pending, dependsOn a b = false := by
  constructor
  · intro h
    induction candidates generalizing others with
    | nil => cases h
    | cons c rest ih =>
      unfold firstReady at h
      split at h
      next hc =>
        obtain ⟨⟨d, r⟩, hr, e⟩ := Option.map_eq_some_iff.1 h
        cases e
        obtain ⟨before, after, rfl, rfl, hwait, hready⟩ := ih hr
        exact ⟨c :: before, after, rfl, rfl,
          List.forall_mem_cons.2 ⟨List.any_eq_true.1 hc, hwait⟩, hready⟩
      next hc =>
        cases h
        refine ⟨[], rest, rfl, rfl, List.forall_mem_nil _, fun b hb => ?_⟩
        exact Bool.eq_false_iff.2 fun hab => hc (List.any_eq_true.2 ⟨b, hb, hab⟩)
  · rintro ⟨before, after, rfl, rfl, hwait, hready⟩
    induction before with
    | nil =>
      have hnone : pending.any (dependsOn a) = false :=
        List.any_eq_false.2 fun b hb => Bool.eq_false_iff.1 (hready b hb)
      rw [List.nil_append, firstReady, hnone]
      rfl
    | cons c before ih =>
      obtain ⟨hc, hwait⟩ := List.forall_mem_cons.1 hwait
      rw [List.cons_append, firstReady, if_pos (List.any_eq_true.2 hc), ih hwait]
      rfl

theorem perm_of_firstReady (h : firstReady dependsOn pending candidates = some (a, others)) :
    (a :: others).Perm candidates := by
  obtain ⟨before, after, rfl, rfl, _⟩ := firstReady_eq_some_iff.1 h
  exact List.perm_middle.symm

theorem arrange_perm (dependsOn : α → α → Bool) (steps : Nat) (pending : List α) :
    ((arrange dependsOn steps pending).1 ++ (arrange dependsOn steps pending).2).Perm
      pending := by
  induction steps generalizing pending with
  | zero => exact List.Perm.refl _
  | succ steps ih =>
    unfold arrange
    split
    · exact List.Perm.refl _
    next a others h => exact ((ih others).cons a).trans (perm_of_firstReady h)

end OutputOrder

structure OutputCandidate where
  output : Node
  producer : Option NodeId
  ancestors : List NodeId

namespace OutputCandidate

def of (ix : Index) (output : Node) : OutputCandidate :=
  let producer := (ix.producerEdge? output.id).map (·.source)
  ⟨output, producer, (producer.map ix.ancestors).getD []⟩

def dependsOn (a b : OutputCandidate) : Bool :=
  a.output.id != b.output.id &&
    match a.producer, b.producer with
    | some _, some p => a.ancestors.contains p
    | _, _ => false

end OutputCandidate

def Index.outputOrder (ix : Index) : OutputOrder :=
  let candidates := ix.outputs.map (OutputCandidate.of ix)
  let (ordered, left) := OutputOrder.arrange OutputCandidate.dependsOn candidates.length candidates
  ⟨(ordered ++ left).map (·.output), left.map (·.output.id)⟩

theorem Index.outputOrder_perm (ix : Index) : ix.outputOrder.order.Perm ix.outputs := by
  have h := (OutputOrder.arrange_perm OutputCandidate.dependsOn
    (ix.outputs.map (OutputCandidate.of ix)).length
    (ix.outputs.map (OutputCandidate.of ix))).map (·.output)
  simpa [Index.outputOrder, List.map_map, Function.comp_def, OutputCandidate.of] using h

end ColorGraph
