import ColorGraph.Graph.OutputOrder
import ColorGraph.Proofs.Reachability
/-!
The order of outputs against what they depend on. Main statements: on every graph each output that
is taken out comes after all it depends on, and those left over are the largest set of outputs that
wait for one another; a graph without cycles leaves none.
-/

set_option autoImplicit false

namespace ColorGraph

namespace OutputOrder

variable {α : Type} {dependsOn : α → α → Bool}

theorem not_depends_of_firstReady {pending candidates others : List α} {a : α}
    (h : firstReady dependsOn pending candidates = some (a, others)) :
    ∀ b ∈ pending, dependsOn a b = false := by
  obtain ⟨_, _, _, _, _, hready⟩ := firstReady_eq_some_iff.1 h
  exact hready

/-- By steps, if there are enough of them: none of what is pending is ready, or one is taken out and
the others are arranged. -/
@[elab_as_elim]
theorem arrange_induction {P : List α → List α × List α → Prop} {steps : Nat} {pending : List α}
    (stuck : ∀ pending, (∀ a ∈ pending, ∃ b ∈ pending, dependsOn a b = true) →
      P pending ([], pending))
    (ready : ∀ pending a others ordered left,
      firstReady dependsOn pending pending = some (a, others) → P others (ordered, left) →
        P pending (a :: ordered, left))
    (hsteps : pending.length ≤ steps) : P pending (arrange dependsOn steps pending) := by
  induction steps generalizing pending with
  | zero =>
    obtain rfl : pending = [] := List.length_eq_zero_iff.1 (by omega)
    exact stuck [] (List.forall_mem_nil _)
  | succ steps ih =>
    unfold arrange
    split
    next h => exact stuck pending (firstReady_eq_none_iff.1 h)
    next a others h =>
      have hlength := (perm_of_firstReady h).length_eq
      rw [List.length_cons] at hlength
      exact ready pending a others _ _ h (ih (by omega))

/-- What was taken out in turn depends neither on what was taken out later nor on what is left. -/
theorem arrange_pairwise (steps : Nat) (pending : List α) :
    (arrange dependsOn steps pending).1.Pairwise (fun a b => dependsOn a b = false) ∧
      ∀ a ∈ (arrange dependsOn steps pending).1, ∀ b ∈ (arrange dependsOn steps pending).2,
        dependsOn a b = false := by
  induction steps generalizing pending with
  | zero => simp [arrange]
  | succ steps ih =>
    unfold arrange
    split
    · simp
    next a others h =>
      obtain ⟨hpair, hleft⟩ := ih others
      have hfree := not_depends_of_firstReady h
      have hmem : ∀ b ∈ (arrange dependsOn steps others).1 ++ (arrange dependsOn steps others).2,
          b ∈ pending := by
        intro b hb
        have ho := (arrange_perm dependsOn steps others).mem_iff.1 hb
        exact (perm_of_firstReady h).mem_iff.1 (List.mem_cons_of_mem _ ho)
      refine ⟨List.pairwise_cons.2 ⟨?_, hpair⟩, ?_⟩
      · intro b hb
        exact hfree b (hmem b (List.mem_append_left _ hb))
      · intro b hb c hc
        obtain rfl | hb := List.mem_cons.1 hb
        · exact hfree c (hmem c (List.mem_append_right _ hc))
        · exact hleft b hb c hc

theorem lt_of_depends {steps : Nat} {pending : List α} {i j : Nat} {a b : α}
    (ha : (arrange dependsOn steps pending).1[i]? = some a)
    (hb : ((arrange dependsOn steps pending).1 ++ (arrange dependsOn steps pending).2)[j]? = some b)
    (hne : a ≠ b) (hab : dependsOn a b = true) : j < i := by
  obtain ⟨hpair, hleft⟩ := @arrange_pairwise α dependsOn steps pending
  obtain ⟨hi, rfl⟩ := List.getElem?_eq_some_iff.1 ha
  by_contra hij
  by_cases hj : j < (arrange dependsOn steps pending).1.length
  · rw [List.getElem?_append_left hj, List.getElem?_eq_getElem hj, Option.some.injEq] at hb
    subst hb
    obtain rfl | hlt := Nat.eq_or_lt_of_le (Nat.le_of_not_lt hij)
    · exact hne rfl
    · rw [List.pairwise_iff_getElem.1 hpair i j hi hj hlt] at hab
      cases hab
  · rw [List.getElem?_append_right (Nat.le_of_not_lt hj)] at hb
    rw [hleft _ (List.getElem_mem hi) b (List.mem_of_getElem? hb)] at hab
    cases hab

theorem depends_of_mem_left {steps : Nat} {pending : List α} (hsteps : pending.length ≤ steps) :
    ∀ a ∈ (arrange dependsOn steps pending).2,
      ∃ b ∈ (arrange dependsOn steps pending).2, dependsOn a b = true := by
  refine arrange_induction ?stuck ?ready hsteps
  case stuck => exact fun pending hall => hall
  case ready => exact fun pending a others ordered left _ ih => ih

theorem sublist_of_firstReady {pending candidates others : List α} {a : α}
    (h : firstReady dependsOn pending candidates = some (a, others)) :
    others.Sublist candidates := by
  obtain ⟨before, after, rfl, rfl, _⟩ := firstReady_eq_some_iff.1 h
  exact (List.sublist_cons_self a after).append_left before

theorem arrange_left_sublist (steps : Nat) (pending : List α) :
    (arrange dependsOn steps pending).2.Sublist pending := by
  induction steps generalizing pending with
  | zero => exact List.Sublist.refl _
  | succ steps ih =>
    unfold arrange
    split
    · exact List.Sublist.refl _
    next a others h => exact (ih others).trans (sublist_of_firstReady h)

/-- Nothing is taken out that waits, by way of others that wait, for something pending. -/
theorem not_mem_arrange_of_waiting {waiting : Set α} {steps : Nat} {pending : List α}
    (hpending : ∀ a ∈ waiting, a ∈ pending)
    (hwaits : ∀ a ∈ waiting, ∃ b ∈ waiting, dependsOn a b = true) :
    ∀ a ∈ waiting, a ∉ (arrange dependsOn steps pending).1 := by
  induction steps generalizing pending with
  | zero => simp [arrange]
  | succ steps ih =>
    unfold arrange
    split
    · simp
    next a others h =>
      have hfree : a ∉ waiting := by
        intro ha
        obtain ⟨b, hb, hab⟩ := hwaits a ha
        rw [not_depends_of_firstReady h b (hpending b hb)] at hab
        cases hab
      have hothers : ∀ b ∈ waiting, b ∈ others := by
        intro b hb
        have hmem := (perm_of_firstReady h).mem_iff.2 (hpending b hb)
        obtain rfl | hmem := List.mem_cons.1 hmem
        · exact absurd hb hfree
        · exact hmem
      intro b hb hmem
      obtain rfl | hmem := List.mem_cons.1 hmem
      · exact hfree hb
      · exact ih hothers b hb hmem

section

variable {β : Type} {depends₁ depends₂ : α → α → Bool}

theorem firstReady_map (f : β → α) (pending candidates : List β) :
    firstReady dependsOn (pending.map f) (candidates.map f) =
      (firstReady (fun a b => dependsOn (f a) (f b)) pending candidates).map
        fun (a, others) => (f a, others.map f) := by
  induction candidates with
  | nil => rfl
  | cons c rest ih =>
    have hany : (pending.map f).any (dependsOn (f c)) =
        pending.any fun b => dependsOn (f c) (f b) := List.any_map
    rw [List.map_cons, firstReady, firstReady, hany, ih]
    split
    · simp [Function.comp_def]
    · rfl

theorem arrange_map (f : β → α) (steps : Nat) (pending : List β) :
    arrange dependsOn steps (pending.map f) =
      ((arrange (fun a b => dependsOn (f a) (f b)) steps pending).1.map f,
        (arrange (fun a b => dependsOn (f a) (f b)) steps pending).2.map f) := by
  induction steps generalizing pending with
  | zero => rfl
  | succ steps ih =>
    rw [arrange, arrange, firstReady_map]
    cases firstReady (fun a b => dependsOn (f a) (f b)) pending pending with
    | none => rfl
    | some result => simp [ih]

theorem firstReady_congr {pending candidates : List α}
    (h : ∀ a ∈ candidates, ∀ b ∈ pending, depends₁ a b = depends₂ a b) :
    firstReady depends₁ pending candidates = firstReady depends₂ pending candidates := by
  induction candidates with
  | nil => rfl
  | cons c rest ih =>
    obtain ⟨hc, hrest⟩ := List.forall_mem_cons.1 h
    have hany : pending.any (depends₁ c) = pending.any (depends₂ c) := by
      rw [Bool.eq_iff_iff, List.any_eq_true, List.any_eq_true]
      exact exists_congr fun b => and_congr_right fun hb => by rw [hc b hb]
    rw [firstReady, firstReady, hany, ih hrest]

theorem arrange_congr {steps : Nat} {pending : List α}
    (h : ∀ a ∈ pending, ∀ b ∈ pending, depends₁ a b = depends₂ a b) :
    arrange depends₁ steps pending = arrange depends₂ steps pending := by
  induction steps generalizing pending with
  | zero => rfl
  | succ steps ih =>
    rw [arrange, arrange, firstReady_congr h]
    cases hready : firstReady depends₂ pending pending with
    | none => rfl
    | some result =>
      obtain ⟨a, others⟩ := result
      have hsubset := (sublist_of_firstReady hready).subset
      dsimp only
      rw [ih fun a ha b hb => h a (hsubset ha) b (hsubset hb)]

end

section

variable {keep : α → Bool} {pending candidates others : List α} {a : α}

theorem arrange_of_none_ready (steps : Nat) (h : firstReady dependsOn pending pending = none) :
    arrange dependsOn steps pending = ([], pending) := by
  cases steps with
  | zero => rfl
  | succ steps => rw [arrange, h]

theorem arrange_of_ready (steps : Nat)
    (h : firstReady dependsOn pending pending = some (a, others)) :
    arrange dependsOn (steps + 1) pending =
      (a :: (arrange dependsOn steps others).1, (arrange dependsOn steps others).2) := by
  rw [arrange, h]

theorem firstReady_filter
    (hwaits : ∀ c, keep c = true → ∀ b ∈ pending, dependsOn c b = true → keep b = true)
    (h : firstReady dependsOn pending candidates = some (a, others)) (ha : keep a = true) :
    firstReady dependsOn (pending.filter keep) (candidates.filter keep) =
      some (a, others.filter keep) := by
  obtain ⟨before, after, rfl, rfl, hbefore, hready⟩ := firstReady_eq_some_iff.1 h
  rw [firstReady_eq_some_iff]
  refine ⟨before.filter keep, after.filter keep, by simp [ha], List.filter_append _ _, ?_, ?_⟩
  · intro c hc
    obtain ⟨hc, hk⟩ := List.mem_filter.1 hc
    obtain ⟨b, hb, hcb⟩ := hbefore c hc
    exact ⟨b, List.mem_filter.2 ⟨hb, hwaits c hk b hb hcb⟩, hcb⟩
  · exact fun b hb => hready b (List.mem_of_mem_filter hb)

theorem filter_of_firstReady (h : firstReady dependsOn pending candidates = some (a, others))
    (ha : keep a = false) : others.filter keep = candidates.filter keep := by
  obtain ⟨before, after, rfl, rfl, _⟩ := firstReady_eq_some_iff.1 h
  simp [ha]

/-- Where what is kept waits for nothing else, it is arranged as if it were alone. -/
theorem arrange_filter {steps : Nat} (hsteps : pending.length ≤ steps) (steps' : Nat)
    (hsteps' : (pending.filter keep).length ≤ steps')
    (hwaits : ∀ c, keep c = true → ∀ b ∈ pending, dependsOn c b = true → keep b = true) :
    arrange dependsOn steps' (pending.filter keep) =
      ((arrange dependsOn steps pending).1.filter keep,
        (arrange dependsOn steps pending).2.filter keep) := by
  revert steps' hwaits
  refine arrange_induction ?stuck ?ready hsteps
  case stuck =>
    intro pending hall steps' _ hwaits
    have hnone : firstReady dependsOn (pending.filter keep) (pending.filter keep) = none := by
      refine firstReady_eq_none_iff.2 fun c hc => ?_
      obtain ⟨hc, hk⟩ := List.mem_filter.1 hc
      obtain ⟨b, hb, hcb⟩ := hall c hc
      exact ⟨b, List.mem_filter.2 ⟨hb, hwaits c hk b hb hcb⟩, hcb⟩
    rw [arrange_of_none_ready _ hnone, List.filter_nil]
  case ready =>
    intro pending a others ordered left hready ih steps' hsteps' hwaits
    have hothers : ∀ c, keep c = true → ∀ b ∈ others, dependsOn c b = true → keep b = true :=
      fun c hc b hb => hwaits c hc b ((sublist_of_firstReady hready).subset hb)
    cases ha : keep a with
    | false =>
      rw [← filter_of_firstReady hready ha] at hsteps' ⊢
      rw [ih _ hsteps' hothers, List.filter_cons_of_neg (by simp [ha])]
    | true =>
      have hkept := ((perm_of_firstReady hready).filter keep).length_eq
      rw [List.filter_cons_of_pos ha, List.length_cons] at hkept
      obtain ⟨m, rfl⟩ : ∃ m, steps' = m + 1 := ⟨steps' - 1, by omega⟩
      rw [arrange_of_ready m (firstReady_filter hwaits hready ha), ih _ (by omega) hothers,
        List.filter_cons_of_pos ha]

end

end OutputOrder

namespace Graph

/-- The producer of output `b` is upstream of the producer of output `a`. -/
def DependsOn (g : Graph) (a b : Node) : Prop :=
  a.id ≠ b.id ∧ ∃ p q, g.producer? a.id = some p ∧ g.producer? b.id = some q ∧ g.Upstream q p

variable {g : Graph}

theorem dependsOn_iff {a b : Node} :
    (OutputCandidate.of (Index.of g) a).dependsOn (.of (Index.of g) b) = true ↔
      g.DependsOn a b := by
  simp only [OutputCandidate.dependsOn, OutputCandidate.of, Index.producerEdge?_of, DependsOn,
    Graph.producer?, Bool.and_eq_true, bne_iff_ne]
  refine and_congr_right fun _ => ?_
  cases g.producerEdge? a.id with
  | none => simp
  | some e =>
    cases g.producerEdge? b.id with
    | none => simp
    | some f => simp [Index.mem_ancestors]

def candidates (g : Graph) : List OutputCandidate :=
  (Index.of g).outputs.map (OutputCandidate.of (Index.of g))

def arranged (g : Graph) : List OutputCandidate × List OutputCandidate :=
  OutputOrder.arrange OutputCandidate.dependsOn g.candidates.length g.candidates

theorem outputOrder_of (g : Graph) : (Index.of g).outputOrder =
    ⟨(g.arranged.1 ++ g.arranged.2).map (·.output), g.arranged.2.map (·.output.id)⟩ :=
  rfl

def waitsFor (g : Graph) (a b : Node) : Bool :=
  (OutputCandidate.of (Index.of g) a).dependsOn (.of (Index.of g) b)

theorem waitsFor_iff {a b : Node} : g.waitsFor a b = true ↔ g.DependsOn a b :=
  dependsOn_iff

def arrangedOutputs (g : Graph) : List Node × List Node :=
  OutputOrder.arrange g.waitsFor (Index.of g).outputs.length (Index.of g).outputs

theorem outputOrder_eq (g : Graph) : (Index.of g).outputOrder =
    ⟨g.arrangedOutputs.1 ++ g.arrangedOutputs.2, g.arrangedOutputs.2.map (·.id)⟩ := by
  have harranged : g.arranged = (g.arrangedOutputs.1.map (OutputCandidate.of (Index.of g)),
      g.arrangedOutputs.2.map (OutputCandidate.of (Index.of g))) := by
    rw [arranged, candidates, List.length_map]
    exact OutputOrder.arrange_map _ _ _
  rw [outputOrder_of, harranged]
  simp [Function.comp_def, OutputCandidate.of]

theorem eq_of_mem_arranged {c : OutputCandidate} (h : c ∈ g.arranged.1 ++ g.arranged.2) :
    ∃ n, c = .of (Index.of g) n := by
  have hm := (OutputOrder.arrange_perm _ _ _).mem_iff.1 h
  obtain ⟨n, _, rfl⟩ := List.mem_map.1 hm
  exact ⟨n, rfl⟩

theorem Acyclic.arranged_left (h : g.Acyclic) : g.arranged.2 = [] := by
  have hleft : ∀ a ∈ g.arranged.2, ∃ b ∈ g.arranged.2, a.dependsOn b = true :=
    OutputOrder.depends_of_mem_left (Nat.le_refl _)
  -- an output that waits does so for one whose producer is further upstream
  have hnone : ∀ p, ∀ n, .of (Index.of g) n ∈ g.arranged.2 → g.producer? n.id = some p →
      False := by
    intro p
    induction p using h.wellFounded.induction with
    | _ p ih =>
      intro n hn hp
      obtain ⟨b, hb, hd⟩ := hleft _ hn
      obtain ⟨m, rfl⟩ := eq_of_mem_arranged (List.mem_append_right _ hb)
      obtain ⟨_, p', q, hp', hq, hup⟩ := dependsOn_iff.1 hd
      obtain rfl : p = p' := Option.some.inj (hp.symm.trans hp')
      exact ih q hup m hb hq
  refine List.eq_nil_iff_forall_not_mem.2 fun c hc => ?_
  obtain ⟨n, rfl⟩ := eq_of_mem_arranged (List.mem_append_right _ hc)
  obtain ⟨b, hb, hd⟩ := hleft _ hc
  obtain ⟨m, rfl⟩ := eq_of_mem_arranged (List.mem_append_right _ hb)
  obtain ⟨_, p, _, hp, -⟩ := dependsOn_iff.1 hd
  exact hnone p n hc hp

theorem Acyclic.order_pairwise (h : g.Acyclic) :
    (Index.of g).outputOrder.order.Pairwise (fun a b => ¬ g.DependsOn a b) := by
  have hpair : g.arranged.1.Pairwise (fun a b => a.dependsOn b = false) :=
    (OutputOrder.arrange_pairwise _ _).1
  rw [outputOrder_of, h.arranged_left, List.append_nil, List.pairwise_map]
  refine hpair.imp_of_mem fun {a b} ha hb hab hd => ?_
  obtain ⟨m, rfl⟩ := eq_of_mem_arranged (List.mem_append_left _ ha)
  obtain ⟨n, rfl⟩ := eq_of_mem_arranged (List.mem_append_left _ hb)
  exact Bool.false_ne_true (hab.symm.trans (dependsOn_iff.2 hd))

/-- What an order of the outputs of a graph has to be: some `ready` in turn, then all `waiting`. -/
structure OrderSplit (g : Graph) (ready waiting : List Node) : Prop where
  perm : (ready ++ waiting).Perm (g.nodes.filter (·.kind.isOutput))
  sublist : waiting.Sublist (g.nodes.filter (·.kind.isOutput))
  after : ∀ (i j : Nat) (a b : Node), ready[i]? = some a → (ready ++ waiting)[j]? = some b →
    g.DependsOn a b → j < i
  waits : ∀ a ∈ waiting, ∃ b ∈ waiting, g.DependsOn a b
  /-- No set of outputs that wait for one another goes beyond those that wait. -/
  largest : ∀ s : Set Node, (∀ a ∈ s, a ∈ g.nodes.filter (·.kind.isOutput)) →
    (∀ a ∈ s, ∃ b ∈ s, g.DependsOn a b) → ∀ a ∈ s, a ∈ waiting ∧ a ∉ ready

theorem output_of_mem_arranged {c : OutputCandidate} (h : c ∈ g.arranged.1 ++ g.arranged.2) :
    .of (Index.of g) c.output = c := by
  obtain ⟨n, rfl⟩ := eq_of_mem_arranged h
  rfl

theorem dependsOn_of_mem_arranged {c d : OutputCandidate}
    (hc : c ∈ g.arranged.1 ++ g.arranged.2) (hd : d ∈ g.arranged.1 ++ g.arranged.2) :
    c.dependsOn d = true ↔ g.DependsOn c.output d.output := by
  rw [← dependsOn_iff, output_of_mem_arranged hc, output_of_mem_arranged hd]

theorem candidates_map_output :
    g.candidates.map (·.output) = g.nodes.filter (·.kind.isOutput) := by
  have houtput : (fun n => (OutputCandidate.of (Index.of g) n).output) = id := rfl
  rw [candidates, List.map_map, Function.comp_def, houtput, List.map_id]
  rfl

theorem arranged_perm : (g.arranged.1.map (·.output) ++ g.arranged.2.map (·.output)).Perm
    (g.nodes.filter (·.kind.isOutput)) := by
  rw [← List.map_append, ← candidates_map_output]
  exact (OutputOrder.arrange_perm _ _ _).map _

theorem not_mem_arranged_of_waiting {s : Set Node}
    (hs : ∀ a ∈ s, a ∈ g.nodes.filter (·.kind.isOutput))
    (hwaits : ∀ a ∈ s, ∃ b ∈ s, g.DependsOn a b) :
    ∀ a ∈ s, a ∉ g.arranged.1.map (·.output) := by
  have hready : ∀ c ∈ {c : OutputCandidate | ∃ n ∈ s, c = .of (Index.of g) n},
      c ∉ g.arranged.1 := by
    refine OutputOrder.not_mem_arrange_of_waiting ?_ ?_
    · rintro _ ⟨n, hn, rfl⟩
      exact List.mem_map_of_mem (hs n hn)
    · rintro _ ⟨n, hn, rfl⟩
      obtain ⟨m, hm, hnm⟩ := hwaits n hn
      exact ⟨_, ⟨m, hm, rfl⟩, dependsOn_iff.2 hnm⟩
  intro a ha hmem
  obtain ⟨c, hc, rfl⟩ := List.mem_map.1 hmem
  have hof := output_of_mem_arranged (List.mem_append_left _ hc)
  exact hready c ⟨c.output, ha, hof.symm⟩ hc

theorem orderSplit_arranged :
    g.OrderSplit (g.arranged.1.map (·.output)) (g.arranged.2.map (·.output)) := by
  constructor
  case perm => exact arranged_perm
  case sublist =>
    rw [← candidates_map_output]
    exact (OutputOrder.arrange_left_sublist _ _).map _
  case after =>
    intro i j a b ha hb hab
    rw [← List.map_append] at hb
    rw [List.getElem?_map] at ha hb
    obtain ⟨c, hc, rfl⟩ := Option.map_eq_some_iff.1 ha
    obtain ⟨d, hd, rfl⟩ := Option.map_eq_some_iff.1 hb
    have hcm := List.mem_append_left g.arranged.2 (List.mem_of_getElem? hc)
    have hdm := List.mem_of_getElem? hd
    have hne : c ≠ d := fun heq => hab.1 (congrArg (·.output.id) heq)
    exact OutputOrder.lt_of_depends hc hd hne ((dependsOn_of_mem_arranged hcm hdm).2 hab)
  case waits =>
    intro a ha
    obtain ⟨c, hc, rfl⟩ := List.mem_map.1 ha
    obtain ⟨d, hd, hcd⟩ := OutputOrder.depends_of_mem_left (Nat.le_refl _) c hc
    have hcm := List.mem_append_right g.arranged.1 hc
    have hdm := List.mem_append_right g.arranged.1 hd
    exact ⟨d.output, List.mem_map_of_mem hd, (dependsOn_of_mem_arranged hcm hdm).1 hcd⟩
  case largest =>
    intro s hs hwaits a ha
    have hready := not_mem_arranged_of_waiting hs hwaits a ha
    have hmem := arranged_perm.mem_iff.2 (hs a ha)
    exact ⟨(List.mem_append.1 hmem).resolve_left hready, hready⟩

/-- On every graph the order of the outputs is some in turn and then the largest set of outputs that
wait for one another, which are told as the cycle. -/
theorem outputOrder_splits (g : Graph) : ∃ ready waiting,
    (Index.of g).outputOrder.order = ready ++ waiting ∧
      (Index.of g).outputOrder.cycle = waiting.map (·.id) ∧ g.OrderSplit ready waiting ∧
      (g.Acyclic → waiting = []) := by
  refine ⟨_, _, ?_, ?_, orderSplit_arranged, fun h => ?_⟩
  · rw [outputOrder_of, List.map_append]
  · rw [outputOrder_of, List.map_map]
    rfl
  · rw [h.arranged_left, List.map_nil]

example :
    let g : Graph := {
      nodes := [{ id := "m", kind := .operation .mix }, { id := "r", kind := .operation .rotate },
        { id := "i", kind := .operation .invert }, { id := "p", kind := .output "inverted" },
        { id := "q", kind := .output "turned" }, { id := "o", kind := .output "mixed" },
        { id := "u", kind := .output "alone" }]
      edges := [connection "m" "r" none, connection "r" "m" none, connection "r" "i" none,
        connection "i" "p" none, connection "m" "o" none, connection "r" "q" none] }
    (Index.of g).outputOrder.order.map (·.id) = ["u", "p", "q", "o"] ∧
      (Index.of g).outputOrder.cycle = ["p", "q", "o"] := by
  decide

end Graph
end ColorGraph
