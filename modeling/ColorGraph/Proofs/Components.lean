import ColorGraph.Proofs.Locality
import ColorGraph.Proofs.OutputOrder
/-!
Parts of a graph that no edge joins to the rest. Main statements: taking such a part out of a graph
takes its definitions out of the graph's, and two graphs without a common id that are put together,
their lists interleaved in any way, have their variables interleaved.
-/

set_option autoImplicit false

namespace ColorGraph

open Compile

section

variable {α β : Type} {as bs cs : List α}

/-- `Interleaves as bs cs` when `cs` holds `as` and `bs`, each in its order. -/
inductive Interleaves : List α → List α → List α → Prop
  | nil : Interleaves [] [] []
  | left {as bs cs : List α} {a : α} : Interleaves as bs cs → Interleaves (a :: as) bs (a :: cs)
  | right {as bs cs : List α} {b : α} : Interleaves as bs cs → Interleaves as (b :: bs) (b :: cs)

namespace Interleaves

theorem symm (h : Interleaves as bs cs) : Interleaves bs as cs := by
  induction h with
  | nil => exact nil
  | left _ ih => exact right ih
  | right _ ih => exact left ih

theorem map (f : α → β) (h : Interleaves as bs cs) :
    Interleaves (as.map f) (bs.map f) (cs.map f) := by
  induction h with
  | nil => exact nil
  | left _ ih => exact left ih
  | right _ ih => exact right ih

theorem mem_or_mem {c : α} (h : Interleaves as bs cs) (hc : c ∈ cs) : c ∈ as ∨ c ∈ bs := by
  induction h with
  | nil => cases hc
  | left _ ih =>
    obtain rfl | hc := List.mem_cons.1 hc
    · exact .inl List.mem_cons_self
    · exact (ih hc).imp_left (List.mem_cons_of_mem _)
  | right _ ih =>
    obtain rfl | hc := List.mem_cons.1 hc
    · exact .inr List.mem_cons_self
    · exact (ih hc).imp_right (List.mem_cons_of_mem _)

theorem filter_eq {p : α → Bool} (h : Interleaves as bs cs) (hp : ∀ a ∈ as, p a = true)
    (hn : ∀ b ∈ bs, p b = false) : cs.filter p = as := by
  induction h with
  | nil => rfl
  | left _ ih =>
    obtain ⟨ha, has⟩ := List.forall_mem_cons.1 hp
    rw [List.filter_cons_of_pos ha, ih has hn]
  | right _ ih =>
    obtain ⟨hb, hbs⟩ := List.forall_mem_cons.1 hn
    rw [List.filter_cons_of_neg (by simp [hb]), ih hp hbs]

theorem filter_not (p : α → Bool) (cs : List α) :
    Interleaves (cs.filter p) (cs.filter (!p ·)) cs := by
  induction cs with
  | nil => exact nil
  | cons c cs ih =>
    cases hp : p c with
    | true => simpa [hp] using left ih
    | false => simpa [hp] using right ih

end Interleaves
end

namespace Graph

def part (g : Graph) (inside : NodeId → Bool) : Graph where
  nodes := g.nodes.filter (inside ·.id)
  edges := g.edges.filter (inside ·.target)

/-- No edge leads in or out. -/
def Separates (g : Graph) (inside : NodeId → Bool) : Prop :=
  ∀ e ∈ g.edges, inside e.source = inside e.target

variable {g : Graph} {inside : NodeId → Bool} {a b id : NodeId} {n m : Node}

theorem lastNode?_part (hid : inside id = true) :
    (g.part inside).lastNode? id = g.lastNode? id := by
  rw [lastNode?, lastNode?, part, ← List.filter_reverse, List.find?_filter]
  refine congrArg (fun p => List.find? p g.nodes.reverse) (funext fun n => ?_)
  by_cases h : n.id = id
  · simp [h, hid]
  · simp [h]

theorem edgesInto_part (hid : inside id = true) :
    (g.part inside).edgesInto id = g.edgesInto id := by
  rw [edgesInto, edgesInto, part, List.filter_filter]
  refine List.filter_congr fun e _ => ?_
  by_cases h : e.target = id
  · simp [h, hid]
  · simp [h]

theorem producerEdge?_part (hid : inside id = true) :
    (g.part inside).producerEdge? id = g.producerEdge? id := by
  rw [producerEdge?, producerEdge?, edgesInto_part hid]

theorem producer?_part (hid : inside id = true) :
    (g.part inside).producer? id = g.producer? id := by
  rw [producer?, producer?, producerEdge?_part hid]

theorem outputs_part : (Index.of (g.part inside)).outputs =
    (Index.of g).outputs.filter (inside ·.id) :=
  List.filter_comm _ _ _

theorem feeds_part (hb : inside b = true) : (g.part inside).Feeds a b ↔ g.Feeds a b := by
  refine exists_congr fun e => and_congr_left fun ⟨_, ht⟩ => ?_
  rw [part, List.mem_filter, ht]
  exact and_iff_left hb

namespace Separates

variable (hsep : g.Separates inside)

include hsep

theorem inside_eq (h : g.Feeds a b) : inside a = inside b := by
  obtain ⟨e, he, rfl, rfl⟩ := h
  exact hsep e he

theorem inside_eq_of_producer? {p : NodeId} (h : g.producer? id = some p) :
    inside p = inside id := by
  obtain ⟨e, he, rfl⟩ := Option.map_eq_some_iff.1 h
  exact hsep.inside_eq (feeds_of_producerEdge? he)

theorem inside_eq_of_upstream (h : g.Upstream a b) : inside a = inside b := by
  induction h with
  | single hf => exact hsep.inside_eq hf
  | tail _ hf ih => exact ih.trans (hsep.inside_eq hf)

theorem alikeOn_part (order : SlotOrder) :
    g.AlikeOn (g.part inside) order {id | inside id = true} :=
  alikeOn_of_edgesInto (fun hf hb => (hsep.inside_eq hf).trans hb)
    (fun _ hid => (lastNode?_part hid).symm) (fun _ hid => (edgesInto_part hid).symm)

theorem upstream_part (hb : inside b = true) : (g.part inside).Upstream a b ↔ g.Upstream a b := by
  constructor
  · intro h
    induction h with
    | single hf => exact .single ((feeds_part hb).1 hf)
    | tail _ hf ih =>
      have hf' := (feeds_part hb).1 hf
      exact .tail (ih ((hsep.inside_eq hf').trans hb)) hf'
  · intro h
    induction h with
    | single hf => exact .single ((feeds_part hb).2 hf)
    | tail _ hf ih => exact .tail (ih ((hsep.inside_eq hf).trans hb)) ((feeds_part hb).2 hf)

theorem waitsFor_part (hn : inside n.id = true) (hm : inside m.id = true) :
    (g.part inside).waitsFor n m = g.waitsFor n m := by
  rw [Bool.eq_iff_iff, waitsFor_iff, waitsFor_iff, DependsOn, DependsOn,
    producer?_part hn, producer?_part hm]
  refine and_congr_right fun _ => exists_congr fun p => exists_congr fun q => ?_
  refine and_congr_right fun hp => and_congr_right fun _ => ?_
  exact hsep.upstream_part ((hsep.inside_eq_of_producer? hp).trans hn)

/-- Outputs inside wait for no output outside. -/
theorem inside_eq_of_waitsFor (h : g.waitsFor n m = true) : inside n.id = inside m.id := by
  obtain ⟨_, p, q, hp, hq, hup⟩ := waitsFor_iff.1 h
  rw [← hsep.inside_eq_of_producer? hp, ← hsep.inside_eq_of_producer? hq,
    hsep.inside_eq_of_upstream hup]

/-- The outputs inside are arranged as they are in the whole, those left over included. -/
theorem arrangedOutputs_part : (g.part inside).arrangedOutputs =
    (g.arrangedOutputs.1.filter (inside ·.id), g.arrangedOutputs.2.filter (inside ·.id)) := by
  have hpart : ∀ n ∈ (Index.of g).outputs.filter (inside ·.id),
      ∀ m ∈ (Index.of g).outputs.filter (inside ·.id),
        (g.part inside).waitsFor n m = g.waitsFor n m :=
    fun n hn m hm => hsep.waitsFor_part (List.mem_filter.1 hn).2 (List.mem_filter.1 hm).2
  rw [arrangedOutputs, arrangedOutputs, outputs_part, OutputOrder.arrange_congr hpart]
  exact OutputOrder.arrange_filter (Nat.le_refl _) _ (Nat.le_refl _)
    fun n hn m _ hnm => (hsep.inside_eq_of_waitsFor hnm).symm.trans hn

theorem outputOrder_part : (Index.of (g.part inside)).outputOrder.order =
    (Index.of g).outputOrder.order.filter (inside ·.id) := by
  rw [outputOrder_eq, outputOrder_eq, hsep.arrangedOutputs_part, List.filter_append]

end Separates
end Graph

namespace Compile.Progress

structure HoldsPart (inside : NodeId → Bool) (whole part : Progress) : Prop where
  definitions : whole.definitions.filter (inside ·.node) = part.definitions
  names : ∀ id, inside id = true → whole.bindings.name? id = part.bindings.name? id

namespace HoldsPart

variable {g : Graph} {o : Options} {inside : NodeId → Bool} {whole part : Progress} {n : Node}
  {d? : Option Definition} {bs cs : Bindings} {log log' : Log}

theorem append (h : HoldsPart inside whole part) (hd : ∀ d ∈ d?, inside d.node = true)
    (hnames : ∀ id, inside id = true → bs.name? id = cs.name? id) :
    HoldsPart inside ⟨whole.definitions ++ d?.toList, bs, log⟩
      ⟨part.definitions ++ d?.toList, cs, log'⟩ where
  definitions := by
    have hkept : d?.toList.filter (inside ·.node) = d?.toList :=
      List.filter_eq_self.2 fun d hmem => hd d (Option.mem_toList.1 hmem)
    rw [List.filter_append, h.definitions, hkept]
  names := hnames

theorem append_outside (h : HoldsPart inside whole part) (hd : ∀ d ∈ d?, inside d.node = false)
    (hnames : ∀ id, inside id = true → bs.name? id = whole.bindings.name? id) :
    HoldsPart inside ⟨whole.definitions ++ d?.toList, bs, log⟩ part where
  definitions := by
    have hdropped : d?.toList.filter (inside ·.node) = [] :=
      List.filter_eq_nil_iff.2 fun d hmem => by simp [hd d (Option.mem_toList.1 hmem)]
    rw [List.filter_append, h.definitions, hdropped, List.append_nil]
  names id hid := (hnames id hid).trans (h.names id hid)

theorem addSource (h : HoldsPart inside whole part) (n : Node) :
    HoldsPart inside (whole.addSource o n) (if inside n.id then part.addSource o n else part) := by
  have hnode : ∀ d ∈ n.sourceDefinition? o, inside d.node = inside n.id :=
    fun d hd => congrArg inside (Node.eq_some_of_sourceDefinition? hd).1
  rw [addSource_eq, addSource_eq]
  cases hn : inside n.id with
  | true =>
    refine h.append (fun d hd => (hnode d hd).trans hn) fun id hid => ?_
    cases n.sourceName? o with
    | none => exact h.names id hid
    | some name => simp only [Option.elim_some, Bindings.name?_set, h.names id hid]
  | false =>
    refine h.append_outside (fun d hd => (hnode d hd).trans hn) fun id hid => ?_
    cases n.sourceName? o with
    | none => rfl
    | some name =>
      have hne : id ≠ n.id := fun he => by rw [he, hn] at hid; cases hid
      rw [Option.elim_some, Bindings.name?_set, if_neg hne]

theorem addOutput (hsep : g.Separates inside) (h : HoldsPart inside whole part) (n : Node) :
    HoldsPart inside (whole.addOutput (Index.of g) o n)
      (if inside n.id then part.addOutput (Index.of (g.part inside)) o n else part) := by
  have hnode : ∀ d ∈ g.outputDefinition? o whole.bindings.name? n, inside d.node = inside n.id :=
    fun d hd => hsep.inside_eq_of_producer? (Graph.eq_some_of_outputDefinition? hd).2.1
  cases hn : inside n.id with
  | true =>
    have hedge : g.producerEdge? n.id = (g.part inside).producerEdge? n.id :=
      (Graph.producerEdge?_part hn).symm
    have hsame : g.outputDefinition? o whole.bindings.name? n =
        (g.part inside).outputDefinition? o part.bindings.name? n :=
      (hsep.alikeOn_part o.slotOrder).outputDefinition?_eq h.names hn hedge
    rw [addOutput_eq, if_pos rfl, addOutput_eq, ← hsame]
    refine h.append (fun d hd => (hnode d hd).trans hn) fun id hid => ?_
    cases g.outputDefinition? o whole.bindings.name? n with
    | none => exact h.names id hid
    | some d => simp only [Option.elim_some, Bindings.name?_setNew_if, h.names id hid]
  | false =>
    rw [addOutput_eq]
    refine h.append_outside (fun d hd => (hnode d hd).trans hn) fun id hid => ?_
    cases hd : g.outputDefinition? o whole.bindings.name? n with
    | none => rfl
    | some d =>
      have hne : id ≠ d.node := fun he => by
        rw [he, hnode d hd, hn] at hid
        cases hid
      simp [Bindings.name?_setNew_if, hne]

end HoldsPart
end Compile.Progress

namespace Graph

variable {g g₁ g₂ : Graph} {inside : NodeId → Bool} {o : Options}

theorem Separates.holdsPart_sources (g : Graph) (inside : NodeId → Bool) (o : Options) :
    Progress.HoldsPart inside (g.sourceProgress o) ((g.part inside).sourceProgress o) := by
  rw [sourceProgress, sourceProgress, part, List.foldl_filter]
  exact List.foldl_rel ⟨rfl, fun _ _ => rfl⟩ fun n _ _ _ h => h.addSource n

theorem Separates.holdsPart_progressOf (hsep : g.Separates inside) (o : Options)
    (outputs : List Node) :
    Progress.HoldsPart inside (g.progressOf o outputs)
      ((g.part inside).progressOf o (outputs.filter (inside ·.id))) := by
  rw [progressOf, progressOf, List.foldl_filter]
  exact List.foldl_rel (Separates.holdsPart_sources g inside o) fun n _ _ _ h => h.addOutput hsep n

/-- The definitions of a part are those of the whole with their nodes inside. -/
theorem Separates.definitions_part (hsep : g.Separates inside) (o : Options) :
    (g.part inside).definitions o = (g.definitions o).filter (inside ·.node) := by
  rw [definitions_eq, definitions_eq, hsep.outputOrder_part]
  exact (hsep.holdsPart_progressOf o _).definitions.symm

def ids (g : Graph) : List NodeId :=
  g.nodes.map (·.id) ++ (g.edges.map (·.source) ++ g.edges.map (·.target))

theorem id_mem_ids {n : Node} (hn : n ∈ g.nodes) : n.id ∈ g.ids :=
  List.mem_append_left _ (List.mem_map_of_mem hn)

theorem source_mem_ids {e : Edge} (he : e ∈ g.edges) : e.source ∈ g.ids :=
  List.mem_append_right _ (List.mem_append_left _ (List.mem_map_of_mem he))

theorem target_mem_ids {e : Edge} (he : e ∈ g.edges) : e.target ∈ g.ids :=
  List.mem_append_right _ (List.mem_append_right _ (List.mem_map_of_mem he))

theorem part_eq (hnodes : Interleaves g₁.nodes g₂.nodes g.nodes)
    (hedges : Interleaves g₁.edges g₂.edges g.edges) (h₁ : ∀ id ∈ g₁.ids, inside id = true)
    (h₂ : ∀ id ∈ g₂.ids, inside id = false) : g.part inside = g₁ := by
  rw [part, hnodes.filter_eq (fun n hn => h₁ _ (id_mem_ids hn)) fun n hn => h₂ _ (id_mem_ids hn),
    hedges.filter_eq (fun e he => h₁ _ (target_mem_ids he)) fun e he => h₂ _ (target_mem_ids he)]

theorem separates_of_interleaves (hedges : Interleaves g₁.edges g₂.edges g.edges)
    (h₁ : ∀ id ∈ g₁.ids, inside id = true) (h₂ : ∀ id ∈ g₂.ids, inside id = false) :
    g.Separates inside := by
  intro e he
  obtain he | he := hedges.mem_or_mem he
  · rw [h₁ _ (source_mem_ids he), h₁ _ (target_mem_ids he)]
  · rw [h₂ _ (source_mem_ids he), h₂ _ (target_mem_ids he)]

/-- Graphs without a common id do not touch each other's variables when they are put together. -/
theorem compile_variables_interleaves (hids : g₁.ids.Disjoint g₂.ids)
    (hnodes : Interleaves g₁.nodes g₂.nodes g.nodes)
    (hedges : Interleaves g₁.edges g₂.edges g.edges) (o : Options) :
    Interleaves (g₁.compile o).variables (g₂.compile o).variables (g.compile o).variables := by
  let inside : NodeId → Bool := fun id => decide (id ∈ g₁.ids)
  have h₁ : ∀ id ∈ g₁.ids, inside id = true := fun id hid => decide_eq_true hid
  have h₂ : ∀ id ∈ g₂.ids, inside id = false := fun id hid => decide_eq_false fun h => hids h hid
  have hsep : g.Separates inside := separates_of_interleaves hedges h₁ h₂
  have hsep' : g.Separates (!inside ·) := fun e he => congrArg not (hsep e he)
  have hpart₁ : g.part inside = g₁ := part_eq hnodes hedges h₁ h₂
  have hpart₂ : g.part (!inside ·) = g₂ :=
    part_eq hnodes.symm hedges.symm (fun id hid => by rw [h₂ id hid]; rfl)
      fun id hid => by rw [h₁ id hid]; rfl
  have hd₁ := hsep.definitions_part o
  have hd₂ := hsep'.definitions_part o
  rw [hpart₁] at hd₁
  rw [hpart₂] at hd₂
  rw [compile_variables, compile_variables, compile_variables, hd₁, hd₂]
  exact (Interleaves.filter_not _ _).map _

def wheel : Graph where
  nodes := [{ id := "c", kind := .inputColor "base" "red" }, { id := "m", kind := .operation .mix },
    { id := "r", kind := .operation .rotate }, { id := "o", kind := .output "mixed" },
    { id := "p", kind := .output "turned" }]
  edges := [connection "c" "m" (some "a"), connection "r" "m" (some "b"), connection "m" "r" none,
    connection "m" "o" none, connection "r" "p" none]

def eddy : Graph where
  nodes := [{ id := "k", kind := .inputColor "accent" "blue" },
    { id := "v", kind := .operation .invert }, { id := "w", kind := .operation .rotate },
    { id := "q", kind := .output "mixed" }, { id := "t", kind := .output "inverted" }]
  edges := [connection "w" "v" (some "b"), connection "v" "w" none, connection "k" "v" (some "a"),
    connection "v" "q" none, connection "k" "t" none]

def wheelAndEddy : Graph where
  nodes := [{ id := "c", kind := .inputColor "base" "red" },
    { id := "k", kind := .inputColor "accent" "blue" }, { id := "m", kind := .operation .mix },
    { id := "v", kind := .operation .invert }, { id := "r", kind := .operation .rotate },
    { id := "w", kind := .operation .rotate }, { id := "o", kind := .output "mixed" },
    { id := "q", kind := .output "mixed" }, { id := "p", kind := .output "turned" },
    { id := "t", kind := .output "inverted" }]
  edges := [connection "c" "m" (some "a"), connection "w" "v" (some "b"),
    connection "r" "m" (some "b"), connection "v" "w" none, connection "m" "r" none,
    connection "k" "v" (some "a"), connection "m" "o" none, connection "v" "q" none,
    connection "r" "p" none, connection "k" "t" none]

theorem compile_variables_interleaves_wheelAndEddy :
    ¬ wheel.Acyclic ∧ ¬ eddy.Acyclic ∧ wheel.ids.Disjoint eddy.ids ∧
      Interleaves wheel.nodes eddy.nodes wheelAndEddy.nodes ∧
      Interleaves wheel.edges eddy.edges wheelAndEddy.edges ∧
      (wheelAndEddy.compile {}).variables.map (·.name) =
        ["--base", "--accent", "--inverted", "--mixed", "--mixed", "--turned"] ∧
      Interleaves (wheel.compile {}).variables (eddy.compile {}).variables
        (wheelAndEddy.compile {}).variables := by
  have hids : wheel.ids.Disjoint eddy.ids := List.disjoint_left.2 (by decide)
  have hnodes : Interleaves wheel.nodes eddy.nodes wheelAndEddy.nodes :=
    .left (.right (.left (.right (.left (.right (.left (.right (.left (.right .nil)))))))))
  have hedges : Interleaves wheel.edges eddy.edges wheelAndEddy.edges :=
    .left (.right (.left (.right (.left (.right (.left (.right (.left (.right .nil)))))))))
  exact ⟨by decide, by decide, hids, hnodes, hedges, by decide,
    compile_variables_interleaves hids hnodes hedges {}⟩

end Graph
end ColorGraph
