import ColorGraph.Proofs.Locality
import ColorGraph.Proofs.OutputOrder
/-!
Nodes that a later node has the id of. Main statement: leaving them out, outputs apart, changes no
preview, and it changes what an output comes to only where the walk back from it meets an id whose
last node is no named source while an earlier one is. Such an id keeps the name of the earlier node.
-/

set_option autoImplicit false

namespace ColorGraph

open Compile Relation

namespace Node

variable {o : Options} {n : Node} {ns : List Node} {id : NodeId}

def isNamedSource (n : Node) : Bool :=
  match n.kind with
  | .inputColor name _ | .inputNumber name _ => name != ""
  | _ => false

theorem isSome_sourceName? (o : Options) (n : Node) :
    (n.sourceName? o).isSome = n.isNamedSource := by
  unfold sourceName? isNamedSource
  cases n.kind with
  | inputColor name color => by_cases h : name = "" <;> simp [h]
  | inputNumber name value => by_cases h : name = "" <;> simp [h]
  | _ => rfl

theorem isOutput_of_isNamedSource (h : n.isNamedSource = true) : n.kind.isOutput = false := by
  unfold isNamedSource at h
  cases hk : n.kind <;> simp [hk, Kind.isOutput] at h ⊢

/-- Leaves out each node but outputs that a later node has the id of. -/
def dropShadowed : List Node → List Node
  | [] => []
  | n :: ns =>
    if !n.kind.isOutput && ns.any (·.id == n.id) then dropShadowed ns else n :: dropShadowed ns

theorem find?_reverse_dropShadowed (ns : List Node) (id : NodeId) :
    (dropShadowed ns).reverse.find? (·.id == id) = ns.reverse.find? (·.id == id) := by
  induction ns with
  | nil => rfl
  | cons n ns ih =>
    rw [List.reverse_cons, List.find?_append]
    unfold dropShadowed
    split
    next h =>
      obtain ⟨m, hm, hid⟩ := List.any_eq_true.1 (Bool.and_eq_true_iff.1 h).2
      rw [ih]
      by_cases hn : n.id = id
      · have hsome : (ns.reverse.find? (·.id == id)).isSome := by
          rw [List.find?_isSome]
          exact ⟨m, List.mem_reverse.2 hm, hn ▸ hid⟩
        obtain ⟨l, hl⟩ := Option.isSome_iff_exists.1 hsome
        rw [hl, Option.some_or]
      · simp [hn]
    next => rw [List.reverse_cons, List.find?_append, ih]

theorem filter_isOutput_dropShadowed (ns : List Node) :
    (dropShadowed ns).filter (·.kind.isOutput) = ns.filter (·.kind.isOutput) := by
  induction ns with
  | nil => rfl
  | cons n ns ih =>
    unfold dropShadowed
    split
    next h =>
      have ho : n.kind.isOutput = false := by simpa using (Bool.and_eq_true_iff.1 h).1
      rw [List.filter_cons_of_neg (by simp [ho]), ih]
    next => rw [List.filter_cons, List.filter_cons, ih]

theorem find?_reverse_of_mem_dropShadowed (hn : n ∈ dropShadowed ns)
    (ho : n.kind.isOutput = false) : ns.reverse.find? (·.id == n.id) = some n := by
  induction ns with
  | nil => cases hn
  | cons m ns ih =>
    rw [List.reverse_cons, List.find?_append]
    unfold dropShadowed at hn
    split at hn
    next => rw [ih hn, Option.some_or]
    next h =>
      obtain rfl | hn := List.mem_cons.1 hn
      · have hnone : ns.reverse.find? (·.id == n.id) = none := by
          rw [ho, Bool.not_false, Bool.true_and] at h
          refine List.find?_eq_none.2 fun m hm hid => h ?_
          exact List.any_eq_true.2 ⟨m, List.mem_reverse.1 hm, hid⟩
        rw [hnone, Option.none_or]
        simp
      · rw [ih hn, Option.some_or]

end Node

namespace Graph

variable {g : Graph} {o : Options} {order : SlotOrder} {id p : NodeId} {n : Node}

def definitionAt? (g : Graph) (o : Options) (i : Nat) : Option Definition := do
  let outputs := (Index.of g).outputOrder.order
  let n ← outputs[i]?
  g.outputDefinition? o (g.progressOf o (outputs.take i)).bindings.name? n

theorem progressOf_take_definitions (i : Nat) :
    (g.progressOf o ((Index.of g).outputOrder.order.take i)).definitions =
      g.sourceDefinitions o ++ (List.range i).filterMap (g.definitionAt? o) := by
  induction i with
  | zero =>
    rw [List.take_zero, progressOf_nil, sourceProgress_definitions, List.range_zero,
      List.filterMap_nil, List.append_nil]
  | succ i ih =>
    rw [List.range_succ, List.filterMap_append, ← List.append_assoc, ← ih, List.take_add_one]
    cases hi : (Index.of g).outputOrder.order[i]? with
    | none =>
      have hnone : g.definitionAt? o i = none := by simp [definitionAt?, hi]
      simp [hnone]
    | some n =>
      have hsome : g.definitionAt? o i = g.outputDefinition? o
          (g.progressOf o ((Index.of g).outputOrder.order.take i)).bindings.name? n := by
        simp [definitionAt?, hi]
      rw [Option.toList_some, progressOf_append, Progress.addOutput_eq, List.filterMap_cons, hsome]
      cases g.outputDefinition? o _ n <;> rfl

theorem compile_variables_eq (g : Graph) (o : Options) : (g.compile o).variables =
    (g.sourceDefinitions o ++ (List.range (Index.of g).outputOrder.order.length).filterMap
      (g.definitionAt? o)).map Definition.toVariable := by
  rw [compile_variables, definitions_eq, ← progressOf_take_definitions, List.take_length]

def withoutShadowed (g : Graph) : Graph :=
  { g with nodes := Node.dropShadowed g.nodes }

theorem lastNode?_withoutShadowed (g : Graph) (id : NodeId) :
    g.withoutShadowed.lastNode? id = g.lastNode? id :=
  Node.find?_reverse_dropShadowed g.nodes id

theorem outputs_withoutShadowed (g : Graph) :
    (Index.of g.withoutShadowed).outputs = (Index.of g).outputs :=
  Node.filter_isOutput_dropShadowed g.nodes

theorem waitsFor_withoutShadowed (g : Graph) (a b : Node) :
    g.withoutShadowed.waitsFor a b = g.waitsFor a b := by
  rw [Bool.eq_iff_iff, waitsFor_iff, waitsFor_iff]
  rfl

theorem outputOrder_withoutShadowed (g : Graph) :
    (Index.of g.withoutShadowed).outputOrder = (Index.of g).outputOrder := by
  have harranged : g.withoutShadowed.arrangedOutputs = g.arrangedOutputs := by
    rw [arrangedOutputs, arrangedOutputs, outputs_withoutShadowed]
    exact OutputOrder.arrange_congr fun a _ b _ => waitsFor_withoutShadowed g a b
  rw [outputOrder_eq, outputOrder_eq, harranged]

theorem alikeOn_withoutShadowed (g : Graph) (order : SlotOrder) :
    g.AlikeOn g.withoutShadowed order Set.univ :=
  alikeOn_of_edgesInto (fun _ _ => Set.mem_univ _)
    (fun id _ => (lastNode?_withoutShadowed g id).symm) fun _ _ => rfl

/-- An earlier node with the id is a named source, and the last one is none. -/
def Stale (g : Graph) (id : NodeId) : Prop :=
  (∃ n ∈ g.nodes, n.id = id ∧ n.isNamedSource = true) ∧
    ∀ n ∈ g.lastNode? id, n.isNamedSource = false

instance (g : Graph) (id : NodeId) : Decidable (g.Stale id) :=
  inferInstanceAs (Decidable (_ ∧ _))

/-- No walk back from the id comes to a stale one, itself included. -/
def Current (g : Graph) (id : NodeId) : Prop :=
  ∀ x, ReflTransGen g.Leads x id → ¬ g.Stale x

theorem current_of_upstream (hid : ¬ g.Stale id)
    (h : ∀ n ∈ g.nodes, g.Stale n.id → ¬ g.Upstream n.id id) : g.Current id := by
  intro x hwalk hstale
  obtain rfl | hwalk := reflTransGen_iff_eq_or_transGen.1 hwalk
  · exact hid hstale
  · obtain ⟨n, hn, rfl, _⟩ := hstale.1
    exact h n hn hstale (TransGen.mono (fun _ _ => Leads.feeds) _ _ hwalk)

theorem sameWalks_withoutShadowed (g : Graph) (order : SlotOrder) :
    g.SameWalks g.withoutShadowed order {id | g.Current id} where
  closed hleads hcurrent x hwalk := hcurrent x (hwalk.tail hleads)
  node id _ := (lastNode?_withoutShadowed g id).symm
  edges _ _ _ := rfl

theorem boundName?_of_not_stale (h : ¬ g.Stale id) : g.boundName? o id = g.sourceName? o id := by
  refine boundName?_eq_sourceName? fun n hn hid hname => ?_
  rw [Node.isSome_sourceName?] at hname
  by_contra hnone
  refine h ⟨⟨n, hn, hid, hname⟩, fun m hm => ?_⟩
  rw [sourceName?, hm, Option.bind_some, Node.isSome_sourceName?] at hnone
  exact Bool.eq_false_iff.2 hnone

theorem not_stale_withoutShadowed (g : Graph) (id : NodeId) : ¬ g.withoutShadowed.Stale id := by
  rintro ⟨⟨n, hn, rfl, hname⟩, hlast⟩
  have ho := Node.isOutput_of_isNamedSource hname
  have hfind := Node.find?_reverse_of_mem_dropShadowed hn ho
  rw [← Node.find?_reverse_dropShadowed] at hfind
  rw [hlast n hfind] at hname
  cases hname

theorem sourceProgress_withoutShadowed (h : ¬ g.Stale id) :
    (g.withoutShadowed.sourceProgress o).bindings.name? id =
      (g.sourceProgress o).bindings.name? id := by
  rw [sourceProgress_boundName?, sourceProgress_boundName?, boundName?_of_not_stale h,
    boundName?_of_not_stale (not_stale_withoutShadowed g id), sourceName?, sourceName?,
    lastNode?_withoutShadowed]

/-- Ids that are current have the same names all along. -/
theorem name?_progressOf_withoutShadowed (outputs : List Node) (hid : g.Current id) :
    (g.withoutShadowed.progressOf o outputs).bindings.name? id =
      (g.progressOf o outputs).bindings.name? id := by
  induction outputs using List.reverseRecOn generalizing id with
  | nil => exact sourceProgress_withoutShadowed (hid id .refl)
  | append_singleton outputs n ih =>
    rw [progressOf_append, progressOf_append]
    by_cases hp : ∀ p, g.producer? n.id = some p → g.Current p
    · have hsame := (sameWalks_withoutShadowed g o.slotOrder).outputDefinition?_eq
        (fun id hid => (ih hid).symm) hp rfl
      rw [Progress.name?_addOutput, Progress.name?_addOutput, ih hid, hsame]
    · simp only [not_forall] at hp
      obtain ⟨p, hp, hstale⟩ := hp
      have hne : ∀ q, g.producer? n.id = some q → id ≠ q := by
        intro q hq he
        obtain rfl : p = q := Option.some.inj (hp.symm.trans hq)
        exact hstale (he ▸ hid)
      rw [Progress.name?_addOutput_of_ne (g := g.withoutShadowed) _ hne,
        Progress.name?_addOutput_of_ne (g := g) _ hne, ih hid]

theorem name?_progressOf_of_boundName? {name : String} (h : g.boundName? o id = some name)
    (outputs : List Node) : (g.progressOf o outputs).bindings.name? id = some name := by
  induction outputs using List.reverseRecOn with
  | nil =>
    rw [progressOf_nil, sourceProgress_boundName?, h]
  | append_singleton outputs n ih =>
    rw [progressOf_append, Progress.name?_addOutput, ih, Option.some_or]

theorem exists_lastNode?_of_boundName? {name : String} (h : g.boundName? o id = some name) :
    ∃ n, g.lastNode? id = some n := by
  obtain ⟨n, hn, hname⟩ := List.exists_of_findSome?_eq_some h
  have hid : n.id = id := by
    by_contra hne
    rw [if_neg hne] at hname
    cases hname
  have hsome : (g.nodes.reverse.find? (·.id == id)).isSome :=
    List.find?_isSome.2 ⟨n, hn, beq_iff_eq.2 hid⟩
  exact Option.isSome_iff_exists.1 hsome

theorem outputDefinition?_of_name? {name? : NodeId → Option String} {name known : String}
    (hname : n.outputName? o = some name) (hp : g.producer? n.id = some p)
    (hlast : ∃ m, g.lastNode? p = some m) (hknown : name? p = some known) :
    g.outputDefinition? o name? n = some ⟨p, name, .reference p known⟩ := by
  obtain ⟨e, he, rfl⟩ := Option.map_eq_some_iff.1 hp
  obtain ⟨m, hm⟩ := hlast
  obtain ⟨_, hid⟩ := mem_of_lastNode? hm
  rw [← hid] at hm hknown
  have hvalue : (g.outputTree name? o.slotOrder n).expression = some (.reference m.id known) := by
    rw [outputTree_of_name hname he, expression_unfoldEdge, ← hid,
      unfold_leaf hm (Node.standIn?_named hknown), Tree.expression_leaf]
  simp [outputDefinition?, hname, hp, hvalue, hid]

/-- Without the nodes that a later node has the id of, outputs apart, the order of the outputs and all
previews are the same. An output comes to the same, too, when no walk back from it meets a stale id.
But an output of a node whose id a named source has refers to the last such source, even where the
id does not stand for it. -/
theorem definitionAt?_withoutShadowed (g : Graph) (o : Options) :
    (g.compile o).variables =
      (g.sourceDefinitions o ++ (List.range (Index.of g).outputOrder.order.length).filterMap
        (g.definitionAt? o)).map Definition.toVariable ∧
    (Index.of g.withoutShadowed).outputOrder = (Index.of g).outputOrder ∧
    (∀ order id, g.withoutShadowed.preview order id = g.preview order id) ∧
    (∀ i n, (Index.of g).outputOrder.order[i]? = some n →
      (∀ p, g.producer? n.id = some p → g.Current p) →
      g.withoutShadowed.definitionAt? o i = g.definitionAt? o i) ∧
    ∀ i n name p shadowed, (Index.of g).outputOrder.order[i]? = some n →
      n.outputName? o = some name → g.producer? n.id = some p →
      g.boundName? o p = some shadowed →
      g.definitionAt? o i = some ⟨p, name, .reference p shadowed⟩ := by
  have horder := outputOrder_withoutShadowed g
  refine ⟨compile_variables_eq g o, horder, fun order id => ?_, fun i n hn hp => ?_,
    fun i n name p shadowed hn hname hp hbound => ?_⟩
  · exact ((alikeOn_withoutShadowed g order).preview_eq (Set.mem_univ id)).symm
  · have hsame := (sameWalks_withoutShadowed g o.slotOrder).outputDefinition?_eq
      (fun id hid => (name?_progressOf_withoutShadowed (o := o)
        ((Index.of g).outputOrder.order.take i) hid).symm) hp rfl
    simp only [definitionAt?, horder, hn, Option.bind_eq_bind, Option.bind_some, hsame]
  · have hknown := name?_progressOf_of_boundName? hbound ((Index.of g).outputOrder.order.take i)
    have hlast := exists_lastNode?_of_boundName? hbound
    simp only [definitionAt?, hn, Option.bind_eq_bind, Option.bind_some]
    exact outputDefinition?_of_name? hname hp hlast hknown

/-- A red with a blue without a name under its id, which two outputs under one id show, and a green
with an operation and a lime before it under its id, whose lighter shade is an output. -/
def repainted : Graph where
  nodes := [{ id := "c", kind := .inputColor "a" "red" }, { id := "k", kind := .operation .mix },
    { id := "o", kind := .output "old" }, { id := "c", kind := .inputColor "" "blue" },
    { id := "k", kind := .inputColor "" "lime" }, { id := "k", kind := .inputColor "b" "green" },
    { id := "o", kind := .output "new" }, { id := "l", kind := .operation .lighten },
    { id := "p", kind := .output "pale" }]
  edges := [connection "c" "o" none, connection "k" "l" none, connection "l" "p" none]

/-- The outputs of the blue refer to the red, which is left out on the other side. -/
theorem definitionAt?_withoutShadowed_repainted :
    repainted.Stale "c" ∧ repainted.Current "l" ∧
      repainted.withoutShadowed.definitionAt? {} 2 = repainted.definitionAt? {} 2 ∧
      repainted.definitionAt? {} 0 = some ⟨"c", "old", .reference "c" "a"⟩ ∧
      (repainted.compile {}).variables = [⟨"--a", "red"⟩, ⟨"--b", "green"⟩,
        ⟨"--old", "var(--a)"⟩, ⟨"--new", "var(--a)"⟩,
        ⟨"--pale", "oklch(from var(--b) calc(l + 0.1) c h)"⟩] ∧
      (repainted.withoutShadowed.compile {}).variables = [⟨"--b", "green"⟩, ⟨"--old", "blue"⟩,
        ⟨"--new", "var(--old)"⟩, ⟨"--pale", "oklch(from var(--b) calc(l + 0.1) c h)"⟩] := by
  have hcurrent : repainted.Current "l" := current_of_upstream (by decide) (by decide)
  obtain ⟨-, -, -, hsame, hstale⟩ := definitionAt?_withoutShadowed repainted {}
  refine ⟨by decide, hcurrent, ?_, ?_, by decide, by decide⟩
  · refine hsame 2 { id := "p", kind := .output "pale" } rfl fun p hp => ?_
    obtain rfl : "l" = p := Option.some.inj hp
    exact hcurrent
  · exact hstale 0 { id := "o", kind := .output "old" } "old" "c" "a" rfl rfl rfl (by decide)

end Graph
end ColorGraph
