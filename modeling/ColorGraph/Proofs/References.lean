import ColorGraph.Proofs.Compilation
/-!
What the references in a style sheet lead to. Main statements: a reference to a node goes back to
the first declaration of that node, unless a later declaration takes the same name, and a rule block
whose names differ has no declaration that depends on itself.
-/

set_option autoImplicit false

namespace ColorGraph

open Compile

namespace Css.Expression

mutual

def references : Expression → List (NodeId × String)
  | literal _ => []
  | reference node name => [(node, name)]
  | operation _ inputs => referencesAll inputs

def referencesAll : List (Option Expression) → List (NodeId × String)
  | [] => []
  | none :: rest => referencesAll rest
  | some e :: rest => e.references ++ referencesAll rest

end

theorem mem_referencesAll {xs : List (Option Css.Expression)} {r : NodeId × String} :
    r ∈ referencesAll xs ↔ ∃ x, some x ∈ xs ∧ r ∈ x.references := by
  induction xs with
  | nil => simp [referencesAll]
  | cons x xs ih =>
    cases x with
    | none => simp [referencesAll, ih]
    | some x => simp [referencesAll, ih, or_and_right, exists_or]

end Css.Expression

namespace Tree

variable {α : Type}

@[simp]
def leaves : Tree α → List α
  | leaf a => [a]
  | missing _ => []
  | operation _ inputs => inputs.flatMap leaves

theorem mem_references {t : Tree Css.Expression} {x : Css.Expression} {r : NodeId × String}
    (hx : t.expression = some x) (hr : r ∈ x.references) : ∃ y ∈ t.leaves, r ∈ y.references := by
  induction t generalizing x with
  | leaf a =>
    rw [expression_leaf, Option.some.injEq] at hx
    subst hx
    exact ⟨a, by simp, hr⟩
  | missing cause => simp at hx
  | operation op inputs ih =>
    rw [expression_operation, Option.some.injEq] at hx
    subst hx
    rw [Css.Expression.references, Css.Expression.mem_referencesAll] at hr
    obtain ⟨y, hy, hr⟩ := hr
    obtain ⟨t, ht, hty⟩ := List.mem_map.1 hy
    obtain ⟨z, hz, hrz⟩ := ih t ht hty hr
    exact ⟨z, by simpa using ⟨t, ht, hz⟩, hrz⟩

end Tree

namespace Graph

variable {g : Graph} {o : Options}

theorem leaves_unfoldEdge {α : Type} {leaf? : Node → Option α} {order : SlotOrder}
    {path : List NodeId} (e : Edge) : (g.unfoldEdge leaf? order path e).leaves =
      (g.unfold leaf? order path e.source).leaves := by
  unfold unfoldEdge
  split
  · rfl
  next hn => rw [unfold_absent (Option.not_isSome_iff_eq_none.1 hn), Tree.leaves, Tree.leaves]

theorem leaf_of_mem_leaves_unfold {α : Type} {leaf? : Node → Option α} {order : SlotOrder}
    {path : List NodeId} {id : NodeId} {a : α} (h : a ∈ (g.unfold leaf? order path id).leaves) :
    ∃ n ∈ g.nodes, leaf? n = some a := by
  induction path, id using g.unfold_induction leaf? with
  | absent path id hn => simp [unfold_absent hn] at h
  | leaf path n b hn hb =>
    rw [unfold_leaf hn hb, Tree.leaves, List.mem_singleton] at h
    exact ⟨n, (mem_of_lastNode? hn).1, h ▸ hb⟩
  | cyclic path n hn hb hp => simp [unfold_cyclic hn hb hp] at h
  | operation path n op hn hb hp ho ih =>
    rw [unfold_operation hn hb hp ho, Tree.leaves, List.mem_flatMap] at h
    obtain ⟨t, ht, ha⟩ := h
    obtain ⟨e, _, rfl⟩ := List.mem_map.1 ht
    rw [leaves_unfoldEdge] at ha
    exact ih e ha
  | output path n hn hb hp ho ih =>
    rw [unfold_output hn hb hp ho] at h
    cases hpe : g.producerEdge? n.id with
    | none => simp [hpe] at h
    | some e =>
      rw [hpe, Option.map_some, Option.getD_some, leaves_unfoldEdge] at h
      exact ih e h

theorem name?_of_mem_references {name? : NodeId → Option String} {n : Node} {d : Definition}
    {q : NodeId} {name : String} (hd : g.outputDefinition? o name? n = some d)
    (hr : (q, name) ∈ d.value.references) : name? q = some name := by
  obtain ⟨y, hy, hry⟩ := Tree.mem_references (expression_of_outputDefinition? hd) hr
  obtain ⟨m, _, hm⟩ := leaf_of_mem_leaves_unfold hy
  obtain ⟨name', hname, rfl⟩ | ⟨_, _, _, rfl⟩ := Node.standIn?_eq_some_iff.1 hm
  · rw [Css.Expression.references, List.mem_singleton] at hry
    cases hry
    exact hname
  · simp [Css.Expression.references] at hry

end Graph

namespace Compile

/-- The definition at `j` is the first one of node `q`, the one that references to `q` are about. -/
def Declares (ds : List Definition) (q : NodeId) (j : Nat) : Prop :=
  ds.findIdx? (·.node == q) = some j

def DeclaredAs (ds : List Definition) (q : NodeId) (name : String) (j : Nat) : Prop :=
  Declares ds q j ∧ ds[j]?.map (·.name) = some name

structure Coherent (o : Options) (ds : List Definition) (name? : NodeId → Option String) :
    Prop where
  declared : ∀ q name, name? q = some name → ∃ j, DeclaredAs ds q name j
  references : ∀ i d q name, ds[i]? = some d → (q, name) ∈ d.value.references →
    ∃ j < i, DeclaredAs ds q name j
  bound : o.reuseBindings = true → ∀ d ∈ ds, (name? d.node).isSome

variable {ds : List Definition} {q : NodeId} {name : String} {j : Nat}

theorem DeclaredAs.lt (h : DeclaredAs ds q name j) : j < ds.length := by
  obtain ⟨d, hd, _⟩ := Option.map_eq_some_iff.1 h.2
  exact (List.getElem?_eq_some_iff.1 hd).1

theorem DeclaredAs.append (h : DeclaredAs ds q name j) (es : List Definition) :
    DeclaredAs (ds ++ es) q name j := by
  have hlt := h.lt
  obtain ⟨hfirst, hname⟩ := h
  constructor
  · rw [Declares, List.findIdx?_append, hfirst, Option.some_or]
  · rw [List.getElem?_append_left hlt, hname]

theorem declaredAs_concat {d : Definition} (h : ∀ e ∈ ds, e.node ≠ d.node) :
    DeclaredAs (ds ++ [d]) d.node d.name ds.length := by
  have hnone : ds.findIdx? (·.node == d.node) = none :=
    List.findIdx?_eq_none_iff.2 fun e he => beq_eq_false_iff_ne.2 (h e he)
  constructor
  · rw [Declares, List.findIdx?_append, hnone]
    simp [List.findIdx?_cons]
  · simp

theorem Coherent.concat {o : Options} {name? : NodeId → Option String} (h : Coherent o ds name?)
    {d : Definition} (hd : ∀ q name, (q, name) ∈ d.value.references → name? q = some name) :
    Coherent o (ds ++ [d]) fun q => (name? q).or
      (if o.reuseBindings = true ∧ q = d.node then some d.name else none) := by
  constructor
  · intro q name hq
    cases hold : name? q with
    | some old =>
      obtain rfl : old = name := by simpa [hold] using hq
      obtain ⟨j, hj⟩ := h.declared q old hold
      exact ⟨j, hj.append [d]⟩
    | none =>
      simp only [hold, Option.none_or] at hq
      split at hq
      next hnew =>
        obtain ⟨hre, rfl⟩ := hnew
        cases hq
        refine ⟨ds.length, declaredAs_concat fun e he hnode => ?_⟩
        have hbound := h.bound hre e he
        rw [hnode, hold] at hbound
        cases hbound
      · cases hq
  · intro i e q name hi hr
    obtain hi | ⟨rfl, rfl⟩ := getElem?_concat_cases hi
    · obtain ⟨j, hji, hj⟩ := h.references i e q name hi hr
      exact ⟨j, hji, hj.append [d]⟩
    · obtain ⟨j, hj⟩ := h.declared q name (hd q name hr)
      exact ⟨j, hj.lt, hj.append _⟩
  · intro hre e he
    obtain he | he := List.mem_append.1 he
    · have hbound := h.bound hre e he
      rw [Option.isSome_or, hbound, Bool.true_or]
    · rw [List.mem_singleton] at he
      subst he
      simp [hre]

end Compile

namespace Graph

variable {g : Graph} {o : Options}

theorem sourceName?_of_mem (hid : g.UniqueIds) {d : Definition} (hd : d ∈ g.sourceDefinitions o) :
    g.sourceName? o d.node = some d.name := by
  obtain ⟨n, hn, hnd⟩ := List.mem_filterMap.1 hd
  obtain ⟨hnode, hname, _⟩ := Node.eq_some_of_sourceDefinition? hnd
  rw [sourceName?, hnode, lastNode?_of_mem hid hn, Option.bind_some, hname]

theorem exists_sourceDefinition {q : NodeId} {name : String} (h : g.sourceName? o q = some name) :
    ∃ d ∈ g.sourceDefinitions o, d.node = q := by
  obtain ⟨n, hn, hname⟩ := Option.bind_eq_some_iff.1 h
  obtain ⟨hmem, rfl⟩ := mem_of_lastNode? hn
  obtain ⟨d, hd, _⟩ :=
    Option.map_eq_some_iff.1 ((Node.sourceDefinition?_name o n).trans hname)
  exact ⟨d, List.mem_filterMap.2 ⟨n, hmem, hd⟩, (Node.eq_some_of_sourceDefinition? hd).1⟩

theorem coherent_sources (hid : g.UniqueIds) :
    Coherent o (g.sourceDefinitions o) (g.sourceName? o) := by
  constructor
  · intro q name hq
    obtain ⟨d, hd, rfl⟩ := exists_sourceDefinition hq
    have hsome : ((g.sourceDefinitions o).findIdx? (·.node == d.node)).isSome := by
      rw [List.findIdx?_isSome, List.any_eq_true]
      exact ⟨d, hd, beq_self_eq_true _⟩
    obtain ⟨j, hj⟩ := Option.isSome_iff_exists.1 hsome
    obtain ⟨hlt, hnode, _⟩ := List.findIdx?_eq_some_iff_getElem.1 hj
    have hname := sourceName?_of_mem hid (List.getElem_mem hlt)
    rw [beq_iff_eq.1 hnode, hq, Option.some.injEq] at hname
    refine ⟨j, hj, ?_⟩
    rw [List.getElem?_eq_getElem hlt, Option.map_some, hname]
  · intro i d q name hi hr
    obtain ⟨n, _, hnd⟩ := List.mem_filterMap.1 (List.mem_of_getElem? hi)
    obtain ⟨_, _, text, _, hvalue⟩ := Node.eq_some_of_sourceDefinition? hnd
    simp [hvalue, Css.Expression.references] at hr
  · intro _ d hd
    rw [sourceName?_of_mem hid hd, Option.isSome_some]

theorem coherent_progressOf (hid : g.UniqueIds) (outputs : List Node) :
    Coherent o (g.progressOf o outputs).definitions (g.progressOf o outputs).bindings.name? := by
  refine progressOf_induction ?sources ?output outputs
  case sources =>
    rw [sourceProgress_name? hid]
    exact coherent_sources hid
  case output =>
    intro _ n d ih hd
    exact ih.concat fun q name => name?_of_mem_references hd

theorem value_of_named {name? : NodeId → Option String} {n : Node} {d : Definition} {name : String}
    (hd : g.outputDefinition? o name? n = some d) (hname : name? d.node = some name) :
    d.value = .reference d.node name := by
  have hvalue := expression_of_outputDefinition? hd
  cases hn : g.lastNode? d.node with
  | none => simp [unfold_absent hn] at hvalue
  | some m =>
    obtain ⟨_, hid⟩ := mem_of_lastNode? hn
    rw [← hid] at hname hn hvalue ⊢
    rw [unfold_leaf hn (Node.standIn?_named hname), Tree.expression_leaf] at hvalue
    exact (Option.some.inj hvalue).symm

theorem sourceDefinitions_pairwise (hid : g.UniqueIds) :
    (g.sourceDefinitions o).Pairwise (fun d e => d.node ≠ e.node) := by
  refine List.pairwise_filterMap.2 ((List.pairwise_map.1 hid).imp fun {m n} hmn d hd e he => ?_)
  rw [(Node.eq_some_of_sourceDefinition? hd).1, (Node.eq_some_of_sourceDefinition? he).1]
  exact hmn

/-- With reuse every definition of a node but the first is a reference to it. -/
theorem definitions_pairwise (hid : g.UniqueIds) (hre : o.reuseBindings = true) :
    (g.definitions o).Pairwise
      (fun d e => d.node = e.node → ∃ name, e.value = .reference e.node name) := by
  rw [definitions_eq]
  refine progressOf_induction ?sources ?output (Index.of g).outputOrder.order
  case sources => exact (sourceDefinitions_pairwise hid).imp fun hne heq => absurd heq hne
  case output =>
    intro outputs n d ih hd
    refine List.pairwise_append.2 ⟨ih, by simp, fun e he d' hd' hnode => ?_⟩
    obtain rfl : d' = d := by simpa using hd'
    have hbound := (coherent_progressOf hid outputs).bound hre e he
    rw [hnode] at hbound
    obtain ⟨name, hname⟩ := Option.isSome_iff_exists.1 hbound
    exact ⟨name, value_of_named hd hname⟩

end Graph

namespace Css

/-- The declaration that `var(--name)` means in a rule block: the last one of the name. -/
def Resolves (vs : List Variable) (name : String) (j : Nat) : Prop :=
  vs[j]?.map (·.name) = some ("--" ++ name) ∧
    ∀ k, j < k → vs[k]?.map (·.name) ≠ some ("--" ++ name)

theorem Resolves.unique {vs : List Variable} {name : String} {i j : Nat}
    (hi : Resolves vs name i) (hj : Resolves vs name j) : i = j := by
  obtain hlt | heq | hgt := Nat.lt_trichotomy i j
  · exact absurd hj.1 (hi.2 j hlt)
  · exact heq
  · exact absurd hi.1 (hj.2 i hgt)

end Css

namespace Graph

variable {g : Graph} {o : Options}

def ReferencesResolve (g : Graph) (o : Options) : Prop :=
  ∀ (i : Nat) (d : Definition) (q : NodeId) (name : String), (g.definitions o)[i]? = some d →
    (q, name) ∈ d.value.references →
      ∃ j, Declares (g.definitions o) q j ∧ Css.Resolves (g.compile o).variables name j

def Refers (g : Graph) (o : Options) (i k : Nat) : Prop :=
  ∃ (d : Definition) (q : NodeId) (name : String), (g.definitions o)[i]? = some d ∧
    (q, name) ∈ d.value.references ∧ Css.Resolves (g.compile o).variables name k

theorem getElem?_variables (j : Nat) : ((g.compile o).variables[j]?).map (·.name) =
    ((g.definitions o)[j]?).map fun d => "--" ++ d.name := by
  rw [compile_variables, List.getElem?_map, Option.map_map]
  rfl

theorem declaredAs_of_references (hid : g.UniqueIds) {i : Nat} {d : Definition} {q : NodeId}
    {name : String} (hd : (g.definitions o)[i]? = some d) (hr : (q, name) ∈ d.value.references) :
    ∃ j < i, Declares (g.definitions o) q j ∧
      (g.compile o).variables[j]?.map (·.name) = some ("--" ++ name) := by
  have hcoherent := coherent_progressOf (o := o) hid (Index.of g).outputOrder.order
  obtain ⟨j, hji, hfirst, hname⟩ := hcoherent.references i d q name hd hr
  obtain ⟨e, he, rfl⟩ := Option.map_eq_some_iff.1 hname
  refine ⟨j, hji, hfirst, ?_⟩
  rw [getElem?_variables, definitions_eq, he, Option.map_some]

theorem lt_of_refers (hid : g.UniqueIds) (h : g.ReferencesResolve o) {i k : Nat}
    (hik : g.Refers o i k) : k < i := by
  obtain ⟨d, q, name, hd, hr, hk⟩ := hik
  obtain ⟨j, hji, hfirst, _⟩ := declaredAs_of_references hid hd hr
  obtain ⟨j', hfirst', hj'⟩ := h i d q name hd hr
  obtain rfl : j = j' := Option.some.inj (hfirst.symm.trans hfirst')
  exact hj'.unique hk ▸ hji

/-- A reference goes back to the declaration of its node, whose name it has, and means it if no
later declaration has that name. When all do, nothing depends on itself. -/
theorem references_mean_declarations (hid : g.UniqueIds) :
    (∀ i d q name, (g.definitions o)[i]? = some d → (q, name) ∈ d.value.references →
      ∃ j < i, Declares (g.definitions o) q j ∧
        (g.compile o).variables[j]?.map (·.name) = some ("--" ++ name) ∧
        ((∀ k > j, (g.compile o).variables[k]?.map (·.name) ≠ some ("--" ++ name)) →
          Css.Resolves (g.compile o).variables name j)) ∧
      (g.ReferencesResolve o → ∀ i, ¬ Relation.TransGen (g.Refers o) i i) ∧
      (((g.compile o).variables.map (·.name)).Nodup → g.ReferencesResolve o) := by
  refine ⟨?_, ?_, ?_⟩
  · intro i d q name hd hr
    obtain ⟨j, hji, hfirst, hname⟩ := declaredAs_of_references hid hd hr
    exact ⟨j, hji, hfirst, hname, fun hlast => ⟨hname, hlast⟩⟩
  · intro h i hi
    have hlt : ∀ k, Relation.TransGen (g.Refers o) i k → k < i := by
      intro k hk
      induction hk with
      | single hik => exact lt_of_refers hid h hik
      | tail _ hjk ih => exact Nat.lt_trans (lt_of_refers hid h hjk) ih
    exact Nat.lt_irrefl i (hlt i hi)
  · intro hnodup i d q name hd hr
    obtain ⟨j, _, hfirst, hname⟩ := declaredAs_of_references hid hd hr
    refine ⟨j, hfirst, hname, fun k hjk hk => ?_⟩
    rw [← List.getElem?_map] at hname hk
    have hlen := (List.getElem?_eq_some_iff.1 hname).1
    have heq := (List.getElem?_inj hlen hnodup).1 (hname.trans hk.symm)
    omega

def mixedAndTurned : Graph where
  nodes := [{ id := "c", kind := .inputColor "base" "red" },
    { id := "m", kind := .operation .mix }, { id := "r", kind := .operation .rotate },
    { id := "p", kind := .output "turned" }, { id := "o", kind := .output "mixed" }]
  edges := [connection "c" "m" (some "a"), connection "m" "r" none, connection "r" "p" none,
    connection "m" "o" none]

theorem references_mean_declarations_mixedAndTurned :
    mixedAndTurned.UniqueIds ∧
      (∃ j < 2, Declares (mixedAndTurned.definitions {}) "m" j ∧
        (mixedAndTurned.compile {}).variables[j]?.map (·.name) = some "--mixed") ∧
      mixedAndTurned.ReferencesResolve {} ∧
      ∀ i, ¬ Relation.TransGen (mixedAndTurned.Refers {}) i i := by
  have hid : mixedAndTurned.UniqueIds := by decide
  obtain ⟨hrefs, hself, hnodup⟩ := references_mean_declarations (o := {}) hid
  have hall : mixedAndTurned.ReferencesResolve {} := hnodup (by decide)
  have hr : ("m", "mixed") ∈
      (Css.Expression.operation .rotate [some (.reference "m" "mixed")]).references := by
    simp [Css.Expression.references, Css.Expression.referencesAll]
  obtain ⟨j, hj, hfirst, hname, _⟩ := hrefs 2 ⟨"r", "turned", _⟩ "m" "mixed" rfl hr
  exact ⟨hid, ⟨j, hj, hfirst, hname⟩, hall, hself hall⟩

def namesakes : Graph where
  nodes := [{ id := "c", kind := .inputColor "x" "red" }, { id := "o", kind := .output "x" }]
  edges := [connection "c" "o" none]

theorem namesakes_refers_to_itself :
    namesakes.UniqueIds ∧ ¬ namesakes.ReferencesResolve {} ∧ namesakes.Refers {} 1 1 := by
  have hvars : (namesakes.compile {}).variables = [⟨"--x", "red"⟩, ⟨"--x", "var(--x)"⟩] := by
    decide
  have hlast : Css.Resolves (namesakes.compile {}).variables "x" 1 := by
    rw [hvars]
    refine ⟨rfl, fun k hk => ?_⟩
    rw [List.getElem?_eq_none (Nat.succ_le_of_lt hk)]
    simp
  have hr : ("c", "x") ∈ (Css.Expression.reference "c" "x").references := by
    simp [Css.Expression.references]
  have hd : (namesakes.definitions {})[1]? = some ⟨"c", "x", .reference "c" "x"⟩ := rfl
  refine ⟨by decide, fun h => ?_, _, _, _, hd, hr, hlast⟩
  obtain ⟨j, hfirst, hj⟩ := h 1 _ "c" "x" hd hr
  have hzero : j = 0 := Option.some.inj (hfirst.symm.trans rfl)
  have hone := hj.unique hlast
  omega

end Graph
end ColorGraph
