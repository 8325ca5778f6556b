import ColorGraph.Proofs.References
import ColorGraph.Proofs.SharedTree
/-!
What values are made of. Main statement: on every graph the value of a variable comes from the
grammar of values, over the literals of the graph's sources and the names of earlier variables.
-/

set_option autoImplicit false

namespace ColorGraph

open Compile

namespace Css

/-- The grammar of values. A missing operand has the default literal of the operation. -/
inductive Derives (source declared : String → Prop) : String → Prop
  | literal {t : String} (h : source t) : Derives source declared t
  | reference {name : String} (h : declared name) :
    Derives source declared ("var(--" ++ name ++ ")")
  | adjustment {op : Operation} {amount : Float} (ho : op.defaultAmount = some amount)
    {color shift : Option String} (hc : ∀ t, color = some t → Derives source declared t)
    (hs : ∀ t, shift = some t → Derives source declared t) : Derives source declared
      (op.adjustmentText (color.getD defaultColor) (shift.getD (Decimal.plain.text amount)))
  | arithmetic {op : Operation} {first second : String}
    (ho : op.cssOperands = some (first, second)) {x y : Option String}
    (hx : ∀ t, x = some t → Derives source declared t)
    (hy : ∀ t, y = some t → Derives source declared t) : Derives source declared
      ("calc(" ++ x.getD first ++ " " ++ op.arithmeticSign ++ " " ++ y.getD second ++ ")")
  | mix {x y : String} (hx : Derives source declared x) (hy : Derives source declared y) :
    Derives source declared ("color-mix(in oklch, " ++ x ++ ", " ++ y ++ ")")
  | unmixed : Derives source declared defaultColor
  | invert {color : Option String} (hc : ∀ t, color = some t → Derives source declared t) :
    Derives source declared ("oklch(from " ++ color.getD defaultColor ++ " calc(1 - l) c h)")
  | complementary {color : Option String}
    (hc : ∀ t, color = some t → Derives source declared t) :
    Derives source declared ("oklch(from " ++ color.getD defaultColor ++ " l c calc(h + 180))")

variable {source declared declared' : String → Prop}

theorem Derives.mono {t : String} (h : Derives source declared t)
    (hd : ∀ name, declared name → declared' name) : Derives source declared' t := by
  induction h with
  | literal h => exact .literal h
  | reference h => exact .reference (hd _ h)
  | adjustment ho _ _ ihc ihs => exact .adjustment ho ihc ihs
  | arithmetic ho _ _ ihx ihy => exact .arithmetic ho ihx ihy
  | mix _ _ ihx ihy => exact .mix ihx ihy
  | unmixed => exact .unmixed
  | invert _ ihc => exact .invert ihc
  | complementary _ ihc => exact .complementary ihc

theorem Derives.cssText {op : Operation} {inputs : List (Option String)}
    (h : ∀ t, some t ∈ inputs → Derives source declared t) :
    Derives source declared (op.cssText inputs) := by
  have hslot : ∀ i t, Operation.slot? inputs i = some t → Derives source declared t :=
    fun i t ht => h t (Operation.mem_of_slot? ht).1
  unfold Operation.cssText
  dsimp only
  split
  next ho => exact .adjustment ho (hslot 0) (hslot 1)
  next ho => exact .arithmetic ho (hslot 0) (hslot 1)
  next =>
    split
    · split
      next hx hy => exact .mix (hslot 0 _ hx) (hslot 1 _ hy)
      next hx _ => exact hslot 0 _ hx
      next _ hy => exact hslot 1 _ hy
      next => exact .unmixed
    · exact .invert (hslot 0)
    · exact .complementary (hslot 0)

end Css

namespace Tree

theorem derives_of_leaves {source declared : String → Prop} {t : Tree Css.Expression}
    {x : Css.Expression} (hx : t.expression = some x)
    (hleaves : ∀ y ∈ t.leaves, Css.Derives source declared y.text) :
    Css.Derives source declared x.text := by
  induction t generalizing x with
  | leaf a =>
    rw [expression_leaf, Option.some.injEq] at hx
    subst hx
    exact hleaves a (by simp)
  | missing cause => simp at hx
  | operation op inputs ih =>
    rw [expression_operation, Option.some.injEq] at hx
    subst hx
    rw [Css.Expression.text, Css.Expression.texts_eq_map, List.map_map]
    refine .cssText fun t ht => ?_
    obtain ⟨input, hinput, htext⟩ := List.mem_map.1 ht
    obtain ⟨y, hy, rfl⟩ := Option.map_eq_some_iff.1 htext
    refine ih input hinput hy fun z hz => hleaves z ?_
    rw [leaves]
    exact List.mem_flatMap.2 ⟨input, hinput, hz⟩

theorem text_ne_empty {t : Tree Css.Expression} {x : Css.Expression} (hx : t.expression = some x)
    (hleaves : ∀ y ∈ t.leaves, y.text ≠ "") : x.text ≠ "" := by
  cases t with
  | leaf a =>
    rw [expression_leaf, Option.some.injEq] at hx
    subst hx
    exact hleaves a (by simp)
  | missing cause => simp at hx
  | operation op inputs =>
    rw [expression_operation, Option.some.injEq] at hx
    subst hx
    rw [Css.Expression.text]
    exact op.cssText_ne_empty _

end Tree

theorem Node.literal?_ne_empty {n : Node} {t : String} (h : n.literal? = some t) : t ≠ "" := by
  unfold literal? at h
  split at h
  next color _ =>
    cases h
    unfold colorLiteral
    split
    · decide
    next hne => exact hne
  next value _ =>
    cases h
    exact Decimal.plain.text_ne_empty value
  · cases h

namespace Compile

def Visible (o : Options) (sources : Nat) (ds : List Definition) (i : Nat) (name : String) : Prop :=
  ∃ j < i, ds[j]?.map (·.name) = some name ∧ (o.reuseBindings = false → j < sources)

variable {o : Options} {sources i : Nat} {ds : List Definition} {name : String}

theorem Visible.append (h : Visible o sources ds i name) (hi : i ≤ ds.length)
    (es : List Definition) : Visible o sources (ds ++ es) i name := by
  obtain ⟨j, hji, hname, hsource⟩ := h
  have hlt : j < ds.length := Nat.lt_of_lt_of_le hji hi
  exact ⟨j, hji, by rw [List.getElem?_append_left hlt, hname], hsource⟩

structure WellScoped (source : String → Prop) (o : Options) (sources : Nat) (ds : List Definition)
    (name? : NodeId → Option String) : Prop where
  named : ∀ q name, name? q = some name → Visible o sources ds ds.length name
  value : ∀ i d, ds[i]? = some d → d.value.text ≠ "" ∧
    Css.Derives source (Visible o sources ds i) d.value.text

theorem WellScoped.concat {source : String → Prop} {name? : NodeId → Option String}
    (h : WellScoped source o sources ds name?) {d : Definition} (hne : d.value.text ≠ "")
    (hd : Css.Derives source (Visible o sources ds ds.length) d.value.text) :
    WellScoped source o sources (ds ++ [d]) fun q => (name? q).or
      (if o.reuseBindings = true ∧ q = d.node then some d.name else none) := by
  constructor
  · intro q name hq
    obtain hold | ⟨_, hnew⟩ := Option.or_eq_some_iff.1 hq
    · obtain ⟨j, hj, hname⟩ := (h.named q name hold).append (Nat.le_refl _) [d]
      exact ⟨j, by rw [List.length_append]; omega, hname⟩
    · split at hnew
      next hre =>
        cases hnew
        refine ⟨ds.length, by simp, by simp, fun hoff => ?_⟩
        rw [hoff] at hre
        cases hre.1
      · cases hnew
  · intro i e hi
    obtain hi | ⟨rfl, rfl⟩ := getElem?_concat_cases hi
    · obtain ⟨hne, he⟩ := h.value i e hi
      have hle : i ≤ ds.length := Nat.le_of_lt (List.getElem?_eq_some_iff.1 hi).1
      exact ⟨hne, he.mono fun name hname => hname.append hle [d]⟩
    · exact ⟨hne, hd.mono fun name hname => hname.append (Nat.le_refl _) _⟩

end Compile

namespace Graph

variable {g : Graph} {o : Options} {n : Node} {name? : NodeId → Option String}

def SourceText (g : Graph) (t : String) : Prop :=
  ∃ n ∈ g.nodes, n.literal? = some t

theorem derives_standIn? {declared : String → Prop} {y : Css.Expression} (hn : n ∈ g.nodes)
    (hy : n.standIn? name? = some y) (hnames : ∀ q name, name? q = some name → declared name) :
    y.text ≠ "" ∧ Css.Derives g.SourceText declared y.text := by
  obtain ⟨name, hname, rfl⟩ | ⟨_, t, ht, rfl⟩ := Node.standIn?_eq_some_iff.1 hy
  · rw [Css.Expression.text]
    exact ⟨by simp [String.append_eq_empty_iff], .reference (hnames n.id name hname)⟩
  · rw [Css.Expression.text]
    exact ⟨Node.literal?_ne_empty ht, .literal ⟨n, hn, ht⟩⟩

theorem derives_outputDefinition? {declared : String → Prop} {d : Definition}
    (hd : g.outputDefinition? o name? n = some d)
    (hnames : ∀ q name, name? q = some name → declared name) :
    d.value.text ≠ "" ∧ Css.Derives g.SourceText declared d.value.text := by
  have hvalue := expression_of_outputDefinition? hd
  have hleaves : ∀ y ∈ (g.unfold (Node.standIn? name?) o.slotOrder [] d.node).leaves,
      y.text ≠ "" ∧ Css.Derives g.SourceText declared y.text := by
    intro y hy
    obtain ⟨m, hm, hmy⟩ := leaf_of_mem_leaves_unfold hy
    exact derives_standIn? hm hmy hnames
  exact ⟨Tree.text_ne_empty hvalue fun y hy => (hleaves y hy).1,
    Tree.derives_of_leaves hvalue fun y hy => (hleaves y hy).2⟩

theorem mem_of_name?_sourceProgress {q : NodeId} {name : String}
    (h : (g.sourceProgress o).bindings.name? q = some name) :
    name ∈ (g.sourceDefinitions o).map (·.name) := by
  rw [sourceDefinitions_map_name]
  unfold sourceProgress at h
  generalize g.nodes = ns at h ⊢
  induction ns using List.reverseRecOn with
  | nil => simp [Bindings.name?] at h
  | append_singleton ns n ih =>
    rw [List.foldl_append, List.foldl_cons, List.foldl_nil, Progress.addSource_eq] at h
    rw [List.filterMap_append, List.mem_append]
    cases hs : n.sourceName? o with
    | none => exact .inl (ih (by simpa [hs] using h))
    | some s =>
      simp only [hs, Option.elim_some, Bindings.name?_set] at h
      split at h
      · cases h
        exact .inr (by simp [hs])
      · exact .inl (ih h)

theorem wellScoped_sources : WellScoped g.SourceText o (g.sourceDefinitions o).length
    (g.sourceDefinitions o) (g.sourceProgress o).bindings.name? := by
  constructor
  · intro q name hq
    obtain ⟨j, hj, hname⟩ := List.getElem_of_mem (mem_of_name?_sourceProgress hq)
    rw [List.length_map] at hj
    rw [List.getElem_map] at hname
    exact ⟨j, hj, by rw [List.getElem?_eq_getElem hj, Option.map_some, hname], fun _ => hj⟩
  · intro i d hd
    obtain ⟨n, hn, hnd⟩ := List.mem_filterMap.1 (List.mem_of_getElem? hd)
    obtain ⟨_, _, text, htext, hvalue⟩ := Node.eq_some_of_sourceDefinition? hnd
    rw [hvalue, Css.Expression.text]
    exact ⟨Node.literal?_ne_empty htext, .literal ⟨n, hn, htext⟩⟩

theorem wellScoped_progressOf (outputs : List Node) :
    WellScoped g.SourceText o (g.sourceDefinitions o).length (g.progressOf o outputs).definitions
      (g.progressOf o outputs).bindings.name? := by
  refine progressOf_induction ?sources ?output outputs
  case sources => exact wellScoped_sources
  case output =>
    intro _ n d ih hd
    obtain ⟨hne, hderives⟩ := derives_outputDefinition? hd ih.named
    exact ih.concat hne hderives

/-- Variable `i` may refer by the name to one before it, and without reuse only to that of a source.
-/
def DeclaredBefore (g : Graph) (o : Options) (i : Nat) (name : String) : Prop :=
  ∃ j < i, (g.compile o).variables[j]?.map (·.name) = some ("--" ++ name) ∧
    (o.reuseBindings = false → j < (g.sourceDefinitions o).length)

/-- On every graph all values are in the grammar, with texts of its sources for literals and names of
earlier variables for references. -/
theorem compile_variables_derives (g : Graph) (o : Options) (i : Nat) (v : Css.Variable)
    (hv : (g.compile o).variables[i]? = some v) :
    v.value ≠ "" ∧ Css.Derives g.SourceText (g.DeclaredBefore o i) v.value := by
  rw [compile_variables, List.getElem?_map] at hv
  obtain ⟨d, hd, rfl⟩ := Option.map_eq_some_iff.1 hv
  obtain ⟨hne, hderives⟩ := (wellScoped_progressOf (Index.of g).outputOrder.order).value i d hd
  refine ⟨hne, hderives.mono ?_⟩
  rintro name ⟨j, hji, hname, hsource⟩
  obtain ⟨e, he, rfl⟩ := Option.map_eq_some_iff.1 hname
  exact ⟨j, hji, by rw [getElem?_variables, definitions_eq, he, Option.map_some], hsource⟩

def entangled : Graph where
  nodes := [{ id := "c", kind := .inputColor "x" "" }, { id := "c", kind := .inputColor "y" "red" },
    { id := "m", kind := .operation .mix }, { id := "r", kind := .operation .rotate },
    { id := "o", kind := .output "x" }, { id := "p", kind := .output "x" }]
  edges := [connection "c" "m" (some "a"), connection "r" "m" (some "b"),
    connection "m" "r" (some "a"), connection "ghost" "r" (some "b"), connection "m" "o" none,
    connection "o" "p" none]

theorem compile_variables_derives_entangled :
    ¬ entangled.UniqueIds ∧ ¬ entangled.Acyclic ∧
      (entangled.compile {}).variables[2]? = some ⟨"--x",
        "color-mix(in oklch, var(--y), oklch(from oklch(0.5 0.2 180) l c calc(h + 30)))"⟩ ∧
      Css.Derives entangled.SourceText (entangled.DeclaredBefore {} 2)
        "color-mix(in oklch, var(--y), oklch(from oklch(0.5 0.2 180) l c calc(h + 30)))" := by
  have hv : (entangled.compile {}).variables[2]? = some ⟨"--x",
      "color-mix(in oklch, var(--y), oklch(from oklch(0.5 0.2 180) l c calc(h + 30)))"⟩ := by
    decide
  exact ⟨by decide, by decide, hv, (compile_variables_derives entangled {} 2 _ hv).2⟩

end Graph
end ColorGraph
