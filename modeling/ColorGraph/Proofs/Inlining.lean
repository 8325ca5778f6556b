import ColorGraph.Proofs.Diagnostics
/-!
References replaced by what they stand for. Main statement: once the variables of outputs are, reuse
has changed no name, no diagnostic and no value.
-/

set_option autoImplicit false

namespace ColorGraph

open Compile

namespace Css.Expression

mutual

def inline (value? : String → Option Expression) : Expression → Expression
  | literal text => literal text
  | reference node name => (value? name).getD (reference node name)
  | operation op inputs => operation op (inlineAll value? inputs)

def inlineAll (value? : String → Option Expression) :
    List (Option Expression) → List (Option Expression)
  | [] => []
  | none :: rest => none :: inlineAll value? rest
  | some x :: rest => some (x.inline value?) :: inlineAll value? rest

end

variable {value? : String → Option Css.Expression} {k : Nat}

theorem inlineAll_eq_map (xs : List (Option Css.Expression)) :
    inlineAll value? xs = xs.map (Option.map (inline value?)) := by
  induction xs with
  | nil => rfl
  | cons x xs ih => cases x <;> simp [inlineAll, ih]

theorem inline_iterate_literal (text : String) :
    (inline value?)^[k] (literal text) = literal text :=
  Function.iterate_fixed rfl k

theorem inline_iterate_reference {node : NodeId} {name : String} (h : value? name = none) :
    (inline value?)^[k] (reference node name) = reference node name :=
  Function.iterate_fixed (by rw [inline, h, Option.getD_none]) k

theorem inline_iterate_succ {node : NodeId} {name : String} {x : Css.Expression}
    (h : value? name = some x) :
    (inline value?)^[k + 1] (reference node name) = (inline value?)^[k] x := by
  rw [Function.iterate_succ_apply, inline, h, Option.getD_some]

theorem inline_iterate_operation (op : Operation) (inputs : List (Option Css.Expression)) :
    (inline value?)^[k] (operation op inputs) =
      operation op (inputs.map (Option.map (inline value?)^[k])) := by
  induction k with
  | zero => simp
  | succ k ih =>
    rw [Function.iterate_succ_apply', ih, inline, inlineAll_eq_map, List.map_map]
    congr 2
    funext x
    cases x with
    | none => rfl
    | some x => exact congrArg some (Function.iterate_succ_apply' _ k x).symm

end Css.Expression

def Compile.valueOf? (ds : List Definition) (name : String) : Option Css.Expression :=
  (ds.find? (·.name == name)).map (·.value)

theorem Compile.valueOf?_of_mem {ds : List Definition} {d : Definition}
    (h : (ds.map (·.name)).Nodup) (hd : d ∈ ds) : valueOf? ds d.name = some d.value := by
  rw [valueOf?, find?_of_nodup_map h hd, Option.map_some]

namespace Graph

variable {g : Graph} {o : Options} {order : SlotOrder} {id : NodeId}

namespace Acyclic

theorem map_expansion (h : g.Acyclic) {φ : Css.Expression → Css.Expression}
    {few? more? : NodeId → Option String} (hliteral : ∀ text, φ (.literal text) = .literal text)
    (hoperation : ∀ op inputs, φ (.operation op inputs) = .operation op (inputs.map (Option.map φ)))
    (hless : ∀ x, more? x = none → few? x = none)
    (href : ∀ x name, g.Upstream x id → more? x = some name →
      some (φ (.reference x name)) = h.written order few? x) :
    (h.expansion order more? id).map φ = h.expansion order few? id := by
  have hwritten : ∀ {id : NodeId} {e : Edge}, g.Feeds e.source id →
      (∀ x name, g.Upstream x id → more? x = some name →
        some (φ (.reference x name)) = h.written order few? x) →
      ((∀ x name, g.Upstream x e.source → more? x = some name →
        some (φ (.reference x name)) = h.written order few? x) →
          (h.expansion order more? e.source).map φ = h.expansion order few? e.source) →
      (h.written order more? e.source).map φ = h.written order few? e.source := by
    intro id e he href ih
    have hup : g.Upstream e.source id := .single he
    cases hmore : more? e.source with
    | some name => rw [h.written_of_named hmore, Option.map_some, href _ name hup hmore]
    | none =>
      rw [h.written_of_unnamed hmore, h.written_of_unnamed (hless _ hmore),
        ih fun x name hx => href x name (hx.trans hup)]
  induction id using h.induction with
  | absent id hn => rw [h.expansion_absent hn, h.expansion_absent hn, Option.map_none]
  | source n text hn hl =>
    rw [h.expansion_source hn hl, h.expansion_source hn hl, Option.map_some, hliteral]
  | operation n op hn hl ho ih =>
    rw [h.expansion_operation hn hl ho, h.expansion_operation hn hl ho, Option.map_some,
      hoperation, List.map_map]
    congr 2
    refine List.map_congr_left fun e he => ?_
    have hfeeds := feeds_of_mem_inputEdges he
    exact hwritten hfeeds href (ih e hfeeds)
  | unconnected n hn hl ho hpe =>
    rw [h.expansion_unconnected hn hl ho hpe, h.expansion_unconnected hn hl ho hpe,
      Option.map_none]
  | output n e hn hl ho hpe ih =>
    rw [h.expansion_output hn hl ho hpe, h.expansion_output hn hl ho hpe]
    exact hwritten (feeds_of_producerEdge? hpe) href ih

end Acyclic

def outputValue? (g : Graph) (o : Options) : String → Option Css.Expression :=
  valueOf? (g.outputDefinitions o)

def inlined (g : Graph) (o : Options) (times : Nat) : Css.Expression → Css.Expression :=
  (Css.Expression.inline (g.outputValue? o))^[times]

theorem names_of_nodup (hnodup : ((g.compile o).variables.map (·.name)).Nodup) :
    ((g.outputDefinitions o).map (·.name)).Nodup ∧
      ∀ d ∈ g.sourceDefinitions o, ∀ e ∈ g.outputDefinitions o, d.name ≠ e.name := by
  have hnames : ((g.definitions o).map (·.name)).Nodup := by
    rw [compile_variables, List.map_map] at hnodup
    refine List.Nodup.of_map ("--" ++ ·) ?_
    rw [List.map_map]
    exact hnodup
  rw [definitions_eq_append, List.map_append, List.nodup_append] at hnames
  refine ⟨hnames.2.1, fun d hd e he => ?_⟩
  exact hnames.2.2 d.name (List.mem_map_of_mem hd) e.name (List.mem_map_of_mem he)

theorem inlined_source (hnodup : ((g.compile o).variables.map (·.name)).Nodup)
    (hid : g.UniqueIds) {name : String} (hname : g.sourceName? o id = some name) (k : Nat) :
    g.inlined o k (.reference id name) = .reference id name := by
  refine Css.Expression.inline_iterate_reference ?_
  obtain ⟨d, hd, rfl⟩ := exists_sourceDefinition hname
  rw [sourceName?_of_mem hid hd, Option.some.injEq] at hname
  rw [outputValue?, valueOf?, Option.map_eq_none_iff, List.find?_eq_none]
  intro e he heq
  have hne := (names_of_nodup hnodup).2 d hd e he
  exact hne (hname.trans (beq_iff_eq.1 heq).symm)

namespace Acyclic

theorem getElem?_outputDefinitions (h : g.Acyclic) (hid : g.UniqueIds)
    (hre : o.reuseBindings = true) (i : Nat) :
    ((g.outputDefinitions o)[i]?).map some =
      ((h.exporters o)[i]?).map (g.definitionOf? o (h.exportedValue? o i)) := by
  rw [← List.getElem?_map, h.outputDefinitions_of_reuse hid hre, List.getElem?_mapIdx]

theorem exists_outputDefinition (h : g.Acyclic) (hid : g.UniqueIds) (hre : o.reuseBindings = true)
    {j : Nat} {name : String} (hsource : g.sourceName? o id = none)
    (hname : g.exportedName? o ((h.exporters o).take j) id = some name) :
    ∃ i < j, ∃ d, (g.outputDefinitions o)[i]? = some d ∧ d.node = id ∧ d.name = name := by
  rw [exportedName?, hsource, Option.none_or] at hname
  obtain ⟨n, hn, hx⟩ := List.exists_of_findSome?_eq_some hname
  obtain ⟨i, hi, rfl⟩ := List.mem_take_iff_getElem.1 hn
  have hlen : i < (h.exporters o).length := by omega
  have hdef := h.getElem?_outputDefinitions hid hre i
  rw [List.getElem?_eq_getElem hlen, Option.map_some] at hdef
  obtain ⟨d, hd, hd'⟩ := Option.map_eq_some_iff.1 hdef
  obtain ⟨hdname, hproducer, _⟩ := eq_some_of_definitionOf? hd'.symm
  rw [hproducer, hdname] at hx
  split at hx
  next hnode =>
    refine ⟨i, by omega, d, hd, Option.some.inj hnode, Option.some.inj hx⟩
  · cases hx

/-- With so many replacements as there are definitions before it, a value is what it is without
reuse. -/
theorem inlined_value (h : g.Acyclic) (hid : g.UniqueIds) (hre : o.reuseBindings = true)
    (hnodup : ((g.compile o).variables.map (·.name)).Nodup) {i k : Nat} {d : Definition}
    (hd : (g.outputDefinitions o)[i]? = some d) (hk : i ≤ k) :
    some (g.inlined o k d.value) = h.written o.slotOrder (g.sourceName? o) d.node := by
  -- on the position: what a value refers to is defined before it and needs one replacement less
  induction i using Nat.strongRecOn generalizing k d with
  | _ i ih =>
    have href : ∀ x name, g.exportedName? o ((h.exporters o).take i) x = some name →
        some (g.inlined o k (.reference x name)) =
          h.written o.slotOrder (g.sourceName? o) x := by
      intro x name hname
      cases hsource : g.sourceName? o x with
      | some s =>
        rw [exportedName?, hsource, Option.some_or, Option.some.injEq] at hname
        subst hname
        rw [h.written_of_named hsource, inlined_source hnodup hid hsource]
      | none =>
        obtain ⟨j, hji, e, he, rfl, rfl⟩ := h.exists_outputDefinition hid hre hsource hname
        obtain ⟨k, rfl⟩ : ∃ k', k = k' + 1 := ⟨k - 1, by omega⟩
        have hvalue : g.outputValue? o e.name = some e.value :=
          valueOf?_of_mem (names_of_nodup hnodup).1 (List.mem_of_getElem? he)
        rw [inlined, Css.Expression.inline_iterate_succ hvalue]
        exact ih j hji he (by omega)
    have hdef := h.getElem?_outputDefinitions hid hre i
    rw [hd, Option.map_some] at hdef
    obtain ⟨n, hn, hnd⟩ := Option.map_eq_some_iff.1 hdef.symm
    obtain ⟨hi, rfl⟩ := List.getElem?_eq_some_iff.1 hn
    obtain ⟨_, hproducer, hvalue⟩ := eq_some_of_definitionOf? hnd
    cases hname : g.exportedName? o ((h.exporters o).take i) d.node with
    | some name =>
      rw [exportedValue?, hname, Option.some.injEq] at hvalue
      rw [← hvalue]
      exact href d.node name hname
    | none =>
      simp only [exportedValue?, hname] at hvalue
      have hless : ∀ x, g.exportedName? o (h.exporters o) x = none → g.sourceName? o x = none :=
        fun x hx => (Option.or_eq_none_iff.1 hx).1
      have hsource : g.sourceName? o d.node = none := (Option.or_eq_none_iff.1 hname).1
      have hmap : (h.expansion o.slotOrder (g.exportedName? o (h.exporters o)) d.node).map
          (g.inlined o k) = h.expansion o.slotOrder (g.sourceName? o) d.node :=
        h.map_expansion Css.Expression.inline_iterate_literal
          Css.Expression.inline_iterate_operation hless
          fun x name hx hxname => href x name (h.exportedName?_take hi hproducer hx ▸ hxname)
      rw [h.written_of_unnamed hsource, ← hmap, hvalue, Option.map_some]

end Acyclic

theorem value_of_mem_sourceDefinitions {d : Definition} (hd : d ∈ g.sourceDefinitions o) :
    ∃ text, d.value = .literal text := by
  obtain ⟨n, _, hnd⟩ := List.mem_filterMap.1 hd
  obtain ⟨_, _, text, _, hvalue⟩ := Node.eq_some_of_sourceDefinition? hnd
  exact ⟨text, hvalue⟩

theorem Acyclic.outputDefinition?_of_not_reuse (h : g.Acyclic) (hre : o.reuseBindings = false)
    {outputs : List Node} {n : Node} :
    g.outputDefinition? o (g.knownName? o outputs) n =
      g.definitionOf? o (h.written o.slotOrder (g.sourceName? o)) n := by
  have hknown : g.knownName? o outputs = g.sourceName? o := by
    simp [knownName?, hre, exportedName?_nil]
  rw [hknown]
  exact h.outputDefinition?_eq fun x name hname => expandable_of_sourceName? hname

theorem Acyclic.inlined_definitions (h : g.Acyclic) (hid : g.UniqueIds)
    (hre : o.reuseBindings = true) (hnodup : ((g.compile o).variables.map (·.name)).Nodup) {k : Nat}
    (hk : (g.outputDefinitions o).length ≤ k) :
    (g.definitions o).map (fun d => { d with value := g.inlined o k d.value }) =
      g.definitions (o.withReuse false) := by
  have hsources : (g.sourceDefinitions o).map
      (fun d => { d with value := g.inlined o k d.value }) = g.sourceDefinitions o := by
    refine (List.map_congr_left fun d hd => ?_).trans (List.map_id _)
    obtain ⟨text, htext⟩ := value_of_mem_sourceDefinitions hd
    have hvalue : g.inlined o k d.value = d.value := by
      rw [htext]
      exact Css.Expression.inline_iterate_literal text
    rw [hvalue, id]
  have houtputs : (g.outputDefinitions o).map
      (fun d => { d with value := g.inlined o k d.value }) =
        g.outputDefinitions (o.withReuse false) := by
    refine List.map_injective_iff.2 (Option.some_injective _) (List.ext_getElem? fun i => ?_)
    have hdef := h.getElem?_outputDefinitions hid hre i
    have hexporters : h.exporters (o.withReuse false) = h.exporters o := rfl
    rw [h.outputDefinitions_eq (o := o.withReuse false) hid, hexporters, List.getElem?_mapIdx,
      List.map_map, List.getElem?_map]
    cases hn : (h.exporters o)[i]? with
    | none =>
      rw [hn, Option.map_none, Option.map_eq_none_iff] at hdef
      rw [hdef]
      rfl
    | some n =>
      rw [hn, Option.map_some] at hdef
      obtain ⟨d, hd, hdn⟩ := Option.map_eq_some_iff.1 hdef
      obtain ⟨hname, hproducer, _⟩ := eq_some_of_definitionOf? hdn.symm
      have hlt := (List.getElem?_eq_some_iff.1 hd).1
      have hvalue := h.inlined_value hid hre hnodup hd (k := k) (by omega)
      have hname' : n.outputName? (o.withReuse false) = some d.name := hname
      have hvalue' : h.written (o.withReuse false).slotOrder (g.sourceName? (o.withReuse false))
          d.node = some (g.inlined o k d.value) := hvalue.symm
      rw [hd, Option.map_some, Option.map_some, h.outputDefinition?_of_not_reuse rfl, definitionOf?,
        hname', hproducer]
      simp [hvalue']
  rw [definitions_eq_append, definitions_eq_append, List.map_append, hsources, houtputs]
  rfl

/-- Reuse changes no name and no diagnostic, and no value but for references to the variables of
outputs. -/
theorem compile_withReuse (hid : g.UniqueIds) (h : g.Acyclic)
    (hnodup : ((g.compile (o.withReuse true)).variables.map (·.name)).Nodup) :
    (g.compile (o.withReuse true)).variables.map (·.name) =
        (g.compile (o.withReuse false)).variables.map (·.name) ∧
      (g.compile (o.withReuse true)).diagnostics = (g.compile (o.withReuse false)).diagnostics ∧
      ∀ k, (g.outputDefinitions (o.withReuse true)).length ≤ k →
        (g.definitions (o.withReuse true)).map
            (fun d => (g.inlined (o.withReuse true) k d.value).text) =
          (g.compile (o.withReuse false)).variables.map (·.value) := by
  have hdefs := fun k hk => h.inlined_definitions (o := o.withReuse true) (k := k) hid rfl hnodup hk
  have hoff : (o.withReuse true).withReuse false = o.withReuse false := rfl
  rw [hoff] at hdefs
  refine ⟨?_, h.diagnostics_withReuse hid, fun k hk => ?_⟩
  · have hnames := congrArg (List.map fun d => "--" ++ d.name) (hdefs _ (Nat.le_refl _))
    rw [compile_variables, compile_variables, List.map_map, List.map_map]
    rw [List.map_map] at hnames
    exact hnames
  · have hvalues := congrArg (List.map fun d => d.value.text) (hdefs k hk)
    rw [compile_variables, List.map_map]
    rw [List.map_map] at hvalues
    exact hvalues

theorem compile_withReuse_mixedTwice :
    mixedTwice.UniqueIds ∧ mixedTwice.Acyclic ∧
      ((mixedTwice.compile (.withReuse {} true)).variables.map (·.name)).Nodup ∧
      (mixedTwice.compile (.withReuse {} true)).diagnostics =
        (mixedTwice.compile (.withReuse {} false)).diagnostics ∧
      (mixedTwice.definitions (.withReuse {} true)).map
          (fun d => (mixedTwice.inlined (.withReuse {} true) 3 d.value).text) =
        ["red", "color-mix(in oklch, var(--base), blue)", "color-mix(in oklch, var(--base), blue)",
          "oklch(from color-mix(in oklch, var(--base), blue) calc(1 - l) c h)"] := by
  have hid : mixedTwice.UniqueIds := by decide
  have h : mixedTwice.Acyclic := by decide
  have hnodup : ((mixedTwice.compile (.withReuse {} true)).variables.map (·.name)).Nodup := by
    decide
  obtain ⟨_, hdiagnostics, hvalues⟩ := compile_withReuse (o := {}) hid h hnodup
  exact ⟨hid, h, hnodup, hdiagnostics, (hvalues 3 (by decide)).trans (by decide)⟩

end Graph
end ColorGraph
