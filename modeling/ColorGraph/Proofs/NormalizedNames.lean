import ColorGraph.Proofs.Relabelling
/-!
Names in kebab case. Main statement: whether names are put in kebab case while a graph is compiled,
or in the graph before, makes no difference.
-/

set_option autoImplicit false

namespace ColorGraph

open Compile

/-- Only the empty name is empty in kebab case, so the same nodes are without a name. -/
theorem Css.kebab_eq_empty_iff {name : String} : kebab name = "" ↔ name = "" := by
  rw [← String.toList_eq_nil_iff, kebab, String.toList_ofList, kebabChars_eq_nil_iff,
    String.toList_eq_nil_iff]

def Node.Kind.mapName (f : String → String) : Kind → Kind
  | inputColor name color => inputColor (f name) color
  | inputNumber name value => inputNumber (f name) value
  | output name => output (f name)
  | operation op => operation op

def Node.mapName (f : String → String) (n : Node) : Node :=
  { n with kind := n.kind.mapName f }

def Graph.mapNames (f : String → String) (g : Graph) : Graph :=
  { g with nodes := g.nodes.map (Node.mapName f) }

def Relabelling.names (f : String → String) : Relabelling where
  node := Node.mapName f
  edge := id
  node_id _ := rfl
  node_operation? n := by rw [Node.mapName]; cases n.kind <;> rfl
  node_isOutput n := by rw [Node.mapName]; cases n.kind <;> rfl
  edge_id _ := rfl
  edge_source _ := rfl
  edge_target _ := rfl
  edge_targetHandle _ := rfl

theorem Graph.relabel_names (f : String → String) (g : Graph) :
    g.relabel (.names f) = g.mapNames f := by
  rw [relabel, mapNames]
  exact congrArg (Graph.mk _) (List.map_id g.edges)

theorem Relabelling.names_keeps (o : Options) : (Relabelling.names Css.kebab).Keeps
    { o with normalizeNames := false } { o with normalizeNames := true } where
  literal? n := by
    change (n.mapName Css.kebab).literal? = n.literal?
    rw [Node.literal?, Node.literal?, Node.mapName]
    cases n.kind <;> rfl
  sourceName? n := by
    change (n.mapName Css.kebab).sourceName? _ = _
    rw [Node.sourceName?, Node.sourceName?, Node.mapName]
    cases n.kind <;>
      simp [Node.Kind.mapName, Options.exportName, Css.kebab_eq_empty_iff]
  outputName? n := by
    change (n.mapName Css.kebab).outputName? _ = _
    rw [Node.outputName?, Node.outputName?, Node.mapName]
    cases n.kind <;>
      simp [Node.Kind.mapName, Options.exportName, Css.kebab_eq_empty_iff]
  slotOrder := rfl
  reuseBindings := rfl

/-- A graph is compiled with names in kebab case as the graph with such names is compiled as it
stands. -/
theorem Graph.compile_kebab (g : Graph) (o : Options) :
    g.compile { o with normalizeNames := true } =
      (g.mapNames Css.kebab).compile { o with normalizeNames := false } := by
  rw [← relabel_names, compile_relabel (Relabelling.names_keeps o)]

end ColorGraph
