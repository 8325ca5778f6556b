import ColorGraph.Proofs.Compilation
/-!
Style sheets and previews read the same tree. Main statement: when outputs are not reused, each
variable is the text of the tree of its producer down to the sources, and the preview of a node is
the value of that same tree, on every graph.
-/

set_option autoImplicit false

namespace ColorGraph

open Compile

namespace Css.Expression

theorem texts_eq_map (xs : List (Option Css.Expression)) : texts xs = xs.map (Option.map text) := by
  induction xs with
  | nil => rfl
  | cons x xs ih => cases x <;> simp [texts, ih]

end Css.Expression

namespace Node

def sourceText? (o : Options) (n : Node) : Option String :=
  match n.sourceName? o with
  | some name => some ("var(--" ++ name ++ ")")
  | none => n.literal?

end Node

namespace Tree

def cssText (o : Options) : Tree Node → Option String :=
  fold (Node.sourceText? o) none fun op inputs => some (op.cssText inputs)

theorem text_expression (t : Tree Css.Expression) : t.expression.map Css.Expression.text =
    t.fold (fun x => some x.text) none fun op inputs => some (op.cssText inputs) := by
  induction t with
  | leaf x => simp
  | missing cause => simp
  | operation op inputs ih =>
    have hinputs : inputs.map (fun t => t.expression.map Css.Expression.text) =
        inputs.map (fold (fun x => some x.text) none fun op inputs => some (op.cssText inputs)) :=
      List.map_congr_left ih
    simp [Css.Expression.text, Css.Expression.texts_eq_map, Function.comp_def, hinputs]

end Tree

namespace Graph

variable {g : Graph} {o : Options} {n : Node}

def sourceTree (g : Graph) (order : SlotOrder) (id : NodeId) : Tree Node :=
  g.unfold Node.source? order [] id

def outputVariable? (g : Graph) (o : Options) (n : Node) : Option Css.Variable := do
  let name ← n.outputName? o
  let producer ← g.producer? n.id
  let text ← (g.sourceTree o.slotOrder producer).cssText o
  some (.of name text)

theorem text_standIn? (hn : g.lastNode? n.id = some n) :
    (n.standIn? (g.sourceName? o)).map (fun x => some x.text) =
      n.source?.map (Node.sourceText? o) := by
  have hname : g.sourceName? o n.id = n.sourceName? o := by simp [sourceName?, hn]
  unfold Node.standIn? Node.sourceText? Node.source? Node.literal?
  rw [hname]
  unfold Node.sourceName?
  cases hk : n.kind with
  | inputColor name color =>
    by_cases h : name = "" <;> simp [h, hk, Node.Kind.isSource, Css.Expression.text]
  | inputNumber name value =>
    by_cases h : name = "" <;> simp [h, hk, Node.Kind.isSource, Css.Expression.text]
  | output name => simp [Node.Kind.isSource]
  | operation op => simp [Node.Kind.isSource]

theorem text_unfoldEdge (e : Edge) : (g.unfoldEdge (Node.standIn? (g.sourceName? o)) o.slotOrder []
    e).expression.map Css.Expression.text = (g.sourceTree o.slotOrder e.source).cssText o := by
  rw [expression_unfoldEdge, Tree.text_expression]
  exact fold_unfold_congr fun n hn => text_standIn? hn

theorem toVariable_outputDefinition? : (g.outputDefinition? o (g.sourceName? o) n).map
    Definition.toVariable = g.outputVariable? o n := by
  unfold outputDefinition? outputVariable? Node.outputName? outputTree producer?
  cases n.kind with
  | output name =>
    by_cases h : name = ""
    · simp [h]
    · cases g.producerEdge? n.id with
      | none => simp [h]
      | some e =>
        have ht := @text_unfoldEdge g o e
        simp only [h, if_false, Option.map_some, Option.bind_eq_bind, Option.bind_some, ← ht]
        cases (g.unfoldEdge (Node.standIn? (g.sourceName? o)) o.slotOrder [] e).expression with
        | none => rfl
        | some x => rfl
  | _ => simp

/-- One tree gives both the text of a style sheet and the value of a preview. -/
theorem compile_and_preview_of_sourceTree (hid : g.UniqueIds) (hre : o.reuseBindings = false) :
    (g.compile o).variables = (g.sourceDefinitions o).map Definition.toVariable ++
        (Index.of g).outputOrder.order.filterMap (g.outputVariable? o) ∧
      ∀ id, g.preview o.slotOrder id = Preview.ofTree (g.sourceTree o.slotOrder id) := by
  constructor
  · have hdefs := (progressOf_of_not_reuse hid hre (Index.of g).outputOrder.order).2.1
    rw [compile_variables, definitions_eq, hdefs, List.map_append, List.map_filterMap]
    simp only [toVariable_outputDefinition?]
  · intro id
    exact Preview.evaluate_eq id

def mutualFeed : Graph where
  nodes := [{ id := "c", kind := .inputColor "base" "red" },
    { id := "m", kind := .operation .mix }, { id := "r", kind := .operation .rotate },
    { id := "o", kind := .output "mixed" }, { id := "p", kind := .output "again" }]
  edges := [connection "c" "m" (some "a"), connection "r" "m" (some "b"),
    connection "m" "r" (some "a"), connection "ghost" "r" (some "b"), connection "m" "o" none,
    connection "o" "p" none]

theorem compile_and_preview_of_sourceTree_mutualFeed :
    mutualFeed.UniqueIds ∧ ¬ mutualFeed.Acyclic ∧
      (mutualFeed.compile { reuseBindings := false }).variables =
        (mutualFeed.sourceDefinitions { reuseBindings := false }).map Definition.toVariable ++
          (Index.of mutualFeed).outputOrder.order.filterMap
            (mutualFeed.outputVariable? { reuseBindings := false }) ∧
      mutualFeed.preview .lexicographic "p" =
        Preview.ofTree (mutualFeed.sourceTree .lexicographic "p") := by
  have hid : mutualFeed.UniqueIds := by decide
  have h := compile_and_preview_of_sourceTree (o := { reuseBindings := false }) hid rfl
  exact ⟨hid, by decide, h.1, h.2 "p"⟩

end Graph
end ColorGraph
