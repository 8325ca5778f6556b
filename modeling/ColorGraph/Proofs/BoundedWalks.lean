import ColorGraph.Compile.Report
import ColorGraph.Proofs.Unfolding
import Mathlib.Data.List.Dedup
import Mathlib.Logic.Function.Iterate
/-!
How deep the calls of a walk nest. Main statement: on every graph an expansion and a preview have at
most one call more open at a time than there are ids with inputs; what calls nested deeper would do
makes no difference, so that no greater depth gives another result.
-/

set_option autoImplicit false

namespace ColorGraph

theorem eq_iterate_of_succ {α : Type} (walk : Nat → α) {call : α → α}
    (h : ∀ depth, walk (depth + 1) = call (walk depth)) (depth : Nat) :
    walk depth = call^[depth] (walk 0) := by
  induction depth with
  | zero => rfl
  | succ depth ih => rw [h, ih, Function.iterate_succ_apply']

theorem Compile.expand_eq_iterate (scope : Scope) (depth : Nat) :
    expand scope depth = (expandCall scope)^[depth] fun _ _ log => (none, log) :=
  eq_iterate_of_succ (expand scope) (fun _ => rfl) depth

theorem Preview.evaluateNode_eq_iterate (ix : Index) (order : SlotOrder) (depth : Nat) :
    evaluateNode ix order depth = (evaluateCall ix order)^[depth] fun _ _ => pure none :=
  eq_iterate_of_succ (evaluateNode ix order) (fun _ => rfl) depth

namespace Graph

def innerIds (g : Graph) : List NodeId :=
  ((g.nodes.filter (!·.kind.isSource)).map (·.id)).dedup

/-- One call for each id with inputs, and the one that such a call makes last. -/
def maxNesting (g : Graph) : Nat :=
  g.innerIds.length + 1

def unopened (g : Graph) (path : List NodeId) : List NodeId :=
  g.innerIds.filter (· ∉ path)

variable {g : Graph} {path : List NodeId} {n : Node} {β : Type}

theorem mem_innerIds (hn : n ∈ g.nodes) (hs : n.kind.isSource = false) : n.id ∈ g.innerIds := by
  refine List.mem_dedup.2 (List.mem_map_of_mem (List.mem_filter.2 ⟨hn, ?_⟩))
  rw [hs]
  rfl

theorem length_unopened_lt (path : List NodeId) : (g.unopened path).length < g.maxNesting :=
  Nat.lt_succ_of_le (List.length_filter_le _ _)

theorem length_unopened_cons_lt {id : NodeId} (hid : id ∈ g.innerIds) (hp : id ∉ path) :
    (g.unopened (id :: path)).length < (g.unopened path).length := by
  have hstep : g.unopened (id :: path) = (g.unopened path).filter (· ≠ id) := by
    rw [unopened, unopened, List.filter_filter]
    congr 1
    funext x
    simp
  have hmem : id ∈ g.unopened path := List.mem_filter.2 ⟨hid, decide_eq_true hp⟩
  rw [hstep, List.length_filter_lt_length_iff_exists]
  exact ⟨id, hmem, by simp⟩

/-- Calls are made at nodes with inputs only, when these are not on the path yet, and the calls that
are made have them on theirs. -/
def Guarded (g : Graph) (call : (List NodeId → Node → β) → List NodeId → Node → β) : Prop :=
  ∀ inner inner' path n, n ∈ g.nodes →
    (n.kind.isSource = false → n.id ∉ path →
      ∀ m ∈ g.nodes, inner (n.id :: path) m = inner' (n.id :: path) m) →
    call inner path n = call inner' path n

/-- Calls that would be nested deeper than there are ids left to open are never made. -/
theorem Guarded.iterate_eq {call : (List NodeId → Node → β) → List NodeId → Node → β}
    (hcall : g.Guarded call) (hn : n ∈ g.nodes) {depth depth' : Nat}
    (hdepth : (g.unopened path).length < depth) (hdepth' : (g.unopened path).length < depth')
    (deeper deeper' : List NodeId → Node → β) :
    call^[depth] deeper path n = call^[depth'] deeper' path n := by
  induction depth generalizing depth' path n with
  | zero => omega
  | succ depth ih =>
    obtain ⟨depth', rfl⟩ := Nat.exists_eq_succ_of_ne_zero (show depth' ≠ 0 by omega)
    rw [Function.iterate_succ_apply', Function.iterate_succ_apply']
    refine hcall _ _ path n hn fun hs hp m hm => ?_
    have hlt := length_unopened_cons_lt (mem_innerIds hn hs) hp
    exact ih hm (by omega) (by omega)

end Graph

namespace Compile

variable {g : Graph} {order : SlotOrder} {b : Bindings}

theorem follow_congr {x y : Expansion} (h : ∀ m ∈ g.nodes, x m = y m) (e : Edge) :
    follow (Index.of g) x e = follow (Index.of g) y e := by
  funext log
  rw [follow, follow, Index.node?_of]
  cases hm : g.lastNode? e.source with
  | none => rfl
  | some m => exact congrFun (h m (Graph.mem_of_lastNode? hm).1) log

theorem followAll_congr {x y : Expansion} (h : ∀ m ∈ g.nodes, x m = y m) (es : List Edge)
    (log : Log) : followAll (Index.of g) x es log = followAll (Index.of g) y es log := by
  induction es generalizing log with
  | nil => rfl
  | cons e es ih => simp only [followAll, follow_congr h, ih]

theorem guarded_expandCall : g.Guarded (expandCall ⟨Index.of g, order, b⟩) := by
  intro inner inner' path n _ h
  funext log
  unfold expandCall
  cases b.name? n.id with
  | some name => rfl
  | none =>
    cases hk : n.kind with
    | inputColor name color => rfl
    | inputNumber name value => rfl
    | operation op =>
      by_cases hp : n.id ∈ path
      · simp only [hp, if_true]
      · simp only [hp, if_false, followAll_congr (h (by rw [hk]; rfl) hp)]
    | output name =>
      by_cases hp : n.id ∈ path
      · simp only [hp, if_true]
      · simp only [hp, if_false, follow_congr (h (by rw [hk]; rfl) hp)]

end Compile

namespace Preview

variable {g : Graph} {order : SlotOrder}

theorem follow_congr {x y : Evaluation} (h : ∀ m ∈ g.nodes, x m = y m) (e : Edge) :
    follow (Index.of g) x e = follow (Index.of g) y e := by
  rw [follow, follow, Index.node?_of]
  cases hm : g.lastNode? e.source with
  | none => rfl
  | some m => exact h m (Graph.mem_of_lastNode? hm).1

theorem followAll_congr {x y : Evaluation} (h : ∀ m ∈ g.nodes, x m = y m) (es : List Edge) :
    followAll (Index.of g) x es = followAll (Index.of g) y es := by
  induction es with
  | nil => rfl
  | cons e es ih => rw [followAll, followAll, follow_congr h, ih]

theorem guarded_evaluateCall : g.Guarded (evaluateCall (Index.of g) order) := by
  intro inner inner' path n _ h
  unfold evaluateCall
  cases hk : n.kind with
  | inputColor name color => rfl
  | inputNumber name value => rfl
  | operation op =>
    by_cases hp : n.id ∈ path
    · simp only [hp, if_true]
    · simp only [hp, if_false, followAll_congr (h (by rw [hk]; rfl) hp)]
  | output name =>
    by_cases hp : n.id ∈ path
    · simp only [hp, if_true]
    · simp only [hp, if_false, follow_congr (h (by rw [hk]; rfl) hp)]

end Preview

namespace Graph

open Compile Preview

variable {g : Graph} {n : Node}

theorem maxNesting_le_depthFor (g : Graph) : g.maxNesting ≤ depthFor g := by
  have hids := (List.dedup_sublist ((g.nodes.filter (!·.kind.isSource)).map (·.id))).length_le
  rw [List.length_map] at hids
  exact Nat.succ_le_succ (hids.trans (List.length_filter_le _ _))

/-- Walks end with at most `maxNesting` calls open at a time, which compilations and previews allow:
a greater depth gives the same result, and what calls nested deeper would do makes no difference. -/
theorem walk_within_maxNesting (hn : n ∈ g.nodes) {depth : Nat} (hdepth : g.maxNesting ≤ depth)
    (path : List NodeId) (order : SlotOrder) :
    g.maxNesting ≤ depthFor g ∧
      (∀ b, expand ⟨Index.of g, order, b⟩ depth path n =
          expand ⟨Index.of g, order, b⟩ g.maxNesting path n ∧
        ∀ deeper, (expandCall ⟨Index.of g, order, b⟩)^[depth] deeper path n =
          expand ⟨Index.of g, order, b⟩ depth path n) ∧
      evaluateNode (Index.of g) order depth path n =
          evaluateNode (Index.of g) order g.maxNesting path n ∧
        ∀ deeper, (evaluateCall (Index.of g) order)^[depth] deeper path n =
          evaluateNode (Index.of g) order depth path n := by
  have hleast : (g.unopened path).length < g.maxNesting := g.length_unopened_lt path
  have henough : (g.unopened path).length < depth := by omega
  refine ⟨g.maxNesting_le_depthFor, fun b => ⟨?_, fun deeper => ?_⟩, ?_, fun deeper => ?_⟩
  · rw [expand_eq_iterate, expand_eq_iterate]
    exact guarded_expandCall.iterate_eq hn henough hleast _ _
  · rw [expand_eq_iterate]
    exact guarded_expandCall.iterate_eq hn henough henough _ _
  · rw [evaluateNode_eq_iterate, evaluateNode_eq_iterate]
    exact guarded_evaluateCall.iterate_eq hn henough hleast _ _
  · rw [evaluateNode_eq_iterate]
    exact guarded_evaluateCall.iterate_eq hn henough henough _ _

def ringRoad : Graph where
  nodes := [{ id := "m", kind := .operation .mix }, { id := "r", kind := .inputColor "old" "red" },
    { id := "o", kind := .output "mixed" }, { id := "r", kind := .operation .rotate }]
  edges := [connection "m" "o" none, connection "o" "r" (some "a"), connection "r" "r" (some "b"),
    connection "r" "m" (some "a"), connection "ghost" "m" (some "b")]

/-- One call less is not enough: it is the last one that finds the way back to the mix. -/
theorem walk_within_maxNesting_ringRoad :
    ringRoad.maxNesting = 4 ∧ ⟨"m", .operation .mix, [], []⟩ ∈ ringRoad.nodes ∧
      (∀ deeper, (expandCall ⟨Index.of ringRoad, .numeric, []⟩)^[4] deeper []
          ⟨"m", .operation .mix, [], []⟩ =
        expand ⟨Index.of ringRoad, .numeric, []⟩ 4 [] ⟨"m", .operation .mix, [], []⟩) ∧
      (∀ deeper, (evaluateCall (Index.of ringRoad) .numeric)^[4] deeper []
          ⟨"m", .operation .mix, [], []⟩ =
        evaluateNode (Index.of ringRoad) .numeric 4 [] ⟨"m", .operation .mix, [], []⟩) ∧
      (expand ⟨Index.of ringRoad, .numeric, []⟩ 4 [] ⟨"m", .operation .mix, [], []⟩ []).2 =
        [.cyclicInput "m", .cyclicInput "r", .missingNode "edge-ghost-m-b" "ghost"] ∧
      (expand ⟨Index.of ringRoad, .numeric, []⟩ 3 [] ⟨"m", .operation .mix, [], []⟩ []).2 =
        [.cyclicInput "r", .missingNode "edge-ghost-m-b" "ghost"] := by
  have hmax : ringRoad.maxNesting = 4 := by decide
  have hn : ⟨"m", .operation .mix, [], []⟩ ∈ ringRoad.nodes := List.mem_cons_self
  have h := walk_within_maxNesting hn hmax.le [] .numeric
  exact ⟨hmax, hn, (h.2.1 []).2, h.2.2.2, by decide, by decide⟩

end Graph
end ColorGraph
