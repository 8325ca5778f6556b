import ColorGraph.Compile.Diagnostic
import ColorGraph.Compile.Options
import ColorGraph.Css.Expression
import ColorGraph.Graph.Index
/-!
From a node to the expression for its value: walking edges backward until a variable or a source.
Main statements: what a node is bound to after a variable was set, always or only when it had none.
-/

set_option autoImplicit false

namespace ColorGraph.Compile

abbrev Bindings := List (NodeId × String)

namespace Bindings

def name? (b : Bindings) (id : NodeId) : Option String :=
  (b.find? (·.1 == id)).map (·.2)

def set (b : Bindings) (id : NodeId) (name : String) : Bindings :=
  (id, name) :: b

def setNew (b : Bindings) (id : NodeId) (name : String) : Bindings :=
  if (b.name? id).isSome then b else b.set id name

theorem name?_set (b : Bindings) (id other : NodeId) (name : String) :
    (b.set id name).name? other = if other = id then some name else b.name? other := by
  by_cases h : other = id
  · simp [set, name?, h]
  · simp [set, name?, h, beq_eq_false_iff_ne.2 (Ne.symm h)]

theorem name?_setNew (b : Bindings) (id other : NodeId) (name : String) :
    (b.setNew id name).name? other =
      (b.name? other).or (if other = id then some name else none) := by
  unfold setNew
  split
  next h =>
    by_cases ho : other = id
    · subst ho
      cases hb : b.name? other with
      | none => simp [hb] at h
      | some _ => rfl
    · simp [ho]
  next h =>
    rw [name?_set]
    by_cases ho : other = id
    · subst ho
      cases hb : b.name? other with
      | none => simp
      | some _ => simp [hb] at h
    · simp [ho]

theorem name?_setNew_if (b : Bindings) (reuse : Bool) (id : NodeId) (name : String) :
    (if reuse then b.setNew id name else b).name? = fun other =>
      (b.name? other).or (if reuse = true ∧ other = id then some name else none) := by
  funext other
  cases reuse with
  | false => simp
  | true => simp [name?_setNew]

end Bindings

structure Scope where
  index : Index
  slotOrder : SlotOrder
  bindings : Bindings

def colorLiteral (color : String) : String :=
  if color = "" then defaultColor else color

def numberLiteral (value : Float) : String :=
  Decimal.plain.text value

abbrev Expansion := Node → Log → Option Css.Expression × Log

def follow (ix : Index) (expansion : Expansion) (e : Edge) (log : Log) :
    Option Css.Expression × Log :=
  match ix.node? e.source with
  | some n => expansion n log
  | none => (none, log.report (.missingNode e.id e.source))

def followAll (ix : Index) (expansion : Expansion) :
    List Edge → Log → List (Option Css.Expression) × Log
  | [], log => ([], log)
  | e :: es, log =>
    let (x, log) := follow ix expansion e log
    let (xs, log) := followAll ix expansion es log
    (x :: xs, log)

/-- One call of an expansion. `inner` stands for the calls that it makes. `path` holds the nodes
whose inputs are being expanded; one of them met again gives nothing. -/
def expandCall (scope : Scope) (inner : List NodeId → Expansion) (path : List NodeId) : Expansion :=
  fun n log =>
    match scope.bindings.name? n.id with
    | some name => (some (.reference n.id name), log)
    | none =>
      match n.kind with
      | .inputColor _ color => (some (.literal (colorLiteral color)), log)
      | .inputNumber _ value => (some (.literal (numberLiteral value)), log)
      | .operation op =>
        if n.id ∈ path then (none, log.report (.cyclicInput n.id))
        else
          let (inputs, log) := followAll scope.index (inner (n.id :: path))
            (scope.index.inputEdges scope.slotOrder n.id) log
          (some (.operation op inputs), log)
      | .output _ =>
        if n.id ∈ path then (none, log.report (.cyclicInput n.id))
        else
          match scope.index.producerEdge? n.id with
          | none => (none, log)
          | some e => follow scope.index (inner (n.id :: path)) e log

def expand (scope : Scope) : Nat → List NodeId → Expansion
  | 0 => fun _ _ log => (none, log)
  | depth + 1 => expandCall scope (expand scope depth)

/-- Enough for every walk: a path never holds a node twice. -/
def depthFor (g : Graph) : Nat :=
  g.nodes.length + 1

end ColorGraph.Compile
