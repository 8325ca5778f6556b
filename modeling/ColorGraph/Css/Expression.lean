import ColorGraph.Graph.Operation
import ColorGraph.Graph.Basic
/-!
The expressions that style-sheet values are made of, and their text. Main statement: the text of an
operation is never empty, whatever its inputs are.
-/

set_option autoImplicit false

namespace ColorGraph

namespace Operation

/-- An input slot. Empty text counts as a missing input. -/
def slot? (inputs : List (Option String)) (i : Nat) : Option String :=
  inputs[i]?.join.filter (· ≠ "")

theorem mem_of_slot? {inputs : List (Option String)} {i : Nat} {t : String}
    (h : slot? inputs i = some t) : some t ∈ inputs ∧ t ≠ "" := by
  obtain ⟨hjoin, hne⟩ := Option.filter_eq_some_iff.1 h
  exact ⟨List.mem_of_getElem? (Option.join_eq_some_iff.1 hjoin), of_decide_eq_true hne⟩

def arithmeticSign : Operation → String
  | add => "+"
  | subtract => "-"
  | multiply => "*"
  | _ => "/"

def adjustmentText (op : Operation) (color amount : String) : String :=
  let channels :=
    match op with
    | lighten => "calc(l + " ++ amount ++ ") c h"
    | darken => "calc(l - " ++ amount ++ ") c h"
    | saturate => "l calc(c + " ++ amount ++ ") h"
    | desaturate => "l calc(c - " ++ amount ++ ") h"
    | _ => "l c calc(h + " ++ amount ++ ")"
  "oklch(from " ++ color ++ " " ++ channels ++ ")"

/-- The text of an operation over its inputs in slot order; those past the second are unused. -/
def cssText (op : Operation) (inputs : List (Option String)) : String :=
  let a := slot? inputs 0
  let b := slot? inputs 1
  match op.defaultAmount, op.cssOperands with
  | some amount, _ =>
    op.adjustmentText (a.getD defaultColor) (b.getD (Decimal.plain.text amount))
  | none, some (first, second) =>
    "calc(" ++ a.getD first ++ " " ++ op.arithmeticSign ++ " " ++ b.getD second ++ ")"
  | none, none =>
    match op with
    | mix =>
      match a, b with
      | some a, some b => "color-mix(in oklch, " ++ a ++ ", " ++ b ++ ")"
      | some a, none => a
      | none, some b => b
      | none, none => defaultColor
    | invert => "oklch(from " ++ a.getD defaultColor ++ " calc(1 - l) c h)"
    | _ => "oklch(from " ++ a.getD defaultColor ++ " l c calc(h + 180))"

theorem cssText_ne_empty (op : Operation) (inputs : List (Option String)) :
    op.cssText inputs ≠ "" := by
  unfold cssText adjustmentText
  dsimp only
  split
  · simp [String.append_eq_empty_iff]
  · simp [String.append_eq_empty_iff]
  · split
    · split
      · simp [String.append_eq_empty_iff]
      next h _ => exact (mem_of_slot? h).2
      next h => exact (mem_of_slot? h).2
      · decide
    · simp [String.append_eq_empty_iff]
    · simp [String.append_eq_empty_iff]

end Operation

namespace Css

inductive Expression where
  | literal (text : String)
  | reference (node : NodeId) (name : String)
  | operation (op : Operation) (inputs : List (Option Expression))

namespace Expression

mutual

def text : Expression → String
  | literal t => t
  | reference _ name => "var(--" ++ name ++ ")"
  | operation op inputs => op.cssText (texts inputs)

def texts : List (Option Expression) → List (Option String)
  | [] => []
  | none :: rest => none :: texts rest
  | some e :: rest => some e.text :: texts rest

end

end Expression
end Css
end ColorGraph
