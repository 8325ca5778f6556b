import ColorGraph.Graph.Basic
/-!
What a compilation worked around.
-/

set_option autoImplicit false

namespace ColorGraph

inductive Diagnostic where
  | missingNode (edge : String) (node : NodeId)
  | unnamedNode (node : NodeId)
  | disconnectedOutput (node : NodeId)
  | cyclicOutputs (outputs : List NodeId)
  | cyclicInput (node : NodeId)
deriving DecidableEq, Repr

namespace Diagnostic

def message : Diagnostic → String
  | missingNode edge node => "Edge '" ++ edge ++ "' references missing node '" ++ node ++ "'"
  | unnamedNode node => "Node '" ++ node ++ "' has no export name"
  | disconnectedOutput node => "Output '" ++ node ++ "' is not connected"
  | cyclicOutputs outputs =>
    "Outputs depend on each other in a cycle: " ++ ", ".intercalate outputs
  | cyclicInput node => "Node '" ++ node ++ "' feeds into itself"

end Diagnostic

abbrev Log := List Diagnostic

namespace Log

def report (log : Log) (d : Diagnostic) : Log :=
  if d ∈ log then log else log ++ [d]

theorem mem_report {log : Log} {d e : Diagnostic} : e ∈ log.report d ↔ e ∈ log ∨ e = d := by
  unfold report
  split
  next h => exact ⟨Or.inl, fun he => he.elim id fun h' => h' ▸ h⟩
  next => simp

theorem nodup_report {log : Log} (h : log.Nodup) (d : Diagnostic) : (log.report d).Nodup := by
  unfold report
  split
  · exact h
  next hd =>
    refine List.nodup_append.2 ⟨h, by simp, ?_⟩
    intro a ha b hb e
    simp only [List.mem_singleton] at hb
    exact hd (by rw [← hb, ← e]; exact ha)

theorem prefix_report (log : Log) (d : Diagnostic) : log <+: log.report d := by
  unfold report
  split
  · exact List.prefix_refl _
  · exact List.prefix_append _ _

end Log
end ColorGraph
