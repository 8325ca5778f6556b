import ColorGraph.Proofs.ComposedPreviews
import ColorGraph.Proofs.Expansion
/-!
Previews that are numbers computed from numbers. Main statement: in a graph without cycles no
preview fails where all of it is arithmetic.
-/

set_option autoImplicit false

namespace ColorGraph

theorem Preview.apply_of_arithmetic {op : Operation} (ho : op.isArithmetic)
    (vs : List (Option Preview)) : ∃ x, apply op vs = .ok (some (number x)) := by
  cases op with
  | add | subtract | multiply | divide => exact ⟨_, rfl⟩
  | _ => cases ho

namespace Graph

variable {g : Graph} {order : SlotOrder} {id : NodeId} {n : Node}

theorem preview_number {name : String} {x : Float} (hn : g.lastNode? n.id = some n)
    (hk : n.kind = .inputNumber name x) : g.preview order n.id = .ok (some (.number x)) := by
  have hs : n.source? = some n := by simp [Node.source?, hk, Node.Kind.isSource]
  rw [preview_eq, unfold_leaf hn hs, Preview.ofTree, Tree.fold, Preview.ofSource, hk]
  rfl

theorem Acyclic.preview_operation (h : g.Acyclic) {op : Operation} (hn : g.lastNode? n.id = some n)
    (hk : n.kind = .operation op) : g.preview order n.id =
      Preview.applyAll op ((g.inputEdges order n.id).map fun e => g.preview order e.source) :=
  (h.walksOut n.id).preview_operation hn hk

theorem Acyclic.preview_output (h : g.Acyclic) (hn : g.lastNode? n.id = some n)
    (ho : n.kind.isOutput = true) :
    g.preview order n.id = (g.producer? n.id).elim (.ok none) (g.preview order) :=
  (h.walksOut n.id).preview_output hn ho

def operands (g : Graph) (order : SlotOrder) (n : Node) : List NodeId :=
  match n.kind with
  | .operation _ => ((g.inputEdges order n.id).take 2).map (·.source)
  | .output _ => (g.producer? n.id).toList
  | _ => []

def spareInputs (g : Graph) (order : SlotOrder) (n : Node) : List NodeId :=
  match n.kind with
  | .operation _ => ((g.inputEdges order n.id).drop 2).map (·.source)
  | _ => []

def ComputedFrom (g : Graph) (order : SlotOrder) : NodeId → NodeId → Prop :=
  Relation.ReflTransGen fun a b => ∃ n, g.lastNode? a = some n ∧ b ∈ g.operands order n

def input? (g : Graph) (order : SlotOrder) (id : NodeId) (slot : Nat) : Option NodeId :=
  ((g.inputEdges order id)[slot]?).map (·.source)

/-- A node of arithmetic: a finite number, an output, or an operation on numbers that is not a product
without its first factor nor a division by zero. -/
def Calculates (g : Graph) (order : SlotOrder) (n : Node) : Prop :=
  match n.kind with
  | .inputColor .. => False
  | .inputNumber _ x => x.isFinite
  | .output _ => True
  | .operation op => op.isArithmetic ∧
    (op = .multiply → ∃ a ∈ g.input? order n.id 0, g.HasOrigin a) ∧
    (op = .divide → ∀ a ∈ g.input? order n.id 1, ∀ y : Float,
      g.preview order a = .ok (some (.number y)) → (y == 0.0) = false)

/-- All that the value of a node is computed from is arithmetic, and the rest has a preview. -/
def Arithmetic (g : Graph) (order : SlotOrder) (id : NodeId) : Prop :=
  ∀ n, g.lastNode? n.id = some n → g.ComputedFrom order id n.id →
    g.Calculates order n ∧ ∀ a ∈ g.spareInputs order n, ∃ v, g.preview order a = .ok v

theorem operands_output (ho : n.kind.isOutput = true) :
    g.operands order n = (g.producer? n.id).toList := by
  unfold operands
  cases hk : n.kind <;> simp_all [Node.Kind.isOutput]

theorem Arithmetic.calculates (h : g.Arithmetic order n.id) (hn : g.lastNode? n.id = some n) :
    g.Calculates order n :=
  (h n hn .refl).1

theorem Arithmetic.operand {a : NodeId} (h : g.Arithmetic order n.id)
    (hn : g.lastNode? n.id = some n) (ha : a ∈ g.operands order n) : g.Arithmetic order a :=
  fun m hm hma => h m hm (.head ⟨n, hn, ha⟩ hma)

theorem mem_operands_or_spareInputs {op : Operation} (hk : n.kind = .operation op) {e : Edge}
    (he : e ∈ g.inputEdges order n.id) :
    e.source ∈ g.operands order n ∨ e.source ∈ g.spareInputs order n := by
  rw [← List.take_append_drop 2 (g.inputEdges order n.id), List.mem_append] at he
  simp only [operands, spareInputs, hk]
  exact he.imp List.mem_map_of_mem List.mem_map_of_mem

def LooksAt (g : Graph) (order : SlotOrder) : NodeId → NodeId → Prop :=
  Relation.ReflTransGen fun a b => ∃ n, g.lastNode? a = some n ∧
    (b ∈ g.operands order n ∨ b ∈ g.spareInputs order n)

theorem ComputedFrom.looksAt {a b : NodeId} (h : g.ComputedFrom order a b) :
    g.LooksAt order a b :=
  Relation.ReflTransGen.mono (fun _ _ ⟨n, hn, hoperand⟩ => ⟨n, hn, .inl hoperand⟩) _ _ h

def AllArithmetic (g : Graph) (order : SlotOrder) (id : NodeId) : Prop :=
  ∀ n, g.lastNode? n.id = some n → g.LooksAt order id n.id → g.Calculates order n

theorem AllArithmetic.input {a : NodeId} (h : g.AllArithmetic order n.id)
    (hn : g.lastNode? n.id = some n) (ha : a ∈ g.operands order n ∨ a ∈ g.spareInputs order n) :
    g.AllArithmetic order a :=
  fun m hm hma => h m hm (.head ⟨n, hn, ha⟩ hma)

/-- Without colors no preview fails. -/
theorem AllArithmetic.exists_preview (h : g.Acyclic) (hall : g.AllArithmetic order id) :
    ∃ v, g.preview order id = .ok v := by
  induction id using h.induction with
  | absent id hn => exact ⟨none, preview_absent hn⟩
  | source n text hn hl =>
    have hcalc := hall n hn .refl
    cases hk : n.kind with
    | inputColor name color => simp [Calculates, hk] at hcalc
    | inputNumber name x => exact ⟨_, preview_number hn hk⟩
    | _ => simp [Node.literal?, hk] at hl
  | operation n op hn hl ho ih =>
    have hk := Node.Kind.eq_operation ho
    have hcalc := hall n hn .refl
    simp only [Calculates, hk] at hcalc
    have hinputs : ∀ e ∈ g.inputEdges order n.id, ∃ v, g.preview order e.source = .ok v :=
      fun e he => ih e (feeds_of_mem_inputEdges he)
        (hall.input hn (mem_operands_or_spareInputs hk he))
    obtain ⟨vs, hvs, _⟩ := mapM_map_of_ok hinputs
    obtain ⟨x, hx⟩ := Preview.apply_of_arithmetic hcalc.1 vs
    exact ⟨_, by rw [h.preview_operation hn hk, Preview.applyAll, hvs]; exact hx⟩
  | unconnected n hn hl ho hpe =>
    have hkind := Node.isOutput_iff.2 ⟨hl, ho⟩
    exact ⟨none, by rw [h.preview_output hn hkind, producer?_of_no_edge hpe, Option.elim_none]⟩
  | output n e hn hl ho hpe ih =>
    have hkind := Node.isOutput_iff.2 ⟨hl, ho⟩
    have hp := producer?_of_edge hpe
    rw [h.preview_output hn hkind, hp, Option.elim_some]
    exact ih (hall.input hn (.inl (by simp [operands_output hkind, hp])))

theorem AllArithmetic.arithmetic (h : g.Acyclic) (hall : g.AllArithmetic order id) :
    g.Arithmetic order id := by
  intro n hn hcomputed
  have hlooks := hcomputed.looksAt
  refine ⟨hall n hn hlooks, fun a ha => AllArithmetic.exists_preview h fun m hm hma => ?_⟩
  exact hall m hm (hlooks.trans (.head ⟨n, hn, .inr ha⟩ hma))

end Graph
end ColorGraph
