import ColorGraph.Compile.Report
import ColorGraph.Preview.Evaluate
import ColorGraph.Proofs.Reachability
import ColorGraph.Proofs.SlotNumbers
/-!
Handles of one width: a stem that all share, a dash and equally many figures. Main statement: of a
graph with such handles nothing tells the two slot orders apart, neither the inputs of a node, nor
what is compiled, nor a preview.
-/

set_option autoImplicit false

namespace ColorGraph

open Compile

attribute [local instance (2000)] instPowNat

namespace SlotOrder

/-- A handle is absent or empty, or it is the stem, a dash and `width` figures. -/
def EquallyWide (stem : String) (width : Nat) (handle : Option String) : Prop :=
  handle = none ∨ handle = some "" ∨
    ∃ figures : List Char, figures.length = width ∧ (∀ c ∈ figures, c.isDigit = true) ∧
      handle = some (stem ++ "-" ++ String.ofList figures)

variable {cs ds : List Char} {stem : String} {width : Nat} {a b : Option String}
  {order₁ order₂ : SlotOrder} {es : List Edge}

theorem ofDigitChars_cons_eq (c : Char) (cs : List Char) :
    Nat.ofDigitChars 10 (c :: cs) 0 =
      10 ^ cs.length * (c.toNat - '0'.toNat) + Nat.ofDigitChars 10 cs 0 := by
  rw [Nat.ofDigitChars_cons, Nat.ofDigitChars_eq_ofDigitChars_zero, Nat.mul_zero, Nat.zero_add]

theorem ofDigitChars_lt (hcs : ∀ c ∈ cs, c.isDigit = true) :
    Nat.ofDigitChars 10 cs 0 < 10 ^ cs.length := by
  induction cs with
  | nil => exact Nat.one_pos
  | cons c cs ih =>
    have hlt := ih fun d hd => hcs d (.tail _ hd)
    have hc := (toDigits_of_isDigit (hcs c (.head _))).1
    have hle := Nat.mul_le_mul_left (10 ^ cs.length) (Nat.le_of_lt_succ hc)
    rw [ofDigitChars_cons_eq, List.length_cons, Nat.pow_succ]
    omega

theorem lt_of_ofDigitChars_lt (hlength : cs.length = ds.length)
    (hcs : ∀ c ∈ cs, c.isDigit = true) (hds : ∀ d ∈ ds, d.isDigit = true)
    (h : Nat.ofDigitChars 10 cs 0 < Nat.ofDigitChars 10 ds 0) : cs < ds := by
  induction cs generalizing ds with
  | nil =>
    rw [List.length_eq_zero_iff.1 hlength.symm] at h
    exact absurd h (Nat.lt_irrefl _)
  | cons c cs ih =>
    cases ds with
    | nil => cases hlength
    | cons d ds =>
      have hrest : cs.length = ds.length := Nat.succ.inj hlength
      have hcs' := fun x hx => hcs x (.tail _ hx)
      have hds' := fun x hx => hds x (.tail _ hx)
      rw [ofDigitChars_cons_eq, ofDigitChars_cons_eq, hrest] at h
      rcases Nat.lt_trichotomy c.toNat d.toNat with hlt | heq | hgt
      · exact List.Lex.rel hlt
      · obtain rfl := Char.toNat_inj.1 heq
        exact List.Lex.cons (ih hrest hcs' hds' (Nat.lt_of_add_lt_add_left h))
      · have hlt := ofDigitChars_lt hds'
        have hzero := (Char.isDigit_iff_toNat.1 (hds d (.head _))).1
        have hle : 10 ^ ds.length * (d.toNat - '0'.toNat + 1) ≤
            10 ^ ds.length * (c.toNat - '0'.toNat) := Nat.mul_le_mul_left _ (by omega)
        rw [Nat.mul_add, Nat.mul_one] at hle
        omega

theorem compare_eq_lt {s t : String} (h : s.toList < t.toList) : Ord.compare s t = .lt :=
  compareOfLessAndEq_eq_lt.2 h

section

variable (hlow : 1 ≤ width) (hhigh : width ≤ 19)
include hlow hhigh

theorem slotIndex?_of_figures (hlength : cs.length = width) (hcs : ∀ c ∈ cs, c.isDigit = true) :
    slotIndex? (stem ++ "-" ++ String.ofList cs) = some (Nat.ofDigitChars 10 cs 0) := by
  have hne : cs ≠ [] := List.ne_nil_of_length_pos (by omega)
  have ⟨zeros, hzeros⟩ := eq_written_of_isDigit hne hcs
  have hsplit : (stem ++ "-" ++ String.ofList cs).toList = stem.toList ++ '-' :: cs := by simp
  have hmax : 10 ^ width ≤ 10 ^ 19 := Nat.pow_le_pow_right (by decide) hhigh
  have hlt := ofDigitChars_lt hcs
  rw [hlength] at hlt
  refine slotIndex?_eq_some_iff.2 ⟨⟨cs, ⟨zeros, .inl hzeros⟩, .inr ⟨_, hsplit⟩⟩, ?_⟩
  exact (hlt.trans_le hmax).trans (by decide)

theorem cases_of_equallyWide (ha : EquallyWide stem width a) :
    a.getD "" = "" ∧ slotIndex? (a.getD "") = none ∨
      ∃ cs : List Char, cs.length = width ∧ (∀ c ∈ cs, c.isDigit = true) ∧
        a.getD "" = stem ++ "-" ++ String.ofList cs ∧
        slotIndex? (a.getD "") = some (Nat.ofDigitChars 10 cs 0) := by
  rcases ha with rfl | rfl | ⟨cs, hlength, hcs, rfl⟩
  · exact .inl ⟨rfl, by decide⟩
  · exact .inl ⟨rfl, by decide⟩
  · exact .inr ⟨cs, hlength, hcs, rfl, slotIndex?_of_figures hlow hhigh hlength hcs⟩

theorem lt_of_slotIndex?_lt (ha : EquallyWide stem width a) (hb : EquallyWide stem width b)
    (h : Ord.compare (slotIndex? (a.getD "")) (slotIndex? (b.getD "")) = .lt) :
    Ord.compare (a.getD "") (b.getD "") = .lt := by
  rcases cases_of_equallyWide hlow hhigh ha with ⟨ha, hnone⟩ | ⟨cs, hlength, hcs, ha, hm⟩ <;>
    rcases cases_of_equallyWide hlow hhigh hb with ⟨hb, hnone'⟩ | ⟨ds, hlength', hds, hb, hn⟩
  · rw [hnone, hnone'] at h
    cases h
  · rw [ha, hb]
    refine compare_eq_lt ?_
    cases hstem : stem.toList <;> simp [hstem]
  · rw [hm, hnone'] at h
    cases h
  · rw [hm, hn] at h
    have hlt := lt_of_ofDigitChars_lt (hlength.trans hlength'.symm) hcs hds (Nat.compare_eq_lt.1 h)
    rw [ha, hb]
    refine compare_eq_lt ?_
    simp only [String.toList_append, String.toList_ofList]
    exact List.append_left_lt hlt

/-- The two orders compare handles of one width alike. -/
theorem compare_of_equallyWide (ha : EquallyWide stem width a) (hb : EquallyWide stem width b) :
    numeric.compare a b = lexicographic.compare a b := by
  rw [compare_numeric, compare_lexicographic, compareLex, compareOn, compareOn]
  cases h : Ord.compare (slotIndex? (a.getD "")) (slotIndex? (b.getD "")) with
  | lt => exact (lt_of_slotIndex?_lt hlow hhigh ha hb h).symm
  | eq => rfl
  | gt =>
    have hlt := lt_of_slotIndex?_lt hlow hhigh hb ha (Std.OrientedCmp.lt_of_gt h)
    exact (Std.OrientedCmp.gt_of_lt hlt).symm

end

theorem place_congr {e : Edge} (h : ∀ f ∈ es, order₁.precedes e f = order₂.precedes e f) :
    order₁.place e es = order₂.place e es := by
  induction es with
  | nil => rfl
  | cons f rest ih =>
    have ⟨hf, hrest⟩ := List.forall_mem_cons.1 h
    rw [place, place, hf, ih hrest]

theorem sort_congr (h : ∀ e ∈ es, ∀ f ∈ es, order₁.compare e.targetHandle f.targetHandle =
    order₂.compare e.targetHandle f.targetHandle) : order₁.sort es = order₂.sort es := by
  induction es with
  | nil => rfl
  | cons e rest ih =>
    have hrest := ih fun d hd f hf => h d (.tail _ hd) f (.tail _ hf)
    have hplace : ∀ f ∈ order₂.sort rest, order₁.precedes e f = order₂.precedes e f := by
      intro f hf
      have hmem := (sort_perm order₂ rest).mem_iff.1 hf
      rw [precedes, precedes, h e (.head _) f (.tail _ hmem)]
    change order₁.place e (order₁.sort rest) = order₂.place e (order₂.sort rest)
    rw [hrest, place_congr hplace]

end SlotOrder

namespace Graph

open SlotOrder

variable {g : Graph} {stem : String} {width : Nat}

theorem inputEdges_of_equallyWide (hlow : 1 ≤ width) (hhigh : width ≤ 19)
    (h : ∀ e ∈ g.edges, EquallyWide stem width e.targetHandle) (id : NodeId) :
    (Index.of g).inputEdges .numeric id = (Index.of g).inputEdges .lexicographic id := by
  rw [Index.inputEdges, Index.inputEdges, Index.incoming_of]
  refine sort_congr fun e he f hf => ?_
  have hmem : ∀ d ∈ g.edgesInto id, d ∈ g.edges := fun d hd => (List.mem_filter.1 hd).1
  exact compare_of_equallyWide hlow hhigh (h e (hmem e he)) (h f (hmem f hf))

end Graph

def Index.SameInputs (ix : Index) (order₁ order₂ : SlotOrder) : Prop :=
  ∀ id, ix.inputEdges order₁ id = ix.inputEdges order₂ id

variable {ix : Index} {order₁ order₂ : SlotOrder}

namespace Compile

theorem expand_congr (h : ix.SameInputs order₁ order₂) (bindings : Bindings) (depth : Nat)
    (path : List NodeId) :
    expand ⟨ix, order₁, bindings⟩ depth path = expand ⟨ix, order₂, bindings⟩ depth path := by
  induction depth generalizing path with
  | zero => rfl
  | succ depth ih =>
    funext n log
    simp only [expand, expandCall, ih, h n.id]

theorem addOutput_congr {o : Options} (h : ix.SameInputs order₁ order₂) :
    Progress.addOutput ix { o with slotOrder := order₁ } =
      Progress.addOutput ix { o with slotOrder := order₂ } := by
  funext p n
  simp only [Progress.addOutput, expand_congr h]
  rfl

theorem progress_congr {o : Options} (h : ix.SameInputs order₁ order₂) (outputs : List Node) :
    progress ix { o with slotOrder := order₁ } outputs =
      progress ix { o with slotOrder := order₂ } outputs := by
  rw [progress, progress, addOutput_congr h]
  rfl

end Compile

namespace Preview

theorem evaluateNode_congr (h : ix.SameInputs order₁ order₂) (depth : Nat) (path : List NodeId) :
    evaluateNode ix order₁ depth path = evaluateNode ix order₂ depth path := by
  induction depth generalizing path with
  | zero => rfl
  | succ depth ih =>
    funext n
    simp only [evaluateNode, evaluateCall, ih, h n.id]

end Preview

namespace Graph

open SlotOrder

variable {g : Graph} {stem : String} {width : Nat}

/-- With handles of one width it makes no difference which slot order is chosen. -/
theorem indifferent_to_slotOrder (hlow : 1 ≤ width) (hhigh : width ≤ 19)
    (h : ∀ e ∈ g.edges, EquallyWide stem width e.targetHandle) :
    (∀ id, (Index.of g).inputEdges .numeric id = (Index.of g).inputEdges .lexicographic id) ∧
      (∀ o : Options, g.compile { o with slotOrder := .numeric } =
        g.compile { o with slotOrder := .lexicographic }) ∧
      ∀ id, g.preview .numeric id = g.preview .lexicographic id := by
  have hinputs : (Index.of g).SameInputs .numeric .lexicographic :=
    inputEdges_of_equallyWide hlow hhigh h
  refine ⟨hinputs, fun o => ?_, fun id => ?_⟩
  · simp only [compile, progress_congr hinputs]
  · simp only [preview, Preview.evaluate, Preview.evaluateNode_congr hinputs]

def twoDigits : Graph where
  nodes := [{ id := "c", kind := .inputColor "base" "red" }, { id := "m", kind := .operation .mix },
    { id := "r", kind := .operation .rotate }, { id := "o", kind := .output "mixed" }]
  edges := [connection "r" "m" (some "in-1-10"), connection "c" "m" (some "in-1-09"),
    connection "m" "r" none, connection "ghost" "r" (some ""), connection "m" "o" none]

theorem indifferent_to_slotOrder_twoDigits :
    (∀ e ∈ twoDigits.edges, EquallyWide "in-1" 2 e.targetHandle) ∧ ¬ twoDigits.Acyclic ∧
      ((Index.of twoDigits).inputEdges .numeric "m").map (·.source) = ["c", "r"] ∧
      (∀ id, (Index.of twoDigits).inputEdges .numeric id =
        (Index.of twoDigits).inputEdges .lexicographic id) ∧
      (∀ o : Options, twoDigits.compile { o with slotOrder := .numeric } =
        twoDigits.compile { o with slotOrder := .lexicographic }) ∧
      ∀ id, twoDigits.preview .numeric id = twoDigits.preview .lexicographic id := by
  have hwide : ∀ e ∈ twoDigits.edges, EquallyWide "in-1" 2 e.targetHandle := by
    simp only [twoDigits, List.forall_mem_cons]
    exact ⟨.inr (.inr ⟨['1', '0'], rfl, by simp, rfl⟩),
      .inr (.inr ⟨['0', '9'], rfl, by simp, rfl⟩), .inl rfl, .inr (.inl rfl), .inl rfl,
      List.forall_mem_nil _⟩
  exact ⟨hwide, by decide, by decide,
    indifferent_to_slotOrder (by decide) (by decide) hwide⟩

end Graph
end ColorGraph
