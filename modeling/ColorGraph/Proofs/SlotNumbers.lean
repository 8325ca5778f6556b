import ColorGraph.Graph.Index
import ColorGraph.Proofs.SlotSorting
import Mathlib.Data.List.Induction
/-!
Handles that end in a number. Main statements: the number of a handle is the one that is written
after its last dash; and the inputs of a node are its edges in a total order of their handles, by
that number first where slots are numeric, with edges of one handle as they stand in the graph.
-/

set_option autoImplicit false

namespace ColorGraph

attribute [local instance (2000)] instPowNat

namespace SlotOrder

/-- The figures of a number. Zeros may stand before them, and a plus before all. -/
def Writes (t : List Char) (n : Nat) : Prop :=
  ∃ zeros, t = List.replicate zeros '0' ++ Nat.toDigits 10 n ∨
    t = '+' :: (List.replicate zeros '0' ++ Nat.toDigits 10 n)

/-- A number is written after the last dash of the handle, or by all of it. -/
def EndsIn (handle : String) (n : Nat) : Prop :=
  ∃ t, Writes t n ∧ (handle.toList = t ∨ ∃ p, handle.toList = p ++ '-' :: t)

variable {t cs : List Char} {m n : Nat} {handle : String} {a b : Option String}

theorem isDigit_of_mem_written {c : Char} {zeros : Nat}
    (hc : c ∈ List.replicate zeros '0' ++ Nat.toDigits 10 n) : c.isDigit = true := by
  rcases List.mem_append.1 hc with hc | hc
  · rw [List.eq_of_mem_replicate hc]
    rfl
  · exact Nat.isDigit_of_mem_toDigits (by decide) (by decide) hc

theorem figures?_written (zeros n : Nat) :
    figures? (List.replicate zeros '0' ++ Nat.toDigits 10 n) = some n := by
  have hdigits : (List.replicate zeros '0' ++ Nat.toDigits 10 n).all Char.isDigit = true :=
    List.all_eq_true.2 fun c hc => isDigit_of_mem_written hc
  have hne : List.replicate zeros '0' ++ Nat.toDigits 10 n ≠ [] := by simp
  have hvalue : Nat.ofDigitChars 10 (List.replicate zeros '0' ++ Nat.toDigits 10 n) 0 = n := by
    rw [Nat.ofDigitChars_append, Nat.ofDigitChars_replicate_zero, Nat.mul_zero,
      Nat.ofDigitChars_toDigits (by decide) (by decide)]
  rw [figures?, if_pos ⟨hne, hdigits⟩]
  exact congrArg some hvalue

theorem toDigits_of_isDigit {c : Char} (hc : c.isDigit = true) :
    c.toNat - '0'.toNat < 10 ∧ Nat.toDigits 10 (c.toNat - '0'.toNat) = [c] := by
  have hzero : '0'.toNat = 48 := rfl
  simp only [Char.isDigit, Bool.and_eq_true, decide_eq_true_eq, UInt32.le_iff_toNat_le] at hc
  have hlow : 48 ≤ c.toNat := hc.1
  have hhigh : c.toNat ≤ 57 := hc.2
  have hlt : c.toNat - '0'.toNat < 10 := by omega
  have hchar : (c.toNat - '0'.toNat).digitChar = c := by
    apply Char.toNat_inj.1
    rw [Nat.toNat_digitChar_of_lt_ten hlt]
    omega
  exact ⟨hlt, by rw [Nat.toDigits_of_lt_base hlt, hchar]⟩

theorem eq_written_of_isDigit (hne : cs ≠ []) (hcs : ∀ c ∈ cs, c.isDigit = true) :
    ∃ zeros, cs = List.replicate zeros '0' ++ Nat.toDigits 10 (Nat.ofDigitChars 10 cs 0) := by
  induction cs using List.reverseRecOn with
  | nil => exact absurd rfl hne
  | append_singleton ds c ih =>
    have hds := fun d hd => hcs d (List.mem_append_left _ hd)
    have ⟨hlt, hc⟩ := toDigits_of_isDigit (hcs c (by simp))
    have hvalue : Nat.ofDigitChars 10 (ds ++ [c]) 0 =
        10 * Nat.ofDigitChars 10 ds 0 + (c.toNat - '0'.toNat) := by
      rw [Nat.ofDigitChars_append]
      rfl
    rw [hvalue]
    by_cases hempty : ds = []
    · have hfirst : 10 * Nat.ofDigitChars 10 [] 0 + (c.toNat - '0'.toNat) = c.toNat - '0'.toNat :=
        Nat.zero_add _
      rw [hempty, hfirst, hc]
      exact ⟨0, rfl⟩
    · rcases ih hempty hds with ⟨zeros, hzeros⟩
      rcases Nat.eq_zero_or_pos (Nat.ofDigitChars 10 ds 0) with hzero | hpos
      · rw [hzero] at hzeros ⊢
        refine ⟨zeros + 1, ?_⟩
        rw [Nat.mul_zero, Nat.zero_add, hc, hzeros, List.replicate_succ']
        rfl
      · refine ⟨zeros, ?_⟩
        rw [← Nat.toDigits_append_toDigits (by decide) hpos hlt, hc, ← List.append_assoc, ← hzeros]

theorem figures?_eq_some_iff : figures? cs = some n ↔
    ∃ zeros, cs = List.replicate zeros '0' ++ Nat.toDigits 10 n := by
  constructor
  · intro h
    unfold figures? at h
    split at h
    next hcs =>
      rcases eq_written_of_isDigit hcs.1 (List.all_eq_true.1 hcs.2) with ⟨zeros, hzeros⟩
      cases h
      exact ⟨zeros, hzeros⟩
    · cases h
  · rintro ⟨zeros, rfl⟩
    exact figures?_written zeros n

theorem dash_notMem (h : Writes t n) : '-' ∉ t := by
  rcases h with ⟨zeros, rfl | rfl⟩ <;> intro hdash
  · exact absurd (isDigit_of_mem_written hdash) (by decide)
  · rcases List.mem_cons.1 hdash with hplus | hdash
    · exact absurd hplus (by decide)
    · exact absurd (isDigit_of_mem_written hdash) (by decide)

theorem suffix_append_of_dash_notMem (h : '-' ∉ t) (p : List Char) :
    suffix (p ++ t) = suffix p ++ t := by
  have hall : ∀ c ∈ t.reverse, (c != '-') = true := by
    intro c hc
    simp only [bne_iff_ne]
    rintro rfl
    exact h (List.mem_reverse.1 hc)
  rw [suffix, List.reverse_append, List.takeWhile_append_of_pos hall, List.reverse_append,
    List.reverse_reverse, suffix]

theorem suffix_eq_of_dash_notMem (h : '-' ∉ t) : suffix t = t :=
  suffix_append_of_dash_notMem h []

theorem suffix_append_dash (p : List Char) (h : '-' ∉ t) : suffix (p ++ '-' :: t) = t := by
  have hdash : suffix (p ++ ['-']) = [] := by simp [suffix]
  rw [List.append_cons, suffix_append_of_dash_notMem h, hdash, List.nil_append]

theorem eq_append_suffix (cs : List Char) : cs = suffix cs ∨ ∃ p, cs = p ++ '-' :: suffix cs := by
  have hsplit := congrArg List.reverse
    (List.takeWhile_append_dropWhile (p := (· != '-')) (l := cs.reverse))
  rw [List.reverse_append, List.reverse_reverse] at hsplit
  cases hrest : cs.reverse.dropWhile (· != '-') with
  | nil =>
    rw [hrest] at hsplit
    exact .inl hsplit.symm
  | cons c rest =>
    have hdash : (c != '-') = false := by
      have hhead := List.head?_dropWhile_not (· != '-') cs.reverse
      rw [hrest] at hhead
      simpa using hhead
    rw [hrest, List.reverse_cons, List.append_assoc] at hsplit
    simp only [bne_eq_false_iff_eq] at hdash
    subst hdash
    exact .inr ⟨rest.reverse, hsplit.symm⟩

theorem endsIn_iff : EndsIn handle n ↔ Writes (suffix handle.toList) n := by
  constructor
  · rintro ⟨t, ht, h | ⟨p, h⟩⟩ <;> rw [h]
    · rwa [suffix_eq_of_dash_notMem (dash_notMem ht)]
    · rwa [suffix_append_dash p (dash_notMem ht)]
  · intro h
    exact ⟨_, h, eq_append_suffix handle.toList⟩

theorem plus_written_iff {ds : List Char} {zeros : Nat} :
    ('+' :: ds = List.replicate zeros '0' ++ Nat.toDigits 10 n ∨
      '+' :: ds = '+' :: (List.replicate zeros '0' ++ Nat.toDigits 10 n)) ↔
      ds = List.replicate zeros '0' ++ Nat.toDigits 10 n := by
  rw [List.cons.injEq, and_iff_right rfl]
  refine or_iff_right fun h => ?_
  have hplus : '+' ∈ List.replicate zeros '0' ++ Nat.toDigits 10 n := h ▸ List.mem_cons_self
  exact absurd (isDigit_of_mem_written hplus) (by decide)

/-- The number of a handle is the one that it ends in, below `2 ^ 64`. -/
theorem slotIndex?_eq_some_iff :
    slotIndex? handle = some n ↔ EndsIn handle n ∧ n < 2 ^ (64 : Nat) := by
  rw [endsIn_iff, slotIndex?, Option.filter_eq_some_iff, decide_eq_true_eq]
  refine and_congr_left fun _ => ?_
  split
  next ds hds =>
    rw [hds, figures?_eq_some_iff]
    exact exists_congr fun zeros => plus_written_iff.symm
  next hds =>
    rw [figures?_eq_some_iff]
    refine exists_congr fun zeros => (or_iff_left ?_).symm
    exact fun h => hds _ h

theorem numeric_compare_eq_lt
    (h : Ord.compare (slotIndex? (a.getD "")) (slotIndex? (b.getD "")) = .lt) :
    numeric.compare a b = .lt := by
  rw [compare_numeric, compareLex, compareOn, h]
  rfl

theorem numeric_compare_of_lt (ha : EndsIn (a.getD "") m) (hb : EndsIn (b.getD "") n)
    (hmn : m < n) (hn : n < 2 ^ (64 : Nat)) : numeric.compare a b = .lt := by
  apply numeric_compare_eq_lt
  rw [slotIndex?_eq_some_iff.2 ⟨ha, by omega⟩, slotIndex?_eq_some_iff.2 ⟨hb, hn⟩]
  exact Nat.compare_eq_lt.2 hmn

theorem numeric_compare_of_not_endsIn (ha : ∀ m < 2 ^ (64 : Nat), ¬ EndsIn (a.getD "") m)
    (hb : EndsIn (b.getD "") n) (hn : n < 2 ^ (64 : Nat)) : numeric.compare a b = .lt := by
  apply numeric_compare_eq_lt
  have hnone : slotIndex? (a.getD "") = none := by
    rw [Option.eq_none_iff_forall_ne_some]
    intro m hm
    have ⟨hends, hlt⟩ := slotIndex?_eq_some_iff.1 hm
    exact ha m hlt hends
  rw [hnone, slotIndex?_eq_some_iff.2 ⟨hb, hn⟩]
  rfl

/-- A comparison that puts handles in one order, in which the empty text stands for none. -/
structure IsTotal (compare : Option String → Option String → Ordering) : Prop where
  refl : ∀ a, compare a a = .eq
  antisymm : ∀ a b, (compare a b).isLE = true → (compare b a).isLE = true → compare a b = .eq
  trans : ∀ a b c, (compare a b).isLE = true → (compare b c).isLE = true →
    (compare a c).isLE = true
  total : ∀ a b, (compare a b).isLE = true ∨ (compare b a).isLE = true
  swap : ∀ a b, compare b a = (compare a b).swap
  eq_iff : ∀ a b, compare a b = .eq ↔ a.getD "" = b.getD ""

theorem isTotal (order : SlotOrder) : IsTotal order.compare where
  refl _ := Std.ReflCmp.compare_self
  antisymm _ _ := Std.OrientedCmp.isLE_antisymm
  trans _ _ _ := Std.TransCmp.isLE_trans
  total a b := by
    have hswap : order.compare b a = (order.compare a b).swap := Std.OrientedCmp.eq_swap
    rw [hswap]
    cases order.compare a b <;> simp
  swap _ _ := Std.OrientedCmp.eq_swap
  eq_iff _ _ := compare_eq_eq_iff

/-- Slots are in a total order, after their numbers where these count, and sorting by it is
stable. -/
theorem inputEdges_sorted :
    (∀ order : SlotOrder, IsTotal order.compare) ∧
      (∀ a b m n, EndsIn (a.getD "") m → EndsIn (b.getD "") n → m < n → n < 2 ^ (64 : Nat) →
        numeric.compare a b = .lt) ∧
      (∀ a b n, (∀ m < 2 ^ (64 : Nat), ¬ EndsIn (a.getD "") m) → EndsIn (b.getD "") n →
        n < 2 ^ (64 : Nat) → numeric.compare a b = .lt) ∧
      ∀ (g : Graph) (order : SlotOrder) (id : NodeId),
        ((Index.of g).inputEdges order id).Perm (g.edgesInto id) ∧
          ((Index.of g).inputEdges order id).Pairwise
            (fun e f => (order.compare e.targetHandle f.targetHandle).isLE = true) ∧
          ∀ slot : String, ((Index.of g).inputEdges order id).filter (·.slot == slot) =
            (g.edgesInto id).filter (·.slot == slot) := by
  refine ⟨isTotal, fun a b m n => numeric_compare_of_lt,
    fun a b n => numeric_compare_of_not_endsIn, fun g order id => ?_⟩
  rw [Index.inputEdges, Index.incoming_of]
  exact ⟨sort_perm order _, sort_pairwise order _, fun slot => filter_sort order slot _⟩

def fanIn : Graph where
  nodes := [{ id := "m", kind := .operation .mix }]
  edges := [Graph.connection "a" "m" (some "slot-18446744073709551616"),
    Graph.connection "b" "m" (some "x-10"), Graph.connection "c" "m" (some "y-007"),
    Graph.connection "d" "m" none, Graph.connection "e" "m" (some "x-10"),
    Graph.connection "f" "o" (some "x-10")]

theorem inputEdges_sorted_fanIn :
    numeric.compare (some "y-007") (some "x-10") = .lt ∧
      numeric.compare (some "slot-18446744073709551616") (some "y-007") = .lt ∧
      ((Index.of fanIn).inputEdges .numeric "m").map (·.source) = ["d", "a", "c", "b", "e"] ∧
      (((Index.of fanIn).inputEdges .numeric "m").filter (·.slot == "x-10")).map (·.source) =
        ["b", "e"] := by
  have hseven : EndsIn ((some "y-007").getD "") 7 := ⟨_, ⟨2, .inl rfl⟩, .inr ⟨['y'], rfl⟩⟩
  have hten : EndsIn ((some "x-10").getD "") 10 := ⟨_, ⟨0, .inl rfl⟩, .inr ⟨['x'], rfl⟩⟩
  have hlarge : ∀ m < 2 ^ (64 : Nat), ¬ EndsIn ((some "slot-18446744073709551616").getD "") m := by
    intro m hm hends
    have hnone : slotIndex? "slot-18446744073709551616" = none := by decide
    exact absurd (slotIndex?_eq_some_iff.2 ⟨hends, hm⟩) (by simp [hnone])
  rcases inputEdges_sorted with ⟨_, hnumbers, hothers, hinputs⟩
  rcases hinputs fanIn .numeric "m" with ⟨_, _, hslots⟩
  refine ⟨hnumbers _ _ 7 10 hseven hten (by decide) (by decide),
    hothers _ _ 7 hlarge hseven (by decide), by decide, ?_⟩
  rw [hslots "x-10"]
  decide

end SlotOrder
end ColorGraph
