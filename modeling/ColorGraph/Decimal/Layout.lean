import ColorGraph.Decimal.Shortest
/-!
Number text: figures laid out with a point or an exponent, after a record of the decisions that
tell one number format from another. Main statements: no number has an empty text, and plain text
holds figures, a point and a minus only.
-/

set_option autoImplicit false

namespace ColorGraph.Decimal

def zeros (n : Int) : List Char :=
  List.replicate n.toNat '0'

def positional (figures : List Char) (point : Int) : List Char :=
  if point ≤ 0 then '0' :: '.' :: zeros (-point) ++ figures
  else if figures.length ≤ point then figures ++ zeros (point - figures.length)
  else figures.take point.toNat ++ '.' :: figures.drop point.toNat

theorem positional_ne_nil (figures : List Char) (point : Int) : positional figures point ≠ [] := by
  unfold positional
  split
  · simp
  · split
    next hpoint hlen =>
      intro h
      obtain ⟨hfigures, hzeros⟩ := List.append_eq_nil_iff.1 h
      rw [hfigures, zeros, List.replicate_eq_nil_iff, List.length_nil] at hzeros
      omega
    · simp

theorem mem_positional {figures : List Char} {point : Int} {c : Char}
    (h : c ∈ positional figures point) : c ∈ figures ∨ c = '0' ∨ c = '.' := by
  unfold positional zeros at h
  split at h
  · simp only [List.cons_append, List.mem_cons, List.mem_append, List.mem_replicate] at h
    obtain rfl | rfl | ⟨-, rfl⟩ | h := h
    · exact .inr (.inl rfl)
    · exact .inr (.inr rfl)
    · exact .inr (.inl rfl)
    · exact .inl h
  · split at h
    · obtain h | h := List.mem_append.1 h
      · exact .inl h
      · exact .inr (.inl (List.eq_of_mem_replicate h))
    · obtain h | h := List.mem_append.1 h
      · exact .inl (List.mem_of_mem_take h)
      · obtain rfl | h := List.mem_cons.1 h
        · exact .inr (.inr rfl)
        · exact .inl (List.mem_of_mem_drop h)

def signedPower (n : Int) : List Char :=
  (if n < 0 then '-' else '+') :: Nat.toDigits 10 n.natAbs

def scientific (figures : List Char) (point : Int) : List Char :=
  match figures with
  | [] => ['0']
  | [c] => c :: 'e' :: signedPower (point - 1)
  | c :: cs => c :: '.' :: cs ++ 'e' :: signedPower (point - 1)

theorem scientific_ne_nil (figures : List Char) (point : Int) :
    scientific figures point ≠ [] := by
  unfold scientific
  split <;> simp

theorem isDigit_of_mem_figures {d : Decimal} {c : Char} (h : c ∈ d.figures.1) : c.isDigit := by
  have hmem : c ∈ Nat.toDigits 10 d.digits := by
    unfold figures at h
    exact List.mem_reverse.1 ((List.dropWhile_sublist _).subset (List.mem_reverse.1 h))
  exact Nat.isDigit_of_mem_toDigits (by decide) (by decide) hmem

structure Layout where
  tie : Tie
  isPositional : Int → Bool
  /-- Whole numbers written without an exponent end in `.0`. -/
  keepsPoint : Bool

namespace Layout

def unsigned (layout : Layout) (d : Decimal) : List Char :=
  let (figures, point) := if d.digits = 0 then (['0'], 1) else d.figures
  if layout.isPositional point then
    let whole := figures.length ≤ point
    positional figures point ++ (if whole && layout.keepsPoint then ['.', '0'] else [])
  else scientific figures point

theorem unsigned_ne_nil (layout : Layout) (d : Decimal) : layout.unsigned d ≠ [] := by
  unfold unsigned
  generalize (if d.digits = 0 then (['0'], 1) else d.figures) = f
  dsimp only
  split
  · exact fun h => positional_ne_nil _ _ (List.append_eq_nil_iff.1 h).1
  · exact scientific_ne_nil _ _

def text (layout : Layout) (x : Float) : String :=
  match Binary.ofFloat? x with
  | some b =>
    let size := layout.unsigned (shortest layout.tie b)
    String.ofList (if b.negative then '-' :: size else size)
  | none => if x.isNaN then "NaN" else if x < 0.0 then "-inf" else "inf"

theorem text_ne_empty (layout : Layout) (x : Float) : layout.text x ≠ "" := by
  unfold text
  split
  next b _ =>
    rw [Ne, String.ofList_eq_empty_iff]
    split
    · simp
    · exact layout.unsigned_ne_nil _
  · split
    · decide
    · split <;> decide

end Layout

def plain : Layout where
  tie := .up
  isPositional _ := true
  keepsPoint := false

theorem mem_unsigned_plain {d : Decimal} {c : Char} (h : c ∈ plain.unsigned d) :
    c.isDigit ∨ c = '.' := by
  have hpositional : c ∈ positional (if d.digits = 0 then (['0'], 1) else d.figures).1
      (if d.digits = 0 then (['0'], 1) else d.figures).2 := by
    simpa [Layout.unsigned, plain] using h
  obtain hc | rfl | rfl := mem_positional hpositional
  · split at hc
    · rw [List.mem_singleton] at hc
      exact .inl (hc ▸ rfl)
    · exact .inl (isDigit_of_mem_figures hc)
  · exact .inl rfl
  · exact .inr rfl

theorem mem_text_plain {x : Float} {b : Binary} {c : Char} (hx : Binary.ofFloat? x = some b)
    (h : c ∈ (plain.text x).toList) : c.isDigit ∨ c = '.' ∨ c = '-' := by
  rw [Layout.text, hx, String.toList_ofList] at h
  have hunsigned : ∀ {c}, c ∈ plain.unsigned (shortest plain.tie b) →
      c.isDigit ∨ c = '.' ∨ c = '-' := fun hc => (mem_unsigned_plain hc).imp_right .inl
  split at h
  · obtain rfl | h := List.mem_cons.1 h
    · exact .inr (.inr rfl)
    · exact hunsigned h
  · exact hunsigned h

def fixedText (places : Nat) (x : Float) : String :=
  match Binary.ofFloat? x with
  | none => plain.text x
  | some b =>
    let cs := Nat.toDigits 10 (ofBinaryPlaces b places).digits
    let cs := List.replicate (places + 1 - cs.length) '0' ++ cs
    let whole := cs.take (cs.length - places)
    let size := if places = 0 then whole else whole ++ '.' :: cs.drop (cs.length - places)
    String.ofList (if b.negative then '-' :: size else size)

end ColorGraph.Decimal
