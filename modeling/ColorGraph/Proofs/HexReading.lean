import ColorGraph.Color.Notation
import ColorGraph.Proofs.Spacing
/-!
Where reading a color stops for good. Main statement: it does so for the hexadecimal colors that a
cut into equal groups of bytes would part inside a character, and for no other text.
-/

set_option autoImplicit false

namespace ColorGraph

theorem bind_eq_error_iff {ε α β : Type} {x : Except ε α} {f : α → Except ε β} {e : ε}
    (hf : ∀ a, ∃ b, f a = .ok b) : (x >>= f) = .error e ↔ x = .error e := by
  cases x with
  | error e' => simp [bind, Except.bind]
  | ok a =>
    obtain ⟨b, hb⟩ := hf a
    simp [bind, Except.bind, hb]

namespace Text

theorem trim_cons {c : Char} (hc : isBlank c = false) (cs : List Char) :
    ∃ rest, trim (c :: cs) = c :: rest := by
  have hstart : trimStart (c :: cs) = c :: cs := by simp [trimStart, hc]
  rw [trim, hstart, trimEnd, List.reverse_cons, List.dropWhile_append]
  split
  · exact ⟨[], by simp [hc]⟩
  · exact ⟨(cs.reverse.dropWhile isBlank).reverse, by simp⟩

end Text

namespace Rgb

variable {size count : Nat} {cs front back : List Char}

@[simp]
theorem byteLength_nil : byteLength [] = 0 :=
  rfl

@[simp]
theorem byteLength_cons (c : Char) (cs : List Char) :
    byteLength (c :: cs) = c.utf8Size + byteLength cs :=
  rfl

@[simp]
theorem byteLength_append (front back : List Char) :
    byteLength (front ++ back) = byteLength front + byteLength back := by
  induction front with
  | nil => simp
  | cons c front ih => simp [ih, Nat.add_assoc]

theorem cut_append (front back : List Char) :
    cut (byteLength front) (front ++ back) = .ok (front, back) := by
  induction front with
  | nil => cases back <;> rfl
  | cons c front ih =>
    have hpos := c.utf8Size_pos
    have hne : byteLength (c :: front) ≠ 0 := by rw [byteLength_cons]; omega
    have hle : c.utf8Size ≤ byteLength (c :: front) := by rw [byteLength_cons]; omega
    have hrest : byteLength (c :: front) - c.utf8Size = byteLength front := by
      rw [byteLength_cons]; omega
    rw [List.cons_append, cut, if_neg hne, if_pos hle, hrest, ih]
    rfl

/-- A place in a text, counted in bytes, at which no character ends. -/
def InsideCharacter (size : Nat) (cs : List Char) : Prop :=
  size < byteLength cs ∧ ∀ front back, cs = front ++ back → byteLength front ≠ size

theorem cut_of_insideCharacter (h : InsideCharacter size cs) : cut size cs = .error ⟨⟩ := by
  induction cs generalizing size with
  | nil => exact absurd h.1 (Nat.not_lt_zero _)
  | cons c cs ih =>
    obtain ⟨hlt, hends⟩ := h
    have hne : size ≠ 0 := fun hzero => hends [] (c :: cs) rfl hzero.symm
    rw [cut, if_neg hne]
    split
    next hle =>
      have hinside : InsideCharacter (size - c.utf8Size) cs := by
        rw [byteLength_cons] at hlt
        refine ⟨by omega, fun front back hcs hfront => ?_⟩
        refine hends (c :: front) back (by rw [hcs]; rfl) ?_
        rw [byteLength_cons, hfront]
        omega
      rw [ih hinside]
      rfl
    · rfl

theorem insideCharacter_or_cut (h : size ≤ byteLength cs) :
    InsideCharacter size cs ∨ ∃ front back, cs = front ++ back ∧ byteLength front = size := by
  by_cases hcut : ∃ front back, cs = front ++ back ∧ byteLength front = size
  · exact .inr hcut
  · have hends : ∀ front back, cs = front ++ back → byteLength front ≠ size :=
      fun front back hcs hfront => hcut ⟨front, back, hcs, hfront⟩
    have hne : byteLength cs ≠ size := hends cs [] (List.append_nil cs).symm
    exact .inl ⟨by omega, hends⟩

/-- Groups of `size` bytes are cut off, each a number, up to a cut inside a character. -/
def Splits (size : Nat) (cs : List Char) : Prop :=
  ∃ (before : List (List Char)) (rest : List Char), cs = before.flatten ++ rest ∧
    (∀ group ∈ before, byteLength group = size ∧ (group? group).isSome = true) ∧
    InsideCharacter size rest

theorem splits_append_iff : Splits (byteLength front) (front ++ back) ↔
    (group? front).isSome = true ∧ Splits (byteLength front) back := by
  constructor
  · rintro ⟨before, rest, hcs, hbefore, hinside⟩
    cases before with
    | nil => exact absurd rfl (hinside.2 front back hcs.symm)
    | cons group before =>
      obtain ⟨⟨hlength, hsome⟩, hgroups⟩ := List.forall_mem_cons.1 hbefore
      rw [List.flatten_cons, List.append_assoc] at hcs
      have hcut := cut_append group (before.flatten ++ rest)
      rw [hlength, ← hcs, cut_append] at hcut
      cases hcut
      exact ⟨hsome, before, rest, rfl, hgroups, hinside⟩
  · rintro ⟨hsome, before, rest, rfl, hbefore, hinside⟩
    refine ⟨front :: before, rest, by simp, ?_, hinside⟩
    exact List.forall_mem_cons.2 ⟨⟨rfl, hsome⟩, hbefore⟩

theorem groups_eq_error_iff (h : byteLength cs = size * count) :
    groups size count cs = .error ⟨⟩ ↔ Splits size cs := by
  induction count generalizing cs with
  | zero =>
    constructor
    · intro hgroups; cases hgroups
    · rintro ⟨before, rest, rfl, -, hlt, -⟩
      rw [byteLength_append] at h
      omega
  | succ count ih =>
    have hle : size ≤ byteLength cs := by rw [h, Nat.mul_succ]; omega
    rw [groups]
    obtain hinside | ⟨front, back, rfl, rfl⟩ := insideCharacter_or_cut hle
    · have hsplits : Splits size cs := ⟨[], cs, rfl, by simp, hinside⟩
      rw [cut_of_insideCharacter hinside]
      exact iff_of_true rfl hsplits
    · have hback : byteLength back = byteLength front * count := by
        rw [byteLength_append, Nat.mul_succ] at h
        omega
      rw [cut_append, splits_append_iff, ← ih hback]
      cases hgroup : group? front with
      | none => simp [bind, Except.bind, hgroup, pure, Except.pure]
      | some n =>
        cases hgroups : groups (byteLength front) count back <;>
          simp [bind, Except.bind, hgroup, hgroups, pure, Except.pure]

/-- Three or six bytes of figures that do not come apart into three groups. -/
def Breaks (figures : List Char) : Prop :=
  ∃ size, (size = 1 ∨ size = 2) ∧ byteLength figures = size * 3 ∧ Splits size figures

theorem breaks_iff {figures : List Char} (hsize : size = 1 ∨ size = 2)
    (hlength : byteLength figures = size * 3) : Breaks figures ↔ Splits size figures := by
  constructor
  · rintro ⟨size', -, hlength', hsplits⟩
    obtain rfl : size' = size := by omega
    exact hsplits
  · exact fun hsplits => ⟨size, hsize, hlength, hsplits⟩

theorem read_eq_error_iff (figures : List Char) :
    read ('#' :: figures) = .error ⟨⟩ ↔ Breaks figures := by
  have hread : ∀ (size : Nat) (f : Option (List Nat) → Except SplitCharacter (Option Rgb)),
      (size = 1 ∨ size = 2) → byteLength figures = size * 3 → (∀ ns, ∃ rgb, f ns = .ok rgb) →
      ((groups size 3 figures >>= f) = .error ⟨⟩ ↔ Breaks figures) := by
    intro size f hsize hlength hf
    rw [bind_eq_error_iff hf, groups_eq_error_iff hlength, breaks_iff hsize hlength]
  change (if byteLength figures = 3 then groups 1 3 figures >>= _
    else if byteLength figures = 6 then groups 2 3 figures >>= _ else pure none) = _ ↔ _
  split
  next hthree => exact hread 1 _ (.inl rfl) hthree fun ns => by split <;> exact ⟨_, rfl⟩
  split
  next hsix => exact hread 2 _ (.inr rfl) hsix fun ns => by split <;> exact ⟨_, rfl⟩
  next hthree hsix =>
    refine iff_of_false (fun h => by cases h) ?_
    rintro ⟨size, hsize, hlength, -⟩
    omega

end Rgb

namespace Color

def Breaks (text : String) : Prop :=
  ∃ figures, Text.trim text.toList = '#' :: figures ∧ Rgb.Breaks figures

theorem read_eq_error_iff (text : String) : read text = .error ⟨⟩ ↔ Breaks text := by
  unfold read Breaks
  split
  next htrim => simp [htrim, pure, Except.pure]
  next figures htrim =>
    have htrim' : Text.trim (String.ofList ('#' :: figures)).toList = '#' :: figures := by
      rw [String.toList_ofList, ← htrim, Text.trim_trim]
    have hhex : readHex (String.ofList ('#' :: figures)) = .error ⟨⟩ ↔ Rgb.Breaks figures := by
      rw [readHex, htrim', bind_eq_error_iff fun rgb? => by split <;> exact ⟨_, rfl⟩]
      exact Rgb.read_eq_error_iff figures
    rw [hhex, htrim]
    simp
  next hempty hmark =>
    refine iff_of_false (fun h => ?_) ?_
    · split at h <;> cases h
    · rintro ⟨figures, htrim, -⟩
      exact hmark figures htrim

/-- A text that does not break is read, as a color or as an error to recover from. -/
theorem exists_read {text : String} (h : ¬ Breaks text) : ∃ outcome, read text = .ok outcome := by
  cases hread : read text with
  | error e => exact absurd ((read_eq_error_iff text).1 hread) h
  | ok outcome => exact ⟨outcome, rfl⟩

theorem not_breaks_of_cons {text : String} {c : Char} {cs : List Char} (h : text.toList = c :: cs)
    (hblank : Text.isBlank c = false) (hmark : c ≠ '#') : ¬ Breaks text := by
  rintro ⟨figures, htrim, -⟩
  obtain ⟨rest, hrest⟩ := Text.trim_cons hblank cs
  rw [h, hrest] at htrim
  exact hmark (List.cons.inj htrim).1

theorem not_breaks_empty : ¬ Breaks "" := by
  rintro ⟨figures, htrim, -⟩
  cases htrim

theorem not_breaks_text (c : Color) : ¬ Breaks c.text := by
  have hhead : ∃ rest, c.text.toList = 'o' :: rest := by
    simp only [text, String.toList_append, List.append_assoc]
    exact ⟨_, rfl⟩
  obtain ⟨rest, hrest⟩ := hhead
  exact not_breaks_of_cons hrest rfl (by decide)

end Color
end ColorGraph
