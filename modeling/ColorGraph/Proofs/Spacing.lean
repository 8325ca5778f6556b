import ColorGraph.Text.Blank
import Mathlib.Data.List.DropRight
/-!
Blanks as what may be put between words. Main statements: trimming finds what blanks stand around;
cutting at blanks finds the words of a text, whatever blanks part them; and letters in another case
are cut and trimmed alike.
-/

set_option autoImplicit false

namespace ColorGraph.Text

def AreBlank (cs : List Char) : Prop :=
  ∀ c ∈ cs, isBlank c = true

structure Tight (cs : List Char) : Prop where
  head : ∀ c ∈ cs.head?, isBlank c = false
  last : ∀ c ∈ cs.getLast?, isBlank c = false

structure IsWord (cs : List Char) : Prop where
  ne_nil : cs ≠ []
  notBlank : ∀ c ∈ cs, isBlank c = false

/-- A text of these words: blanks stand around them, and at least one between two. -/
inductive Spaced : List (List Char) → List Char → Prop
  | nil {blanks : List Char} (hblanks : AreBlank blanks) : Spaced [] blanks
  | cons {blanks word rest : List Char} {words : List (List Char)} (hblanks : AreBlank blanks)
      (hword : IsWord word) (hgap : ∀ c ∈ rest.head?, isBlank c = true)
      (hrest : Spaced words rest) : Spaced (word :: words) (blanks ++ (word ++ rest))

variable {front back blanks word rest cs t : List Char} {words' : List (List Char)} {c : Char}

theorem areBlank_nil : AreBlank [] :=
  List.forall_mem_nil _

theorem areBlank_cons (hc : isBlank c = true) (hcs : AreBlank cs) : AreBlank (c :: cs) :=
  List.forall_mem_cons.2 ⟨hc, hcs⟩

/-! Trimming. -/

theorem trimStart_append (h : AreBlank front) (cs : List Char) :
    trimStart (front ++ cs) = trimStart cs :=
  List.dropWhile_append_of_pos h

theorem trimEnd_append (h : AreBlank back) (cs : List Char) :
    trimEnd (cs ++ back) = trimEnd cs := by
  have hback : ∀ c ∈ back.reverse, isBlank c = true := fun c hc => h c (List.mem_reverse.1 hc)
  rw [trimEnd, List.reverse_append, List.dropWhile_append_of_pos hback, trimEnd]

theorem Tight.trimEnd_eq (h : Tight t) : trimEnd t = t := by
  refine List.rdropWhile_eq_self_iff.2 fun hne hblank => ?_
  have hlast := h.last (t.getLast hne) (List.getLast?_eq_some_getLast hne)
  exact absurd hblank (by simp [hlast])

/-- Trimming takes off what blanks stand around a text, and no more. -/
theorem Tight.trim_eq (h : Tight t) (hfront : AreBlank front) (hback : AreBlank back) :
    trim (front ++ (t ++ back)) = t := by
  rw [trim, trimStart_append hfront]
  cases t with
  | nil =>
    have hnil : trimStart back = [] := List.dropWhile_eq_nil_iff.2 hback
    rw [List.nil_append, hnil]
    rfl
  | cons c t =>
    have hc : isBlank c = false := h.head c rfl
    have hstart : trimStart (c :: t ++ back) = c :: t ++ back := by simp [trimStart, hc]
    rw [hstart, trimEnd_append hback, h.trimEnd_eq]

theorem exists_trim (cs : List Char) : ∃ front back,
    cs = front ++ (trim cs ++ back) ∧ AreBlank front ∧ AreBlank back ∧ Tight (trim cs) := by
  have hsplit : trim cs ++ (trimStart cs).rtakeWhile isBlank = trimStart cs :=
    List.rdropWhile_append_rtakeWhile
  refine ⟨cs.takeWhile isBlank, (trimStart cs).rtakeWhile isBlank, ?_,
    fun _ hc => List.mem_takeWhile_imp hc, fun _ hc => List.mem_rtakeWhile_imp hc, ?_, ?_⟩
  · rw [hsplit, trimStart_append_takeWhile]
  · intro c hc
    obtain ⟨r, hr⟩ : ∃ r, trim cs = c :: r := ⟨_, List.eq_cons_of_mem_head? hc⟩
    rw [hr] at hsplit
    exact trimStart_head hsplit.symm
  · intro c hc
    have hne : trim cs ≠ [] := by rintro hnil; simp [hnil] at hc
    rw [List.getLast?_eq_some_getLast hne] at hc
    cases hc
    have hlast : ¬ isBlank ((trim cs).getLast hne) = true :=
      List.rdropWhile_last_not isBlank (trimStart cs) hne
    exact Bool.not_eq_true _ ▸ hlast

theorem trim_trim (cs : List Char) : trim (trim cs) = trim cs := by
  have ⟨_, _, _, _, _, htight⟩ := exists_trim cs
  have htrim := htight.trim_eq areBlank_nil areBlank_nil
  rwa [List.nil_append, List.append_nil] at htrim

/-! Words. -/

@[simp]
theorem go_blank (hc : isBlank c = true) (cs : List Char) :
    words.go (c :: cs) [] = words.go cs [] := by
  simp [words.go, hc]

theorem go_append_blank (h : AreBlank blanks) (cs : List Char) :
    words.go (blanks ++ cs) [] = words.go cs [] := by
  induction blanks with
  | nil => rfl
  | cons c blanks ih =>
    rw [List.cons_append, go_blank (h c (.head _)), ih fun d hd => h d (.tail _ hd)]

theorem go_append_word (h : ∀ c ∈ word, isBlank c = false) (cs read : List Char) :
    words.go (word ++ cs) read = words.go cs (word.reverse ++ read) := by
  induction word generalizing read with
  | nil => rfl
  | cons c word ih =>
    have hc := h c (.head _)
    rw [List.cons_append, words.go, if_neg (by simp [hc]), ih fun d hd => h d (.tail _ hd)]
    simp

theorem go_gap {read : List Char} (hread : read ≠ []) (hcs : ∀ c ∈ cs.head?, isBlank c = true) :
    words.go cs read = read.reverse :: words.go cs [] := by
  cases cs with
  | nil => simp [words.go, hread]
  | cons c cs => simp [words.go, hcs c rfl, hread]

theorem Spaced.words_eq (h : Spaced words' cs) : words cs = words' := by
  induction h with
  | nil hblanks => simpa [words, words.go] using go_append_blank hblanks []
  | @cons blanks word rest words' hblanks hword hgap hrest ih =>
    have hne : word.reverse ≠ [] := by simp [hword.ne_nil]
    rw [words, go_append_blank hblanks, go_append_word hword.notBlank, List.append_nil,
      go_gap hne hgap, List.reverse_reverse]
    exact congrArg (word :: ·) ih

theorem Spaced.cons_blank (hc : isBlank c = true) (h : Spaced words' cs) :
    Spaced words' (c :: cs) := by
  cases h with
  | nil hblanks => exact .nil (areBlank_cons hc hblanks)
  | cons hblanks hword hgap hrest => exact .cons (areBlank_cons hc hblanks) hword hgap hrest

theorem spaced_go (cs : List Char) {read : List Char} (hread : ∀ c ∈ read, isBlank c = false) :
    Spaced (words.go cs read) (read.reverse ++ cs) := by
  have hword : read ≠ [] → IsWord read.reverse := fun hne =>
    ⟨by simp [hne], fun c hc => hread c (List.mem_reverse.1 hc)⟩
  induction cs generalizing read with
  | nil =>
    by_cases hne : read = []
    · subst hne
      exact .nil areBlank_nil
    · have hgo : words.go [] read = [read.reverse] := by simp [words.go, hne]
      rw [hgo]
      exact .cons areBlank_nil (hword hne) (by simp) (.nil areBlank_nil)
  | cons c cs ih =>
    by_cases hc : isBlank c = true
    · have hstart : Spaced (words.go cs []) ([].reverse ++ cs) := ih (by simp) (by simp)
      have hrest : Spaced (words.go cs []) (c :: cs) := .cons_blank hc hstart
      by_cases hne : read = []
      · subst hne
        rw [go_blank hc]
        exact hrest
      · have hgo : words.go (c :: cs) read = read.reverse :: words.go cs [] := by
          simp [words.go, hc, hne]
        rw [hgo]
        exact .cons areBlank_nil (hword hne) (by rintro d ⟨⟩; exact hc) hrest
    · rw [Bool.not_eq_true] at hc
      have hread' : ∀ d ∈ c :: read, isBlank d = false := List.forall_mem_cons.2 ⟨hc, hread⟩
      have hstep := ih hread' fun _ => ⟨by simp, fun d hd => hread' d (List.mem_reverse.1 hd)⟩
      rw [words.go, if_neg (by simp [hc])]
      simpa using hstep

/-- A text is cut into the words that blanks part in it. -/
theorem words_eq_iff : words cs = words' ↔ Spaced words' cs :=
  ⟨fun h => h ▸ spaced_go cs (by simp), Spaced.words_eq⟩

/-! The case of letters. -/

theorem isBlank_eq_false (h : 33 ≤ c.toNat) (h' : c.toNat < 0x85) : isBlank c = false := by
  simp [isBlank]
  omega

theorem isBlank_toLower (c : Char) : isBlank c.toLower = isBlank c := by
  unfold Char.toLower
  split
  next h =>
    have hge : 65 ≤ c.toNat := UInt32.le_iff_toNat_le.1 h.1
    have hle : c.toNat ≤ 90 := UInt32.le_iff_toNat_le.1 h.2
    have hsum : (c.val + ('a'.val - 'A'.val)).toNat = c.toNat + 32 := by
      rw [UInt32.toNat_add]
      exact Nat.mod_eq_of_lt (by change c.toNat + 32 < _; omega)
    rw [isBlank_eq_false (c := c) (by omega) (by omega)]
    have hlow : 33 ≤ (c.val + ('a'.val - 'A'.val)).toNat := by omega
    have hhigh : (c.val + ('a'.val - 'A'.val)).toNat < 0x85 := by omega
    exact isBlank_eq_false hlow hhigh
  next => rfl

theorem trim_map_toLower (cs : List Char) :
    trim (cs.map Char.toLower) = (trim cs).map Char.toLower := by
  have hfun : isBlank ∘ Char.toLower = isBlank := funext isBlank_toLower
  simp only [trim, trimEnd, trimStart, List.dropWhile_map, ← List.map_reverse, hfun]

end ColorGraph.Text
