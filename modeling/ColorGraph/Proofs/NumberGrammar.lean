import ColorGraph.Decimal.Literal
import ColorGraph.Proofs.Numerals
/-!
The form of a number in decimal. Main statements: what is scanned has this form; a text of this form
is read as a whole, and to its end at least when something follows it; and no other texts are read.
-/

set_option autoImplicit false

namespace ColorGraph.Decimal

open Json.Numeral (AreFigures takeWhile_figures dropWhile_figures)

namespace Literal

inductive SpellsSign : Bool → List Char → Prop
  | none : SpellsSign false []
  | plus : SpellsSign false ['+']
  | minus : SpellsSign true ['-']

/-- Figures before a point and after it. Those on one side of the point may be left out. -/
inductive SpellsMantissa : List Char → List Char → List Char → Prop
  | whole {whole : List Char} (hwhole : AreFigures whole) : SpellsMantissa whole [] whole
  | point {whole fraction : List Char} (hwhole : AreFigures whole)
      (hfraction : ∀ c ∈ fraction, c.isDigit = true) :
      SpellsMantissa whole fraction (whole ++ '.' :: fraction)
  | fraction {fraction : List Char} (hfraction : AreFigures fraction) :
      SpellsMantissa [] fraction ('.' :: fraction)

inductive SpellsExponent : Int → List Char → Prop
  | none : SpellsExponent 0 []
  | power {mark : Char} {negative : Bool} {sign figures : List Char}
      (hmark : mark = 'e' ∨ mark = 'E') (hsign : SpellsSign negative sign)
      (hfigures : AreFigures figures) :
      SpellsExponent (if negative then -(ofFigures figures : Int) else ofFigures figures)
        (mark :: (sign ++ figures))

def Spells (l : Literal) (text : List Char) : Prop :=
  ∃ sign mantissa exponent, text = sign ++ (mantissa ++ exponent) ∧ SpellsSign l.negative sign ∧
    SpellsMantissa l.whole l.fraction mantissa ∧ SpellsExponent l.exponent exponent

variable {l : Literal} {negative : Bool} {whole fraction sign mantissa exponent : List Char}
  {power : Int} {p cs rest : List Char}

/-! What is scanned is spelt. -/

theorem spellsSign_scanSign (cs : List Char) :
    ∃ sign, cs = sign ++ (scanSign cs).2 ∧ SpellsSign (scanSign cs).1 sign := by
  unfold scanSign
  split
  · exact ⟨['-'], rfl, .minus⟩
  · exact ⟨['+'], rfl, .plus⟩
  · exact ⟨[], rfl, .none⟩

theorem spellsMantissa_of_scanFraction {tail : List Char}
    (hwhole : ∀ c ∈ whole, c.isDigit = true) (h : scanFraction whole tail = (fraction, rest))
    (hne : whole ≠ [] ∨ fraction ≠ []) :
    ∃ mantissa, whole ++ tail = mantissa ++ rest ∧ SpellsMantissa whole fraction mantissa := by
  unfold scanFraction at h
  split at h
  next tail =>
    have hfraction : ∀ c ∈ tail.takeWhile Char.isDigit, c.isDigit = true :=
      fun _ hc => List.mem_takeWhile_imp hc
    dsimp only at h
    split at h
    next hempty =>
      cases h
      rw [Bool.and_eq_true, List.isEmpty_iff] at hempty
      exact absurd hne (by simp [hempty.1])
    next hempty =>
      cases h
      by_cases hnil : whole = []
      · subst hnil
        refine ⟨_, ?_, .fraction ⟨hne.resolve_left (· rfl), hfraction⟩⟩
        simp [List.takeWhile_append_dropWhile]
      · refine ⟨_, ?_, .point ⟨hnil, hwhole⟩ hfraction⟩
        simp [List.takeWhile_append_dropWhile]
  next htail =>
    cases h
    exact ⟨whole, rfl, .whole ⟨hne.resolve_right (· rfl), hwhole⟩⟩

theorem spellsExponent_scanExponent (cs : List Char) :
    ∃ exponent, cs = exponent ++ (scanExponent cs).2 ∧
      SpellsExponent (scanExponent cs).1 exponent := by
  cases cs with
  | nil => exact ⟨[], rfl, .none⟩
  | cons c cs =>
    have ⟨sign, hsign, hspells⟩ := spellsSign_scanSign cs
    simp only [scanExponent]
    split
    next h =>
      refine ⟨_, ?_, .power h.1 hspells ⟨h.2, fun _ hc => List.mem_takeWhile_imp hc⟩⟩
      rw [List.cons_append, List.append_assoc, List.takeWhile_append_dropWhile, ← hsign]
    next h => exact ⟨[], rfl, .none⟩

theorem spells_of_scan (h : scan cs = some (l, rest)) : ∃ p, cs = p ++ rest ∧ l.Spells p := by
  obtain ⟨sign, hsign, hspellsSign⟩ := spellsSign_scanSign cs
  cases hscan : scanSign cs with
  | mk negative r =>
    cases hfraction : scanFraction (r.takeWhile Char.isDigit) (r.dropWhile Char.isDigit) with
    | mk fraction tail =>
      rw [hscan] at hsign hspellsSign
      simp only [scan, hscan, hfraction] at h
      split at h
      · cases h
      next hne =>
        cases h
        rw [Bool.and_eq_true, List.isEmpty_iff, List.isEmpty_iff, not_and_or] at hne
        obtain ⟨mantissa, hmantissa, hspellsMantissa⟩ :=
          spellsMantissa_of_scanFraction (fun _ hc => List.mem_takeWhile_imp hc) hfraction hne
        obtain ⟨exponent, hexponent, hspellsExponent⟩ := spellsExponent_scanExponent tail
        rw [List.takeWhile_append_dropWhile] at hmantissa
        refine ⟨sign ++ (mantissa ++ exponent), ?_, sign, mantissa, exponent, rfl, hspellsSign,
          hspellsMantissa, hspellsExponent⟩
        rw [List.append_assoc, List.append_assoc, ← hexponent, ← hmantissa, ← hsign]

/-! What is spelt is scanned, and at least as far as it goes. -/

def EndsMantissa (rest : List Char) : Prop :=
  ∀ c ∈ rest.head?, c.isDigit = false ∧ c ≠ '.'

theorem SpellsSign.scanSign_append (h : SpellsSign negative sign)
    (hcs : ∀ c ∈ cs.head?, c ≠ '-' ∧ c ≠ '+') : scanSign (sign ++ cs) = (negative, cs) := by
  cases h with
  | none =>
    rw [List.nil_append]
    unfold scanSign
    split
    · exact absurd rfl (hcs '-' rfl).1
    · exact absurd rfl (hcs '+' rfl).2
    · rfl
  | plus => rfl
  | minus => rfl

theorem ne_sign_of_isDigit {c : Char} (h : c.isDigit = true) : c ≠ '-' ∧ c ≠ '+' := by
  constructor <;> rintro rfl <;> exact absurd h (by decide)

theorem AreFigures.ne_sign (h : AreFigures cs) : ∀ c ∈ (cs ++ rest).head?, c ≠ '-' ∧ c ≠ '+' := by
  have ⟨c, ds, hcs⟩ := List.exists_cons_of_ne_nil h.ne_nil
  subst hcs
  intro c hc
  cases hc
  exact ne_sign_of_isDigit (h.isDigit c (.head _))

theorem SpellsMantissa.ne_sign (h : SpellsMantissa whole fraction mantissa) :
    ∀ c ∈ (mantissa ++ rest).head?, c ≠ '-' ∧ c ≠ '+' := by
  cases h with
  | whole hwhole => exact AreFigures.ne_sign hwhole
  | point hwhole =>
    rw [List.append_assoc]
    exact AreFigures.ne_sign hwhole
  | fraction =>
    intro c hc
    cases hc
    decide

theorem SpellsMantissa.not_empty (h : SpellsMantissa whole fraction mantissa) :
    (whole.isEmpty && fraction.isEmpty) = false := by
  cases h with
  | whole hwhole => simp [hwhole.isEmpty]
  | point hwhole => simp [hwhole.isEmpty]
  | fraction hfraction => simp [hfraction.isEmpty]

variable {tail : List Char}

theorem head_point (cs : List Char) : ∀ c ∈ ('.' :: cs).head?, c.isDigit = false := by
  rintro c ⟨⟩
  decide

theorem scanFraction_point (h : (whole.isEmpty && (cs.takeWhile Char.isDigit).isEmpty) = false) :
    scanFraction whole ('.' :: cs) = (cs.takeWhile Char.isDigit, cs.dropWhile Char.isDigit) := by
  simp only [scanFraction, h]
  rfl

theorem SpellsMantissa.scan_eq (h : SpellsMantissa whole fraction mantissa)
    (htail : EndsMantissa tail) : (mantissa ++ tail).takeWhile Char.isDigit = whole ∧
      scanFraction whole ((mantissa ++ tail).dropWhile Char.isDigit) = (fraction, tail) := by
  have hdigit : ∀ c ∈ tail.head?, c.isDigit = false := fun c hc => (htail c hc).1
  have hempty := h.not_empty
  cases h with
  | whole hwhole =>
    rw [takeWhile_figures hwhole.isDigit hdigit, dropWhile_figures hwhole.isDigit hdigit]
    refine ⟨rfl, ?_⟩
    unfold scanFraction
    split
    · exact absurd rfl (htail '.' rfl).2
    · rfl
  | point hwhole hfraction =>
    rw [List.append_assoc, List.cons_append, takeWhile_figures hwhole.isDigit (head_point _),
      dropWhile_figures hwhole.isDigit (head_point _)]
    have htake := takeWhile_figures hfraction hdigit
    refine ⟨rfl, ?_⟩
    rw [scanFraction_point (htake.symm ▸ hempty), htake, dropWhile_figures hfraction hdigit]
  | fraction hfraction =>
    have htake := takeWhile_figures hfraction.isDigit hdigit
    refine ⟨rfl, ?_⟩
    change scanFraction [] ('.' :: (fraction ++ tail)) = _
    rw [scanFraction_point (htake.symm ▸ hempty), htake, dropWhile_figures hfraction.isDigit hdigit]

theorem isEmpty_takeWhile_append (hcs : AreFigures cs) (tail : List Char) :
    ((cs ++ tail).takeWhile Char.isDigit).isEmpty = false := by
  rw [List.takeWhile_append_of_pos hcs.isDigit]
  simp [hcs.ne_nil]

theorem dropWhile_append_suffix (hcs : ∀ c ∈ cs, c.isDigit = true) :
    (cs ++ tail).dropWhile Char.isDigit <:+ tail := by
  rw [List.dropWhile_append_of_pos hcs]
  exact List.dropWhile_suffix _

/-- Whatever follows, a mantissa is scanned to its end or beyond. -/
theorem SpellsMantissa.exists_scan (h : SpellsMantissa whole fraction mantissa)
    (tail : List Char) : ∃ more rest,
      scanFraction ((mantissa ++ tail).takeWhile Char.isDigit)
        ((mantissa ++ tail).dropWhile Char.isDigit) = (more, rest) ∧ rest <:+ tail ∧
      (((mantissa ++ tail).takeWhile Char.isDigit).isEmpty && more.isEmpty) = false := by
  cases h with
  | whole hwhole =>
    have hempty : ((whole ++ tail).takeWhile Char.isDigit).isEmpty = false :=
      isEmpty_takeWhile_append hwhole tail
    refine ⟨_, _, rfl, ?_, by rw [hempty]; rfl⟩
    exact (scanFraction_suffix _ _).trans (dropWhile_append_suffix hwhole.isDigit)
  | point hwhole hfraction =>
    rw [List.append_assoc, List.cons_append, takeWhile_figures hwhole.isDigit (head_point _),
      dropWhile_figures hwhole.isDigit (head_point _)]
    have hempty : ∀ more : List Char, (whole.isEmpty && more.isEmpty) = false :=
      fun more => by rw [hwhole.isEmpty]; rfl
    exact ⟨_, _, scanFraction_point (hempty _), dropWhile_append_suffix hfraction, hempty _⟩
  | fraction hfraction =>
    have hempty := isEmpty_takeWhile_append hfraction tail
    exact ⟨_, _, scanFraction_point hempty, dropWhile_append_suffix hfraction.isDigit, hempty⟩

theorem scanExponent_power {mark : Char} {figures : List Char} (hmark : mark = 'e' ∨ mark = 'E')
    (hsign : SpellsSign negative sign) (hfigures : AreFigures figures) (tail : List Char) :
    scanExponent (mark :: (sign ++ (figures ++ tail))) =
      (if negative then -(ofFigures ((figures ++ tail).takeWhile Char.isDigit) : Int)
        else ofFigures ((figures ++ tail).takeWhile Char.isDigit),
        (figures ++ tail).dropWhile Char.isDigit) := by
  have hne : (figures ++ tail).takeWhile Char.isDigit ≠ [] := by
    have hempty := isEmpty_takeWhile_append hfigures tail
    rwa [Bool.eq_false_iff, Ne, List.isEmpty_iff] at hempty
  simp only [scanExponent, hsign.scanSign_append (AreFigures.ne_sign hfigures),
    if_pos (And.intro hmark hne)]

theorem SpellsExponent.scan_eq (h : SpellsExponent power exponent) :
    scanExponent exponent = (power, []) := by
  cases h with
  | none => rfl
  | power hmark hsign hfigures =>
    have hscan := scanExponent_power hmark hsign hfigures []
    have hend : ∀ c ∈ ([] : List Char).head?, c.isDigit = false := by simp
    rwa [takeWhile_figures hfigures.isDigit hend, dropWhile_figures hfigures.isDigit hend,
      List.append_nil] at hscan

theorem SpellsExponent.scan_suffix (h : SpellsExponent power exponent) (tail : List Char) :
    (scanExponent (exponent ++ tail)).2 <:+ tail := by
  cases h with
  | none => exact scanExponent_suffix tail
  | power hmark hsign hfigures =>
    rw [List.cons_append, List.append_assoc, scanExponent_power hmark hsign hfigures]
    exact dropWhile_append_suffix hfigures.isDigit

theorem SpellsExponent.eq_nil_or_endsMantissa (h : SpellsExponent power exponent)
    (tail : List Char) : exponent = [] ∨ EndsMantissa (exponent ++ tail) := by
  cases h with
  | none => exact .inl rfl
  | power hmark =>
    right
    rintro c ⟨⟩
    rcases hmark with rfl | rfl <;> decide

theorem scan_sign_append (hsign : SpellsSign negative sign)
    (hmantissa : SpellsMantissa whole fraction mantissa) (tail : List Char) :
    scanSign (sign ++ (mantissa ++ tail)) = (negative, mantissa ++ tail) :=
  hsign.scanSign_append hmantissa.ne_sign

/-- What has the form of a number is read whole, as it is spelt. -/
theorem Spells.scan_eq (h : l.Spells p) : scan p = some (l, []) := by
  rcases h with ⟨sign, mantissa, exponent, rfl, hsign, hmantissa, hexponent⟩
  have hends : EndsMantissa exponent := by
    rcases hexponent.eq_nil_or_endsMantissa [] with rfl | h
    · simp [EndsMantissa]
    · rwa [List.append_nil] at h
  have ⟨hwhole, hfraction⟩ := hmantissa.scan_eq hends
  have hempty := hmantissa.not_empty
  simp only [scan, scan_sign_append hsign hmantissa, hwhole, hfraction, hempty, hexponent.scan_eq]
  rfl

theorem Spells.exists_scan (h : l.Spells p) (tail : List Char) :
    ∃ l' rest, scan (p ++ tail) = some (l', rest) ∧ rest <:+ tail := by
  rcases h with ⟨sign, mantissa, exponent, rfl, hsign, hmantissa, hexponent⟩
  rw [List.append_assoc, List.append_assoc]
  rcases hexponent.eq_nil_or_endsMantissa tail with rfl | hends
  · obtain ⟨more, rest, hscan, hrest, hempty⟩ := hmantissa.exists_scan tail
    simp only [scan, scan_sign_append hsign hmantissa, List.nil_append, hscan, hempty]
    exact ⟨_, _, rfl, (scanExponent_suffix rest).trans hrest⟩
  · obtain ⟨hwhole, hfraction⟩ := hmantissa.scan_eq hends
    have hempty := hmantissa.not_empty
    simp only [scan, scan_sign_append hsign hmantissa, hwhole, hfraction, hempty]
    exact ⟨_, _, rfl, hexponent.scan_suffix tail⟩

theorem exists_scan_of_isPrefix (h : l.Spells p) (hp : p <+: cs) :
    ∃ l' rest, scan cs = some (l', rest) ∧ p.length + rest.length ≤ cs.length := by
  rcases hp with ⟨tail, rfl⟩
  have ⟨l', rest, hscan, hrest⟩ := h.exists_scan tail
  have hle := hrest.length_le
  exact ⟨l', rest, hscan, by rw [List.length_append]; omega⟩

end Literal

open Literal

def IsNumber (p : List Char) : Prop :=
  ∃ l : Literal, l.Spells p

variable {p cs : List Char} {x : Float}

def EndsInFigure (cs : List Char) : Prop :=
  ∃ c ∈ cs.getLast?, c.isDigit = true ∨ c = '.'

theorem EndsInFigure.append (h : EndsInFigure cs) (front : List Char) :
    EndsInFigure (front ++ cs) := by
  have ⟨c, hc, hfigure⟩ := h
  exact ⟨c, by rw [List.getLast?_append, Option.mem_def.1 hc]; rfl, hfigure⟩

theorem endsInFigure_of_areFigures (h : AreFigures cs) : EndsInFigure cs :=
  ⟨_, List.getLast?_eq_some_getLast h.ne_nil, .inl (h.isDigit _ (List.getLast_mem h.ne_nil))⟩

theorem endsInFigure_point (h : ∀ c ∈ cs, c.isDigit = true) : EndsInFigure ('.' :: cs) := by
  by_cases hne : cs = []
  · subst hne
    exact ⟨'.', rfl, .inr rfl⟩
  · exact (endsInFigure_of_areFigures ⟨hne, h⟩).append ['.']

theorem Literal.SpellsMantissa.endsInFigure {whole fraction mantissa : List Char}
    (h : SpellsMantissa whole fraction mantissa) : EndsInFigure mantissa := by
  cases h with
  | whole hwhole => exact endsInFigure_of_areFigures hwhole
  | point _ hfraction => exact (endsInFigure_point hfraction).append whole
  | fraction hfraction => exact endsInFigure_point hfraction.isDigit

theorem Literal.Spells.endsInFigure {l : Literal} (h : l.Spells p) : EndsInFigure p := by
  rcases h with ⟨sign, mantissa, exponent, rfl, -, hmantissa, hexponent⟩
  refine EndsInFigure.append ?_ sign
  generalize l.exponent = power at hexponent
  cases hexponent with
  | none =>
    rw [List.append_nil]
    exact hmantissa.endsInFigure
  | @power mark negative sign' figures _ _ hfigures =>
    exact ((endsInFigure_of_areFigures hfigures).append (mark :: sign')).append mantissa

/-- A text is read as a whole exactly when it has the form of a number. -/
theorem read?_eq_some_iff : read? p = some x ↔ ∃ l : Literal, l.Spells p ∧ l.toFloat = x := by
  constructor
  · intro h
    unfold read? at h
    split at h
    next l hscan =>
      have ⟨q, hq, hspells⟩ := spells_of_scan hscan
      rw [List.append_nil] at hq
      exact ⟨l, hq ▸ hspells, Option.some.inj h⟩
    · cases h
  · rintro ⟨l, hspells, rfl⟩
    rw [read?, hspells.scan_eq]

end ColorGraph.Decimal
