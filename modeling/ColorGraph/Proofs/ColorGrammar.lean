import ColorGraph.Color.Notation
import ColorGraph.Proofs.NumberGrammar
import ColorGraph.Proofs.Spacing
import ColorGraph.Proofs.Traversals
/-!
The texts that are read as colors in the `oklch` notation. Main statement: they are those of its
grammar, each with one color, whatever the case of their letters and the blanks between their parts;
any other text is refused, for its form when the brackets are missing and for a channel otherwise.
-/

set_option autoImplicit false

namespace ColorGraph

namespace Color

def IsFiniteNumber (n : List Char) (x : Float) : Prop :=
  Decimal.read? n = some x ∧ x.isFinite = true

inductive IsChannel (all : Float) : List Char → Float → Prop
  | none : IsChannel all "none".toList 0.0
  | number {n : List Char} {x : Float} (h : IsFiniteNumber n x) : IsChannel all n x
  | percent {n : List Char} {x : Float} (h : IsFiniteNumber n x) :
      IsChannel all (n ++ "%".toList) (x / 100.0 * all)

inductive IsAngle : List Char → Float → Prop
  | none : IsAngle "none".toList 0.0
  | number {n : List Char} {x : Float} (h : IsFiniteNumber n x) : IsAngle n x
  | degrees {n : List Char} {x : Float} (h : IsFiniteNumber n x) : IsAngle (n ++ "deg".toList) x
  | gradians {n : List Char} {x : Float} (h : IsFiniteNumber n x) :
      IsAngle (n ++ "grad".toList) (x * 0.9)
  | radians {n : List Char} {x : Float} (h : IsFiniteNumber n x) :
      IsAngle (n ++ "rad".toList) (x * (180.0 / pi))
  | turns {n : List Char} {x : Float} (h : IsFiniteNumber n x) :
      IsAngle (n ++ "turn".toList) (x * 360.0)

inductive IsOpacity : List Char → Float → Prop
  | full : IsOpacity [] 1.0
  | given {token : List Char} {x : Float} (h : IsChannel 1.0 (Text.trim token) x) :
      IsOpacity ('/' :: token) (clamp x 0.0 1.0)

/-- What stands between the brackets: three words before the first slash, and an opacity. -/
inductive IsBody (body : List Char) (c : Color) : Prop
  | intro {l m h : List Char} (words : Text.words (body.takeWhile (· != '/')) = [l, m, h])
      (lightness : IsChannel 1.0 l c.lightness) (chroma : IsChannel maxChroma m c.chroma)
      (angle : IsAngle h c.angle) (alpha : IsOpacity (body.dropWhile (· != '/')) c.alpha)

def Brackets (text : String) (body : List Char) : Prop :=
  (Text.trim text.toList).map Char.toLower = "oklch(".toList ++ (body ++ ")".toList)

def Writes (text : String) (c : Color) : Prop :=
  ∃ body, Brackets text body ∧ IsBody body c

variable {all x : Float} {n t body : List Char} {c : Color} {text : String}

/-! Single numbers. -/

theorem readNumber_eq_ok_iff : readNumber n = .ok x ↔ IsFiniteNumber n x := by
  unfold readNumber IsFiniteNumber
  split
  next y hy =>
    rw [Option.filter_eq_some_iff] at hy
    constructor
    · intro h
      cases h
      exact hy
    · rintro ⟨hx, -⟩
      rw [hy.1] at hx
      cases hx
      rfl
  next hy =>
    refine iff_of_false (fun h => by cases h) ?_
    rintro ⟨hx, hfinite⟩
    simp [hx, hfinite] at hy

theorem IsFiniteNumber.endsInFigure (h : IsFiniteNumber n x) : Decimal.EndsInFigure n := by
  have ⟨l, hspells, _⟩ := Decimal.read?_eq_some_iff.1 h.1
  exact hspells.endsInFigure

def EndsInLetter (cs : List Char) : Prop :=
  ∃ c ∈ cs.getLast?, c.isDigit = false ∧ c ≠ '.'

theorem IsFiniteNumber.not_endsInLetter (h : IsFiniteNumber n x) : ¬ EndsInLetter n := by
  rintro ⟨c, hc, hdigit, hpoint⟩
  have ⟨d, hd, hfigure⟩ := h.endsInFigure
  cases Option.mem_unique hc hd
  rcases hfigure with hfigure | hfigure
  · simp [hdigit] at hfigure
  · exact hpoint hfigure

theorem isSuffixOf?_number {name : List Char} (hname : EndsInLetter name)
    (h : IsFiniteNumber n x) : name.isSuffixOf? n = none := by
  refine Option.eq_none_iff_forall_ne_some.2 fun front hfront => h.not_endsInLetter ?_
  have ⟨c, hc, hletter⟩ := hname
  rw [List.isSuffixOf?_eq_some_iff_append_eq] at hfront
  subst hfront
  exact ⟨c, by rw [List.getLast?_append, Option.mem_def.1 hc]; rfl, hletter⟩

theorem isSuffixOf?_append_of_ne {unit name : List Char} (hunit : unit ≠ []) (hname : name ≠ [])
    (hne : name.getLast? ≠ unit.getLast?) (n : List Char) :
    name.isSuffixOf? (n ++ unit) = none := by
  refine Option.eq_none_iff_forall_ne_some.2 fun front hfront => ?_
  rw [List.isSuffixOf?_eq_some_iff_append_eq] at hfront
  have hlast := congrArg List.getLast? hfront
  rw [List.getLast?_append_of_ne_nil _ hname, List.getLast?_append_of_ne_nil _ hunit] at hlast
  exact hne hlast

theorem isSuffixOf?_append (n unit : List Char) : unit.isSuffixOf? (n ++ unit) = some n :=
  List.isSuffixOf?_eq_some_iff_append_eq.2 rfl

theorem isSuffixOf?_longer {front : List Char} (hfront : EndsInLetter front)
    (unit : List Char) (h : IsFiniteNumber n x) :
    (front ++ unit).isSuffixOf? (n ++ unit) = none := by
  refine Option.eq_none_iff_forall_ne_some.2 fun rest hrest => ?_
  rw [List.isSuffixOf?_eq_some_iff_append_eq, ← List.append_assoc, List.append_cancel_right_eq,
    ← List.isSuffixOf?_eq_some_iff_append_eq, isSuffixOf?_number hfront h] at hrest
  cases hrest

theorem ne_none_of_getLast? (n unit : List Char) (hunit : unit ≠ [])
    (hne : unit.getLast? ≠ some 'e') : n ++ unit ≠ "none".toList := by
  intro hnone
  have hlast := congrArg List.getLast? hnone
  rw [List.getLast?_append_of_ne_nil _ hunit] at hlast
  exact hne hlast

theorem IsFiniteNumber.ne_none (h : IsFiniteNumber n x) : n ≠ "none".toList := by
  rintro rfl
  exact h.not_endsInLetter ⟨'e', rfl, by decide⟩

theorem bind_readNumber_eq_ok_iff {f : Float → Float} :
    (do pure (f (← readNumber n)) : Except ParseError Float) = .ok x ↔
      ∃ y, IsFiniteNumber n y ∧ f y = x := by
  simp only [Except.bind_eq_ok, readNumber_eq_ok_iff, pure, Except.pure, Except.ok.injEq]

theorem readChannel_eq_ok_iff : readChannel all t = .ok x ↔ IsChannel all t x := by
  constructor
  · intro h
    unfold readChannel at h
    split at h
    next hnone =>
      cases h
      exact hnone ▸ .none
    · split at h
      next n hn =>
        have ⟨y, hy, hx⟩ := bind_readNumber_eq_ok_iff.1 h
        rw [List.isSuffixOf?_eq_some_iff_append_eq] at hn
        exact hn ▸ hx ▸ .percent hy
      next => exact .number (readNumber_eq_ok_iff.1 h)
  · intro h
    unfold readChannel
    cases h with
    | none => rfl
    | number h =>
      rw [if_neg h.ne_none, isSuffixOf?_number ⟨'%', rfl, by decide⟩ h]
      exact readNumber_eq_ok_iff.2 h
    | @percent n x h =>
      rw [if_neg (ne_none_of_getLast? n _ (by decide) (by decide)), isSuffixOf?_append]
      exact bind_readNumber_eq_ok_iff.2 ⟨x, h, rfl⟩

theorem isAngle_of_unit {name : String} {degrees : Float → Float}
    (hmem : (name, degrees) ∈ angleUnits) (h : IsFiniteNumber n x) :
    IsAngle (n ++ name.toList) (degrees x) := by
  simp only [angleUnits, List.mem_cons, Prod.mk.injEq, List.not_mem_nil, or_false] at hmem
  rcases hmem with ⟨rfl, rfl⟩ | ⟨rfl, rfl⟩ | ⟨rfl, rfl⟩ | ⟨rfl, rfl⟩
  · exact .degrees h
  · exact .gradians h
  · exact .radians h
  · exact .turns h

def unit? (t : List Char) : Option (List Char × (Float → Float)) :=
  angleUnits.findSome? fun (name, degrees) =>
    (name.toList.isSuffixOf? t).map fun amount => (amount, degrees)

theorem readAngle_of_unit? (degrees : Float → Float) (hnone : t ≠ "none".toList)
    (hunit : unit? t = some (n, degrees)) (h : IsFiniteNumber n x) :
    readAngle t = .ok (degrees x) := by
  unfold unit? at hunit
  unfold readAngle
  simp only [if_neg hnone, hunit]
  exact bind_readNumber_eq_ok_iff.2 ⟨x, h, rfl⟩

theorem endsInLetter_of_unit {unit : String × (Float → Float)} (h : unit ∈ angleUnits) :
    EndsInLetter unit.1.toList := by
  simp only [angleUnits, List.mem_cons, List.not_mem_nil, or_false] at h
  rcases h with rfl | rfl | rfl | rfl
  · exact ⟨'g', rfl, by decide⟩
  · exact ⟨'d', rfl, by decide⟩
  · exact ⟨'d', rfl, by decide⟩
  · exact ⟨'n', rfl, by decide⟩

theorem unit?_number (h : IsFiniteNumber n x) : unit? n = none := by
  refine List.findSome?_eq_none_iff.2 fun unit hunit => ?_
  simp only [isSuffixOf?_number (endsInLetter_of_unit hunit) h, Option.map_none]

section

variable (n : List Char)

theorem unit?_degrees : unit? (n ++ "deg".toList) = some (n, id) := by
  simp only [unit?, angleUnits, List.findSome?_cons, isSuffixOf?_append, Option.map_some]

theorem unit?_gradians : unit? (n ++ "grad".toList) = some (n, (· * 0.9)) := by
  have hdeg : "deg".toList.isSuffixOf? (n ++ "grad".toList) = none :=
    isSuffixOf?_append_of_ne (by decide) (by decide) (by decide) n
  simp only [unit?, angleUnits, List.findSome?_cons, hdeg, isSuffixOf?_append, Option.map_none,
    Option.map_some]

theorem unit?_radians (h : IsFiniteNumber n x) :
    unit? (n ++ "rad".toList) = some (n, (· * (180.0 / pi))) := by
  have hdeg : "deg".toList.isSuffixOf? (n ++ "rad".toList) = none :=
    isSuffixOf?_append_of_ne (by decide) (by decide) (by decide) n
  have hletter : EndsInLetter ['g'] := ⟨'g', rfl, by decide⟩
  have hgrad : "grad".toList.isSuffixOf? (n ++ "rad".toList) = none :=
    isSuffixOf?_longer hletter "rad".toList h
  simp only [unit?, angleUnits, List.findSome?_cons, hdeg, hgrad, isSuffixOf?_append,
    Option.map_none, Option.map_some]

theorem unit?_turns : unit? (n ++ "turn".toList) = some (n, (· * 360.0)) := by
  have hother : ∀ name ∈ ["deg", "grad", "rad"],
      name.toList.isSuffixOf? (n ++ "turn".toList) = none := by
    intro name hname
    refine isSuffixOf?_append_of_ne (by decide) ?_ ?_ n <;> revert name <;> decide
  have hdeg := hother "deg" (by decide)
  have hgrad := hother "grad" (by decide)
  have hrad := hother "rad" (by decide)
  simp only [unit?, angleUnits, List.findSome?_cons, hdeg, hgrad, hrad, isSuffixOf?_append,
    Option.map_none, Option.map_some]

end

theorem readAngle_eq_ok_iff : readAngle t = .ok x ↔ IsAngle t x := by
  constructor
  · intro h
    unfold readAngle at h
    split at h
    next hnone =>
      cases h
      exact hnone ▸ .none
    · dsimp only at h
      split at h
      next n degrees hunit =>
        have ⟨⟨name, degrees'⟩, hmem, hname⟩ := List.exists_of_findSome?_eq_some hunit
        have ⟨y, hy, hx⟩ := bind_readNumber_eq_ok_iff.1 h
        rw [Option.map_eq_some_iff] at hname
        have ⟨n', hn, heq⟩ := hname
        cases heq
        rw [List.isSuffixOf?_eq_some_iff_append_eq] at hn
        exact hn ▸ hx ▸ isAngle_of_unit hmem hy
      next => exact .number (readNumber_eq_ok_iff.1 h)
  · intro h
    cases h with
    | none => rfl
    | number h =>
      have hunit := unit?_number h
      unfold unit? at hunit
      unfold readAngle
      simp only [if_neg h.ne_none, hunit]
      exact readNumber_eq_ok_iff.2 h
    | @degrees n x h =>
      have hnone := ne_none_of_getLast? n "deg".toList (by decide) (by decide)
      exact readAngle_of_unit? id hnone (unit?_degrees n) h
    | @gradians n x h =>
      have hnone := ne_none_of_getLast? n "grad".toList (by decide) (by decide)
      exact readAngle_of_unit? (· * 0.9) hnone (unit?_gradians n) h
    | @radians n x h =>
      have hnone := ne_none_of_getLast? n "rad".toList (by decide) (by decide)
      exact readAngle_of_unit? (· * (180.0 / pi)) hnone (unit?_radians n h) h
    | @turns n x h =>
      have hnone := ne_none_of_getLast? n "turn".toList (by decide) (by decide)
      exact readAngle_of_unit? (· * 360.0) hnone (unit?_turns n) h

/-! The whole text. -/

theorem eq_slash_of_dropWhile {d : Char} {token : List Char}
    (h : body.dropWhile (· != '/') = d :: token) : d = '/' := by
  have hd := List.head?_dropWhile_not (· != '/') body
  rw [h] at hd
  simpa using hd

theorem readAlpha_eq_ok_iff :
    readAlpha body = .ok x ↔ IsOpacity (body.dropWhile (· != '/')) x := by
  unfold readAlpha
  cases hbody : body.dropWhile (· != '/') with
  | nil => exact ⟨fun h => by cases h; exact .full, fun h => by cases h; rfl⟩
  | cons d token =>
    obtain rfl := eq_slash_of_dropWhile hbody
    simp only [Except.bind_eq_ok, readChannel_eq_ok_iff, pure, Except.pure, Except.ok.injEq]
    constructor
    · rintro ⟨y, hy, rfl⟩
      exact .given hy
    · intro h
      cases h with
      | given hy => exact ⟨_, hy, rfl⟩

theorem readBody_eq_ok_iff : readBody body = .ok c ↔ IsBody body c := by
  simp only [readBody]
  split
  next l m h hwords =>
    simp only [Except.bind_eq_ok, readAlpha_eq_ok_iff, readChannel_eq_ok_iff, readAngle_eq_ok_iff,
      pure, Except.pure, Except.ok.injEq]
    constructor
    · rintro ⟨_, halpha, _, hl, _, hm, _, hh, rfl⟩
      exact .intro hwords hl hm hh halpha
    · rintro ⟨hwords', hl, hm, hh, halpha⟩
      cases hwords.symm.trans hwords'
      exact ⟨_, halpha, _, hl, _, hm, _, hh, rfl⟩
  next hwords =>
    refine iff_of_false (fun h => by cases h) ?_
    rintro ⟨hwords', -, -, -, -⟩
    exact hwords _ _ _ hwords'

theorem body?_eq_some_iff {cs : List Char} : body? cs = some body ↔
    cs.map Char.toLower = "oklch(".toList ++ (body ++ ")".toList) := by
  simp only [body?, Option.bind_eq_bind, Option.bind_eq_some_iff,
    List.isPrefixOf?_eq_some_iff_append_eq, List.isSuffixOf?_eq_some_iff_append_eq]
  constructor
  · rintro ⟨rest, hrest, rfl⟩
    exact hrest.symm
  · intro h
    exact ⟨_, h.symm, rfl⟩

structure IsUnmarked (text : String) : Prop where
  ne_nil : Text.trim text.toList ≠ []
  head?_ne : (Text.trim text.toList).head? ≠ some '#'

theorem IsUnmarked.read_eq (h : IsUnmarked text) :
    read text = .ok (match body? (Text.trim text.toList) with
      | some body => readBody body
      | none => .error (.unsupportedFormat (String.ofList (Text.trim text.toList)))) := by
  unfold read
  split
  next htrim => exact absurd htrim h.ne_nil
  next htrim => exact absurd (congrArg List.head? htrim) h.head?_ne
  next => cases body? (Text.trim text.toList) <;> rfl

theorem Brackets.isUnmarked (h : Brackets text body) : IsUnmarked text := by
  unfold Brackets at h
  constructor
  · intro hnil
    rw [hnil] at h
    cases h
  · intro hhead
    have hlower := congrArg List.head? h
    rw [List.head?_map, hhead] at hlower
    cases hlower

theorem IsUnmarked.read_of_not (h : IsUnmarked text) (hnot : ∀ body, ¬ Brackets text body) :
    read text = .ok (.error (.unsupportedFormat (String.ofList (Text.trim text.toList)))) := by
  have hbody : body? (Text.trim text.toList) = none :=
    Option.eq_none_iff_forall_ne_some.2 fun body hbody => hnot body (body?_eq_some_iff.1 hbody)
  rw [h.read_eq, hbody]

theorem Brackets.read_eq (h : Brackets text body) : read text = .ok (readBody body) := by
  rw [h.isUnmarked.read_eq, body?_eq_some_iff.2 h]

theorem Brackets.unique {body' : List Char} (h : Brackets text body)
    (h' : Brackets text body') : body = body' :=
  List.append_cancel_right (List.append_cancel_left (h.symm.trans h'))

theorem Brackets.writes_iff (h : Brackets text body) : Writes text c ↔ IsBody body c := by
  constructor
  · rintro ⟨body', h', hbody⟩
    exact h.unique h' ▸ hbody
  · exact fun hbody => ⟨body, h, hbody⟩

theorem Brackets.read_eq_ok_iff (h : Brackets text body) :
    read text = .ok (.ok c) ↔ IsBody body c := by
  rw [h.read_eq, Except.ok.injEq, readBody_eq_ok_iff]

/-! Errors. -/

def OnlyInvalid {α : Type} (r : Except ParseError α) : Prop :=
  ∀ e, r = .error e → ∃ token, e = .invalidChannel token

theorem onlyInvalid_pure {α : Type} (a : α) : OnlyInvalid (pure a) :=
  fun _ h => by cases h

theorem onlyInvalid_throw {α : Type} (token : String) :
    OnlyInvalid (throw (.invalidChannel token) : Except ParseError α) := by
  intro e h
  cases h
  exact ⟨token, rfl⟩

theorem OnlyInvalid.bind {α β : Type} {r : Except ParseError α} {f : α → Except ParseError β}
    (hr : OnlyInvalid r) (hf : ∀ a, OnlyInvalid (f a)) : OnlyInvalid (r >>= f) := by
  cases r with
  | error e => exact fun e' h => by cases h; exact hr e rfl
  | ok a => exact hf a

theorem onlyInvalid_readNumber (n : List Char) : OnlyInvalid (readNumber n) := by
  unfold readNumber
  split
  · exact onlyInvalid_pure _
  · exact onlyInvalid_throw _

theorem onlyInvalid_readChannel (all : Float) (t : List Char) :
    OnlyInvalid (readChannel all t) := by
  unfold readChannel
  split
  · exact onlyInvalid_pure _
  · split
    · exact (onlyInvalid_readNumber _).bind fun _ => onlyInvalid_pure _
    · exact onlyInvalid_readNumber _

theorem onlyInvalid_readAngle (t : List Char) : OnlyInvalid (readAngle t) := by
  unfold readAngle
  split
  · exact onlyInvalid_pure _
  · dsimp only
    split
    · exact (onlyInvalid_readNumber _).bind fun _ => onlyInvalid_pure _
    · exact onlyInvalid_readNumber _

theorem onlyInvalid_readAlpha (body : List Char) : OnlyInvalid (readAlpha body) := by
  unfold readAlpha
  split
  · exact onlyInvalid_pure _
  · exact (onlyInvalid_readChannel _ _).bind fun _ => onlyInvalid_pure _

theorem onlyInvalid_readBody (body : List Char) : OnlyInvalid (readBody body) := by
  simp only [readBody]
  split
  · exact (onlyInvalid_readAlpha _).bind fun _ => (onlyInvalid_readChannel _ _).bind fun _ =>
      (onlyInvalid_readChannel _ _).bind fun _ => (onlyInvalid_readAngle _).bind fun _ =>
      onlyInvalid_pure _
  · exact onlyInvalid_throw _

/-! Layout. -/

structure Parts where
  lightness : List Char
  chroma : List Char
  angle : List Char
  alpha : Option (List Char)

inductive LaysAlpha : Option (List Char) → List Char → Prop
  | none : LaysAlpha none []
  | some {front a back : List Char} (hfront : Text.AreBlank front) (ha : Text.Tight a)
      (hback : Text.AreBlank back) : LaysAlpha (some a) ('/' :: (front ++ (a ++ back)))

/-- A text of these parts: its letters are of any case, and blanks stand where they may. -/
inductive Parts.Lays (p : Parts) (text : String) : Prop
  | intro {front channels alpha back : List Char}
      (htext : text.toList.map Char.toLower =
        front ++ ("oklch(".toList ++ (channels ++ alpha ++ ")".toList) ++ back))
      (hfront : Text.AreBlank front)
      (hchannels : Text.Spaced [p.lightness, p.chroma, p.angle] channels)
      (hslash : '/' ∉ channels) (halpha : LaysAlpha p.alpha alpha) (hback : Text.AreBlank back)

variable {p : Parts} {alpha : Option (List Char)} {channels tail tail' : List Char}

theorem tight_brackets (body : List Char) :
    Text.Tight ("oklch(".toList ++ (body ++ ")".toList)) where
  head := by
    rintro c ⟨⟩
    rfl
  last := by
    intro c hc
    rw [← List.append_assoc, List.getLast?_append_of_ne_nil _ (by decide)] at hc
    cases hc
    rfl

theorem Parts.Lays.exists_body (h : p.Lays text) : ∃ channels tail,
    Brackets text (channels ++ tail) ∧ Text.Spaced [p.lightness, p.chroma, p.angle] channels ∧
      '/' ∉ channels ∧ LaysAlpha p.alpha tail := by
  rcases h with ⟨htext, hfront, hchannels, hslash, halpha, hback⟩
  refine ⟨_, _, ?_, hchannels, hslash, halpha⟩
  rw [Brackets, ← Text.trim_map_toLower, htext]
  exact (tight_brackets _).trim_eq hfront hback

theorem LaysAlpha.isOpacity (h : LaysAlpha alpha tail) (h' : LaysAlpha alpha tail')
    (hopacity : IsOpacity tail x) : IsOpacity tail' x := by
  cases h with
  | none =>
    cases h'
    exact hopacity
  | some hfront ha hback =>
    cases h' with
    | some hfront' ha' hback' =>
      cases hopacity with
      | given hchannel =>
        rw [ha.trim_eq hfront hback, ← ha'.trim_eq hfront' hback'] at hchannel
        exact .given hchannel

theorem LaysAlpha.split (h : LaysAlpha alpha tail) (hslash : '/' ∉ channels) :
    (channels ++ tail).takeWhile (· != '/') = channels ∧
      (channels ++ tail).dropWhile (· != '/') = tail := by
  have hchannels : ∀ d ∈ channels, (d != '/') = true := by
    rintro d hd
    rw [bne_iff_ne]
    rintro rfl
    exact hslash hd
  rw [List.takeWhile_append_of_pos hchannels, List.dropWhile_append_of_pos hchannels]
  cases h <;> simp

/-- Texts that lay the same parts out write the same color, if any. -/
theorem Parts.Lays.writes {other : String} (h : p.Lays text) (h' : p.Lays other)
    (hwrites : Writes text c) : Writes other c := by
  have ⟨channels, tail, hbrackets, hspaced, hslash, halpha⟩ := h.exists_body
  have ⟨channels', tail', hbrackets', hspaced', hslash', halpha'⟩ := h'.exists_body
  rcases hbrackets.writes_iff.1 hwrites with ⟨hwords, hlightness, hchroma, hangle, hopacity⟩
  rw [(halpha.split hslash).1, hspaced.words_eq] at hwords
  rw [(halpha.split hslash).2] at hopacity
  cases hwords
  refine hbrackets'.writes_iff.2 (.intro ?_ hlightness hchroma hangle ?_)
  · rw [(halpha'.split hslash').1, hspaced'.words_eq]
  · rw [(halpha'.split hslash').2]
    exact halpha.isOpacity halpha' hopacity

theorem IsOpacity.exists_laysAlpha (h : IsOpacity tail x) : ∃ alpha, LaysAlpha alpha tail := by
  cases h with
  | full => exact ⟨none, .none⟩
  | @given token =>
    have ⟨front, back, htoken, hfront, hback, htight⟩ := Text.exists_trim token
    have hlays := LaysAlpha.some hfront htight hback
    rw [← htoken] at hlays
    exact ⟨_, hlays⟩

/-- Every text that writes a color lays some parts out. -/
theorem Writes.exists_lays (h : Writes text c) : ∃ p : Parts, p.Lays text := by
  have ⟨body, hbrackets, hbody⟩ := h
  cases hbody with | @intro l m h hwords _ _ _ hopacity =>
  obtain ⟨front, back, htext, hfront, hback, -⟩ :=
    Text.exists_trim (text.toList.map Char.toLower)
  have ⟨alpha, halpha⟩ := hopacity.exists_laysAlpha
  refine ⟨⟨l, m, h, alpha⟩, .intro ?_ hfront (Text.words_eq_iff.1 hwords) ?_ halpha hback⟩
  · rw [htext, Text.trim_map_toLower, hbrackets, List.takeWhile_append_dropWhile]
  · intro hmem
    have hne := List.mem_takeWhile_imp hmem
    simp at hne

structure FollowsGrammar (text : String) : Prop where
  accepted (c : Color) : read text = .ok (.ok c) ↔ Writes text c
  laidOut (c : Color) : read text = .ok (.ok c) → ∃ p : Parts, p.Lays text
  relaid (c : Color) (p : Parts) (other : String) : p.Lays text → p.Lays other →
    (read text = .ok (.ok c) ↔ read other = .ok (.ok c))
  unsupported : (∀ body, ¬ Brackets text body) →
    read text = .ok (.error (.unsupportedFormat (String.ofList (Text.trim text.toList))))
  invalid (body : List Char) : Brackets text body → (∀ c, ¬ Writes text c) →
    ∃ token, read text = .ok (.error (.invalidChannel token))

/-- Every text but a hexadecimal color is read as the grammar says. -/
theorem read_followsGrammar (text : String) (hne : Text.trim text.toList ≠ [])
    (hhead : (Text.trim text.toList).head? ≠ some '#') : FollowsGrammar text := by
  have hother := IsUnmarked.read_of_not ⟨hne, hhead⟩
  have haccepted : ∀ c, read text = .ok (.ok c) ↔ Writes text c := by
    intro c
    by_cases hbrackets : ∃ body, Brackets text body
    · have ⟨body, hbody⟩ := hbrackets
      exact hbody.read_eq_ok_iff.trans hbody.writes_iff.symm
    · have hnot : ∀ body, ¬ Brackets text body := fun body h => hbrackets ⟨body, h⟩
      refine iff_of_false (fun h => by rw [hother hnot] at h; cases h) ?_
      rintro ⟨body, hbody, -⟩
      exact hnot body hbody
  refine ⟨haccepted, fun c h => ((haccepted c).1 h).exists_lays, ?_, hother, ?_⟩
  · intro c p other htext hother
    obtain ⟨channels, tail, hbrackets, -⟩ := hother.exists_body
    rw [haccepted, hbrackets.read_eq_ok_iff, ← hbrackets.writes_iff]
    exact ⟨htext.writes hother, hother.writes htext⟩
  · intro body hbrackets hnot
    rw [hbrackets.read_eq]
    cases hbody : readBody body with
    | ok c => exact absurd ⟨body, hbrackets, readBody_eq_ok_iff.1 hbody⟩ (hnot c)
    | error e =>
      have ⟨token, he⟩ := onlyInvalid_readBody body e hbody
      exact ⟨token, by rw [he]⟩

theorem read_followsGrammar_absentChannels :
    Text.trim "\tOkLCH(none  NONE none /none)".toList ≠ [] ∧
      (Text.trim "\tOkLCH(none  NONE none /none)".toList).head? ≠ some '#' ∧
      read "\tOkLCH(none  NONE none /none)" = .ok (.ok ⟨0.0, 0.0, 0.0, clamp 0.0 0.0 1.0⟩) := by
  have hgrammar := read_followsGrammar "\tOkLCH(none  NONE none /none)" (by decide) (by decide)
  have halpha : IsChannel 1.0 (Text.trim "none".toList) 0.0 := .none
  have hbody : IsBody "none  none none /none".toList ⟨0.0, 0.0, 0.0, clamp 0.0 0.0 1.0⟩ :=
    .intro rfl .none .none .none (.given halpha)
  have hbrackets : Brackets "\tOkLCH(none  NONE none /none)" "none  none none /none".toList := rfl
  exact ⟨by decide, by decide, (hgrammar.accepted _).2 ⟨_, hbrackets, hbody⟩⟩

end Color
end ColorGraph
