import ColorGraph.Proofs.PlainTexts
import ColorGraph.Proofs.SettledHues
import ColorGraph.Proofs.SettledLightness
/-!
Colors that are written and read again. Main statement: a written color is read unless its lightness
or its chroma became infinite, and it is written as the same text exactly when each of its channels
settles at once.
-/

set_option autoImplicit false

namespace ColorGraph.Color

open Decimal (significant)

def reread (ends : TurnEnds) (c : Color) : Color where
  lightness := significant (c.lightness * 100.0) 5 / 100.0 * 1.0
  chroma := significant c.chroma 5
  angle := significant (c.hue ends) 5
  alpha := if c.alpha < 1.0 then clamp (significant c.alpha 5) 0.0 1.0 else 1.0

structure IsWritable (c : Color) : Prop where
  lightness : exactSize (c.lightness * 100.0) ≤ Decimal.largestFive
  chroma : exactSize c.chroma ≤ Decimal.largestFive

/-- The channels have the same figures when they are written again: the lightness is not the one
whose hundredth is lost below the least floats, the hue is neither negative, a few least floats
aside, nor rounded to a full turn, and the opacity is not rounded to one. -/
structure IsSettled (ends : TurnEnds) (c : Color) : Prop where
  lightness : exactSize c.lightness ≠ 20241 * least
  hue_low : -(180 * least) ≤ exactValue (c.hue ends)
  hue_high : exactValue (c.hue ends) < 359.995
  alpha : exactValue c.alpha = 1 ∨ exactValue c.alpha < 0.999995

variable {ends : TurnEnds} {c c' : Color} {x y all : Float} {n t body : List Char} {p p' : Parts}
  {alpha alpha' : Option (List Char)} {tail text : List Char} {d : Char}

/-! The words of a written color. -/

structure IsPlain (cs : List Char) : Prop extends Text.IsWord cs where
  notSlash : '/' ∉ cs
  lower : cs.map Char.toLower = cs

theorem channelText_of_not_finite (h : ¬ (significant x 5).isFinite = true) :
    channelText x = "inf" ∨ channelText x = "-inf" := by
  rcases Decimal.text_plain_of_not_finite h with hinf | hinf | hnumber
  · exact .inl hinf
  · exact .inr hinf
  · rw [Decimal.isNaN_significant] at hnumber
    cases hnumber

def IsNumeric (d : Char) : Prop :=
  33 ≤ d.toNat ∧ d.toNat < 0x85 ∧ d ≠ '/' ∧ d.toLower = d

instance (d : Char) : Decidable (IsNumeric d) :=
  inferInstanceAs (Decidable (_ ∧ _))

theorem isPlain_of_isNumeric (hne : t ≠ []) (h : ∀ d ∈ t, IsNumeric d) : IsPlain t := by
  refine ⟨⟨hne, fun d hd => ?_⟩, fun hslash => (h _ hslash).2.2.1 rfl, ?_⟩
  · exact Text.isBlank_eq_false (h d hd).1 (h d hd).2.1
  · exact (List.map_congr_left fun d hd => (h d hd).2.2.2).trans (List.map_id t)

theorem isNumeric_of_isDigit (h : d.isDigit) : IsNumeric d := by
  have hrange : 48 ≤ d.toNat ∧ d.toNat ≤ 57 := by
    simpa [Char.isDigit, UInt32.le_iff_toNat_le] using h
  refine ⟨by omega, by omega, ?_, ?_⟩
  · rintro rfl
    exact absurd h (by decide)
  · unfold Char.toLower
    refine dif_neg fun hupper => ?_
    have hge : 65 ≤ d.toNat := UInt32.le_iff_toNat_le.1 hupper.1
    omega

theorem isPlain_channelText (x : Float) : IsPlain (channelText x).toList := by
  refine isPlain_of_isNumeric (fun hnil => ?_) ?_
  · exact Decimal.Layout.text_ne_empty _ _ (String.toList_eq_nil_iff.1 hnil)
  by_cases h : (significant x 5).isFinite = true
  · obtain ⟨b, hb⟩ := Binary.exists_ofFloat? h
    intro d hd
    rcases Decimal.mem_text_plain hb hd with hdigit | rfl | rfl
    · exact isNumeric_of_isDigit hdigit
    · decide
    · decide
  · refine List.forall_iff_forall_mem.1 ?_
    rcases channelText_of_not_finite h with hinf | hinf <;> rw [hinf] <;> decide

/-! The layout. -/

def writtenAlpha (c : Color) : Option String :=
  if c.alpha < 1.0 then some (channelText c.alpha) else none

def writtenParts (ends : TurnEnds) (c : Color) : Parts where
  lightness := (channelText (c.lightness * 100.0)).toList ++ "%".toList
  chroma := (channelText c.chroma).toList
  angle := (channelText (c.hue ends)).toList
  alpha := c.writtenAlpha.map String.toList

theorem IsPlain.append (h : IsPlain n) (h' : IsPlain t) : IsPlain (n ++ t) where
  ne_nil hnil := h.ne_nil (List.append_eq_nil_iff.1 hnil).1
  notBlank d hd := (List.mem_append.1 hd).elim (h.notBlank d) (h'.notBlank d)
  notSlash hd := (List.mem_append.1 hd).elim h.notSlash h'.notSlash
  lower := by rw [List.map_append, h.lower, h'.lower]

theorem isPlain_percent : IsPlain "%".toList :=
  isPlain_of_isNumeric (by decide) (List.forall_iff_forall_mem.1 (by decide))

theorem IsPlain.tight (h : IsPlain t) : Text.Tight t where
  head d hd := h.notBlank d (List.mem_of_mem_head? hd)
  last d hd := h.notBlank d (List.mem_of_mem_getLast? hd)

theorem areBlank_space : Text.AreBlank [' '] := by
  intro d hd
  rw [List.mem_singleton.1 hd]
  decide

theorem spaced_three {l m h back : List Char} (hl : IsPlain l) (hm : IsPlain m) (hh : IsPlain h)
    (hback : Text.AreBlank back) :
    Text.Spaced [l, m, h] (l ++ ' ' :: (m ++ ' ' :: (h ++ back))) := by
  have hlast : Text.Spaced [h] ([' '] ++ (h ++ back)) :=
    .cons areBlank_space hh.toIsWord (fun d hd => hback d (List.mem_of_mem_head? hd)) (.nil hback)
  have hmiddle : Text.Spaced [m, h] ([' '] ++ (m ++ ' ' :: (h ++ back))) :=
    .cons areBlank_space hm.toIsWord (fun d hd => by cases hd; decide) hlast
  exact .cons Text.areBlank_nil hl.toIsWord
    (fun d hd => by cases hd; decide) hmiddle

theorem exists_tail (c : Color) : ∃ back tail,
    (if c.alpha < 1.0 then " / " ++ channelText c.alpha else "").toList = back ++ tail ∧
      Text.AreBlank back ∧ '/' ∉ back ∧ LaysAlpha (c.writtenAlpha.map String.toList) tail ∧
        (back ++ tail).map Char.toLower = back ++ tail := by
  unfold writtenAlpha
  by_cases h : c.alpha < 1.0
  · have hplain := isPlain_channelText c.alpha
    have hlays := LaysAlpha.some areBlank_space hplain.tight Text.areBlank_nil
    rw [if_pos h, if_pos h]
    refine ⟨[' '], _, ?_, areBlank_space, by decide, hlays, ?_⟩
    · rw [String.toList_append, List.append_nil]
      rfl
    · rw [List.append_nil]
      simp only [List.map_append, List.map_cons, hplain.lower]
      rfl
  · rw [if_neg h, if_neg h]
    exact ⟨[], [], rfl, Text.areBlank_nil, List.not_mem_nil, .none, rfl⟩

theorem lays_text (ends : TurnEnds) (c : Color) : (c.writtenParts ends).Lays (c.text ends) := by
  obtain ⟨back, tail, htail, hback, hslash, halpha, hlower⟩ := exists_tail c
  have hl := (isPlain_channelText (c.lightness * 100.0)).append isPlain_percent
  have hm := isPlain_channelText c.chroma
  have hh := isPlain_channelText (c.hue ends)
  have hspaced := spaced_three hl hm hh hback
  refine .intro ?_ Text.areBlank_nil hspaced ?_ halpha Text.areBlank_nil
  · have htext : (c.text ends).toList =
        "oklch(".toList ++ (((channelText (c.lightness * 100.0)).toList ++ "%".toList ++
          ' ' :: ((channelText c.chroma).toList ++ ' ' ::
            ((channelText (c.hue ends)).toList ++ (back ++ tail)))) ++ ")".toList) := by
      simp only [text, String.toList_append, htail, List.append_assoc, List.cons_append]
      rfl
    rw [htext, List.map_append, List.map_append, List.map_append, hl.lower, List.map_cons,
      List.map_append, hm.lower, List.map_cons, List.map_append, hh.lower, hlower]
    simp only [List.append_assoc, List.cons_append, List.append_nil]
    rfl
  · have hslash' := hl.notSlash
    simp only [List.mem_append, List.mem_cons, not_or] at hslash' ⊢
    exact ⟨hslash', by decide, hm.notSlash, by decide, hh.notSlash, hslash⟩

theorem LaysAlpha.unique (h : LaysAlpha alpha tail) (h' : LaysAlpha alpha' tail) :
    alpha = alpha' := by
  cases h with
  | none =>
    cases h'
    rfl
  | some hfront ha hback =>
    generalize htail : '/' :: (_ ++ (_ ++ _)) = tail at h'
    cases h' with
    | none => cases htail
    | some hfront' ha' hback' =>
      rw [← ha.trim_eq hfront hback, (List.cons.inj htail).2, ha'.trim_eq hfront' hback']

/-- A text has its parts in one way. -/
theorem Parts.Lays.unique {text : String} (h : p.Lays text) (h' : p'.Lays text) : p = p' := by
  obtain ⟨channels, tail, hbrackets, hspaced, hslash, halpha⟩ := h.exists_body
  obtain ⟨channels', tail', hbrackets', hspaced', hslash', halpha'⟩ := h'.exists_body
  have hbody := hbrackets.unique hbrackets'
  have hchannels := (halpha.split hslash).1
  have htail := (halpha.split hslash).2
  rw [hbody, (halpha'.split hslash').1] at hchannels
  rw [hbody, (halpha'.split hslash').2] at htail
  subst hchannels htail
  have hwords := hspaced.words_eq.symm.trans hspaced'.words_eq
  simp only [List.cons.injEq, and_true] at hwords
  obtain ⟨hl, hm, hh⟩ := hwords
  cases p
  cases p'
  simp only [Parts.mk.injEq]
  exact ⟨hl, hm, hh, halpha.unique halpha'⟩

/-- Colors have one text exactly when what is written of each channel is the same. -/
theorem text_eq_iff : c.text ends = c'.text ends ↔
    channelText (c.lightness * 100.0) = channelText (c'.lightness * 100.0) ∧
      channelText c.chroma = channelText c'.chroma ∧
        channelText (c.hue ends) = channelText (c'.hue ends) ∧
          c.writtenAlpha = c'.writtenAlpha := by
  constructor
  · intro h
    have hparts : c.writtenParts ends = c'.writtenParts ends :=
      (lays_text ends c).unique (h ▸ lays_text ends c')
    simp only [writtenParts, Parts.mk.injEq, List.append_cancel_right_eq, String.toList_inj]
      at hparts
    obtain ⟨hl, hm, hh, halpha⟩ := hparts
    exact ⟨hl, hm, hh, Option.map_injective (fun _ _ => String.toList_inj.1) halpha⟩
  · rintro ⟨hl, hm, hh, halpha⟩
    have htail : ∀ c : Color, (if c.alpha < 1.0 then " / " ++ channelText c.alpha else "") =
        c.writtenAlpha.elim "" (" / " ++ ·) := by
      intro c
      unfold writtenAlpha
      split <;> rfl
    simp only [text, hl, hm, hh, htail, halpha]

/-! Reading. -/

theorem isFiniteNumber_channelText (h : (significant x 5).isFinite = true) :
    IsFiniteNumber (channelText x).toList (significant x 5) :=
  ⟨Decimal.read?_text_plain h, h⟩

theorem readChannel_infinite (all : Float) (h : ¬ (significant x 5).isFinite = true) :
    readChannel all (channelText x).toList = .error (.invalidChannel (channelText x)) := by
  rcases channelText_of_not_finite h with hinf | hinf <;> rw [hinf] <;> rfl

theorem readChannel_infinite_percent (all : Float) (h : ¬ (significant x 5).isFinite = true) :
    readChannel all ((channelText x).toList ++ "%".toList) =
      .error (.invalidChannel (channelText x)) := by
  rcases channelText_of_not_finite h with hinf | hinf <;> rw [hinf] <;> rfl

theorem isOpacity_reread (ha : (significant c.alpha 5).isFinite = true)
    (h : LaysAlpha (c.writtenAlpha.map String.toList) tail) :
    IsOpacity tail (c.reread ends).alpha := by
  unfold writtenAlpha at h
  unfold reread
  dsimp only
  split at h
  next hlt =>
    rw [if_pos hlt]
    cases h with
    | some hfront hplain hback =>
      refine .given ?_
      rw [hplain.trim_eq hfront hback]
      exact .number (isFiniteNumber_channelText ha)
  next hnot =>
    rw [if_neg hnot]
    cases h
    exact .full

theorem HasChannels.alpha_spec (h : c.HasChannels) : c.alpha.isFinite = true ∧
    0 ≤ exactValue c.alpha ∧ exactValue c.alpha ≤ 1 := by
  obtain ⟨hzero, hzero'⟩ := zero_spec
  have hlow := h.alpha_low
  have hhigh := h.alpha_high
  have hfinite : c.alpha.isFinite = true := by
    by_contra hnot
    rcases eq_of_not_finite hnot with ha | ha | ha <;> rw [ha] at hlow hhigh
    · exact absurd hhigh (by decide +kernel)
    · exact absurd hlow (by decide +kernel)
    · exact absurd hlow (by decide +kernel)
  rw [le_iff hzero hfinite, hzero'] at hlow
  rw [le_iff hfinite one_spec.1, exactValue_one] at hhigh
  exact ⟨hfinite, hlow, hhigh⟩

theorem HasChannels.isFinite_opacity (h : c.HasChannels) :
    (significant c.alpha 5).isFinite = true := by
  obtain ⟨-, hlow, hhigh⟩ := h.alpha_spec
  exact isFinite_significant_of_le_one (exactSize_of_nonneg hlow ▸ hhigh)

theorem writes_reread (h : c.HasChannels) (hwritable : c.IsWritable) :
    Writes (c.text ends) (c.reread ends) := by
  obtain ⟨channels, tail, hbrackets, hspaced, hslash, halpha⟩ := (lays_text ends c).exists_body
  have hl := (Decimal.isFinite_significant_iff _).2 hwritable.lightness
  have hm := (Decimal.isFinite_significant_iff _).2 hwritable.chroma
  refine ⟨_, hbrackets, .intro ?_ (.percent (isFiniteNumber_channelText hl))
    (.number (isFiniteNumber_channelText hm))
    (.number (isFiniteNumber_channelText (isFinite_significant_wrapAngle ends c.angle))) ?_⟩
  · rw [(halpha.split hslash).1]
    exact hspaced.words_eq
  · rw [(halpha.split hslash).2]
    exact isOpacity_reread h.isFinite_opacity halpha

theorem read_of_not_writable (h : c.HasChannels) (hnot : ¬ c.IsWritable) :
    ∃ token ∈ ["inf", "-inf"], read (c.text ends) = .ok (.error (.invalidChannel token)) := by
  obtain ⟨channels, tail, hbrackets, hspaced, hslash, halpha⟩ := (lays_text ends c).exists_body
  have hopacity : readAlpha (channels ++ tail) = .ok (c.reread ends).alpha := by
    rw [readAlpha_eq_ok_iff, (halpha.split hslash).2]
    exact isOpacity_reread h.isFinite_opacity halpha
  have hmem : ∀ {x}, ¬ (significant x 5).isFinite = true → channelText x ∈ ["inf", "-inf"] :=
    fun hx => by simpa using channelText_of_not_finite hx
  rw [hbrackets.read_eq, readBody, (halpha.split hslash).1, hspaced.words_eq]
  dsimp only
  rw [hopacity]
  by_cases hl : (significant (c.lightness * 100.0) 5).isFinite = true
  · have hm : ¬ (significant c.chroma 5).isFinite = true := fun hm =>
      hnot ⟨(Decimal.isFinite_significant_iff _).1 hl, (Decimal.isFinite_significant_iff _).1 hm⟩
    have hlightness :
        readChannel 1.0 (c.writtenParts ends).lightness = .ok (c.reread ends).lightness :=
      readChannel_eq_ok_iff.2 (.percent (isFiniteNumber_channelText hl))
    have hchroma : readChannel maxChroma (c.writtenParts ends).chroma =
        .error (.invalidChannel (channelText c.chroma)) := readChannel_infinite maxChroma hm
    rw [hlightness, hchroma]
    exact ⟨_, hmem hm, rfl⟩
  · have hlightness : readChannel 1.0 (c.writtenParts ends).lightness =
        .error (.invalidChannel (channelText (c.lightness * 100.0))) :=
      readChannel_infinite_percent 1.0 hl
    rw [hlightness]
    exact ⟨_, hmem hl, rfl⟩

/-! Writing again. -/

theorem channelText_eq_iff (h : (significant y 5).isFinite = true) :
    channelText x = channelText y ↔ significant x 5 = significant y 5 :=
  ⟨fun htext => (Decimal.text_plain_inj h htext.symm).symm,
    fun hvalue => congrArg Decimal.plain.text hvalue⟩

theorem channelText_significant (h : (significant x 5).isFinite = true) :
    channelText (significant x 5) = channelText x :=
  (channelText_eq_iff h).2 (Decimal.significant_significant (by decide) (by decide) h)

theorem writtenAlpha_reread_iff (h : c.HasChannels) :
    (c.reread ends).writtenAlpha = c.writtenAlpha ↔
      exactValue c.alpha = 1 ∨ exactValue c.alpha < 0.999995 := by
  obtain ⟨hfinite, hlow, hhigh⟩ := h.alpha_spec
  have hlt : c.alpha < 1.0 ↔ exactValue c.alpha < 1 := by
    rw [lt_iff hfinite one_spec.1, exactValue_one]
  have hfull : ¬ (1.0 : Float) < 1.0 := by decide +kernel
  have halpha : (c.reread ends).alpha =
      if c.alpha < 1.0 then clamp (significant c.alpha 5) 0.0 1.0 else 1.0 := rfl
  unfold writtenAlpha
  rw [halpha]
  rcases hhigh.lt_or_eq with hless | hone
  · rw [if_pos (hlt.2 hless), if_pos (hlt.2 hless)]
    by_cases hsmall : exactValue c.alpha < 0.999995
    · obtain ⟨hclamp, hbelow⟩ := significant_opacity_of_lt hlow hsmall
      rw [hclamp, if_pos hbelow, channelText_significant h.isFinite_opacity]
      exact iff_of_true rfl (.inr hsmall)
    · have hclamp : clamp 1.0 0.0 1.0 = 1.0 := clamp_of_mem (by decide +kernel) hfull
      rw [significant_eq_one hlow (not_lt.1 hsmall) hless, hclamp, if_neg hfull]
      refine iff_of_false (fun hnone => by cases hnone) ?_
      rintro (heq | hlt)
      · exact hless.ne heq
      · exact hsmall hlt
  · have hnot : ¬ c.alpha < 1.0 := fun hless => (hlt.1 hless).ne hone
    rw [if_neg hnot, if_neg hnot, if_neg hfull]
    exact iff_of_true rfl (.inl hone)

theorem text_reread_iff (h : c.HasChannels) (hwritable : c.IsWritable) :
    (c.reread ends).text ends = c.text ends ↔ c.IsSettled ends := by
  have hl := (Decimal.isFinite_significant_iff _).2 hwritable.lightness
  have hm := (Decimal.isFinite_significant_iff _).2 hwritable.chroma
  have hlightness :
      channelText ((c.reread ends).lightness * 100.0) = channelText (c.lightness * 100.0) ↔
        exactSize c.lightness ≠ 20241 * least :=
    (channelText_eq_iff hl).trans (significant_lightness_iff h.lightness hl)
  have hchroma : channelText (c.reread ends).chroma = channelText c.chroma :=
    channelText_significant hm
  have hhue : channelText ((c.reread ends).hue ends) = channelText (c.hue ends) ↔
      -(180 * least) ≤ exactValue (c.hue ends) ∧ exactValue (c.hue ends) < 359.995 :=
    (channelText_eq_iff (isFinite_significant_wrapAngle ends c.angle)).trans
      (significant_wrapAngle_iff ends c.angle)
  rw [text_eq_iff, hlightness, hhue, writtenAlpha_reread_iff h]
  constructor
  · rintro ⟨hlightness, -, ⟨hlow, hhigh⟩, halpha⟩
    exact ⟨hlightness, hlow, hhigh, halpha⟩
  · rintro ⟨hlightness, hlow, hhigh, halpha⟩
    exact ⟨hlightness, hchroma, ⟨hlow, hhigh⟩, halpha⟩

structure WritesBack (ends : TurnEnds) (c : Color) : Prop where
  accepted : c.IsWritable → read (c.text ends) = .ok (.ok (c.reread ends))
  refused : ¬ c.IsWritable →
    ∃ token ∈ ["inf", "-inf"], read (c.text ends) = .ok (.error (.invalidChannel token))
  stable : (∃ c', read (c.text ends) = .ok (.ok c') ∧ c'.text ends = c.text ends) ↔
    c.IsWritable ∧ c.IsSettled ends

theorem HasChannels.writesBack (h : c.HasChannels) : c.WritesBack ends := by
  obtain ⟨channels, tail, hbrackets, -⟩ := (lays_text ends c).exists_body
  have haccepted : c.IsWritable → read (c.text ends) = .ok (.ok (c.reread ends)) := fun hwritable =>
    hbrackets.read_eq_ok_iff.2 (hbrackets.writes_iff.1 (writes_reread h hwritable))
  refine ⟨haccepted, read_of_not_writable h, ?_, ?_⟩
  · rintro ⟨c', hread, htext⟩
    by_cases hwritable : c.IsWritable
    · rw [haccepted hwritable] at hread
      cases hread
      exact ⟨hwritable, (text_reread_iff h hwritable).1 htext⟩
    · obtain ⟨token, -, herror⟩ := read_of_not_writable h hwritable
      rw [herror] at hread
      cases hread
  · rintro ⟨hwritable, hsettled⟩
    exact ⟨_, haccepted hwritable, (text_reread_iff h hwritable).2 hsettled⟩

/-- What is read in the notation is written as a text that is read again and comes out the same,
except where rounding carries a channel beyond the bounds that reading or writing has for it. -/
theorem text_writesBack (ends : TurnEnds) {s : String} (hbrackets : Brackets s body)
    (h : read s = .ok (.ok c)) :
    c.WritesBack ends := by
  rw [hbrackets.read_eq_ok_iff] at h
  exact h.hasChannels.writesBack

theorem text_writesBack_nearlyTurned :
    (∃ c, read "oklch(43.2684% 0.121145 0.25turn / 0.3)" = .ok (.ok c) ∧
      ∃ c', read (c.text .kept) = .ok (.ok c') ∧ c'.text .kept = c.text .kept) ∧
    (∃ c, read "oklch(0.5 0.1 359.999)" = .ok (.ok c) ∧
      (∃ c', read (c.text .kept) = .ok (.ok c')) ∧
        ¬ ∃ c', read (c.text .kept) = .ok (.ok c') ∧ c'.text .kept = c.text .kept) ∧
    ∃ c, read "oklch(0.5 0.1 -1e-20)" = .ok (.ok c) ∧
      ¬ ∃ c', read (c.text .kept) = .ok (.ok c') ∧ c'.text .kept = c.text .kept := by
  have hl : IsFiniteNumber "43.2684".toList 43.2684 := ⟨by decide +kernel, by decide +kernel⟩
  have hm : IsFiniteNumber "0.121145".toList 0.121145 := ⟨by decide +kernel, by decide +kernel⟩
  have hh : IsFiniteNumber "0.25".toList 0.25 := ⟨by decide +kernel, by decide +kernel⟩
  have ha : IsFiniteNumber "0.3".toList 0.3 := ⟨by decide +kernel, by decide +kernel⟩
  have hl' : IsFiniteNumber "0.5".toList 0.5 := ⟨by decide +kernel, by decide +kernel⟩
  have hm' : IsFiniteNumber "0.1".toList 0.1 := ⟨by decide +kernel, by decide +kernel⟩
  have hh' : IsFiniteNumber "359.999".toList 359.999 := ⟨by decide +kernel, by decide +kernel⟩
  have hh'' : IsFiniteNumber "-1e-20".toList (-1e-20) := ⟨by decide +kernel, by decide +kernel⟩
  have halpha : IsOpacity "/ 0.3".toList (clamp 0.3 0.0 1.0) := .given (.number ha)
  have hbrackets : Brackets "oklch(43.2684% 0.121145 0.25turn / 0.3)"
    "43.2684% 0.121145 0.25turn / 0.3".toList := rfl
  have hbrackets' : Brackets "oklch(0.5 0.1 359.999)" "0.5 0.1 359.999".toList := rfl
  have hbrackets'' : Brackets "oklch(0.5 0.1 -1e-20)" "0.5 0.1 -1e-20".toList := rfl
  have hbody : IsBody "43.2684% 0.121145 0.25turn / 0.3".toList
      ⟨43.2684 / 100.0 * 1.0, 0.121145, 0.25 * 360.0, clamp 0.3 0.0 1.0⟩ :=
    .intro rfl (.percent hl) (.number hm) (.turns hh) halpha
  have hbody' : ∀ {t : List Char} {x : Float}, IsFiniteNumber t x → ∀ body : List Char,
      Text.words (body.takeWhile (· != '/')) = ["0.5".toList, "0.1".toList, t] →
      body.dropWhile (· != '/') = [] → IsBody body ⟨0.5, 0.1, x, 1.0⟩ :=
    fun hangle body hwords halpha =>
      .intro hwords (.number hl') (.number hm') (.number hangle) (halpha ▸ .full)
  have hread := hbrackets.read_eq_ok_iff.2 hbody
  have hread' := hbrackets'.read_eq_ok_iff.2 (hbody' hh' _ rfl rfl)
  have hread'' := hbrackets''.read_eq_ok_iff.2 (hbody' hh'' _ rfl rfl)
  have hback := text_writesBack .kept hbrackets hread
  have hback' := text_writesBack .kept hbrackets' hread'
  have hback'' := text_writesBack .kept hbrackets'' hread''
  refine ⟨⟨_, hread, hback.stable.2 ⟨?_, ?_⟩⟩,
    ⟨_, hread', ⟨_, hback'.accepted ?_⟩, fun hsame => ?_⟩, _, hread'', fun hsame => ?_⟩
  · exact ⟨by decide +kernel, by decide +kernel⟩
  · exact ⟨by decide +kernel, by decide +kernel, by decide +kernel, by decide +kernel⟩
  · exact ⟨by decide +kernel, by decide +kernel⟩
  · exact absurd (hback'.stable.1 hsame).2.hue_high (by decide +kernel)
  · exact absurd (hback''.stable.1 hsame).2.hue_high (by decide +kernel)

end ColorGraph.Color
