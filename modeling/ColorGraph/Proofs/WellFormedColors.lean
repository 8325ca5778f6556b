import ColorGraph.Proofs.ColorGrammar
import ColorGraph.Proofs.HueRange
/-!
The channels of colors that were read, and of colors that were changed. Main statement: what is read
is well formed unless its angle is too large, or just below zero where the ends of a turn are kept,
and changes by finite numbers keep colors well formed.
-/

set_option autoImplicit false

namespace ColorGraph

open Float.Model Float.Model.UnpackedFloat

attribute [local instance (2000)] instPowNat

theorem clamp_spec {x low high : Float} (hx : x.isFinite = true) (hlow : low.isFinite = true)
    (hhigh : high.isFinite = true) (hle : low ≤ high) :
    (clamp x low high).isFinite = true ∧ low ≤ clamp x low high ∧ clamp x low high ≤ high := by
  have hlowered : ∀ {y : Float}, y.isFinite = true → low ≤ y →
      (if high < y then high else y).isFinite = true ∧ low ≤ (if high < y then high else y) ∧
        (if high < y then high else y) ≤ high := by
    intro y hy hmore
    split
    next => exact ⟨hhigh, hle, (le_iff hhigh hhigh).2 le_rfl⟩
    next hnot =>
      rw [lt_iff hhigh hy, not_lt] at hnot
      exact ⟨hy, hmore, (le_iff hy hhigh).2 hnot⟩
  unfold clamp
  dsimp only
  split
  next => exact hlowered hlow ((le_iff hlow hlow).2 le_rfl)
  next hnot =>
    rw [lt_iff hx hlow, not_lt] at hnot
    exact hlowered hx ((le_iff hlow hx).2 hnot)

namespace Color

structure HasChannels (c : Color) : Prop where
  lightness : c.lightness.isFinite = true
  chroma : c.chroma.isFinite = true
  alpha_low : 0.0 ≤ c.alpha
  alpha_high : c.alpha ≤ 1.0

structure WellFormed (ends : TurnEnds) (c : Color) : Prop extends HasChannels c where
  angle : c.angle.isFinite = true
  hue_low : 0.0 ≤ c.hue ends
  hue_high : c.hue ends < 360.0

inductive TooLarge : List Char → Prop
  | radians {n : List Char} {x : Float} (h : IsFiniteNumber n x)
      (hlarge : overflow ≤ exactSize x * exactSize (180.0 / pi)) : TooLarge (n ++ "rad".toList)
  | turns {n : List Char} {x : Float} (h : IsFiniteNumber n x)
      (hlarge : overflow ≤ exactSize x * exactSize 360.0) : TooLarge (n ++ "turn".toList)

inductive Change where
  | lightness (x : Float)
  | chroma (x : Float)
  | hue (x : Float)

namespace Change

def amount : Change → Float
  | lightness x => x
  | chroma x => x
  | hue x => x

def apply (ends : TurnEnds) (c : Color) : Change → Color
  | lightness x => c.withLightness x ends
  | chroma x => c.withChroma x ends
  | hue x => c.withHue x

def IsWithin (ends : TurnEnds) (c : Color) : Change → Prop
  | lightness _ => 0.0 ≤ c.lightness ∧ c.lightness ≤ 1.0
  | chroma _ => 0.0 ≤ c.chroma ∧ c.chroma ≤ maxChroma
  | hue _ => 0.0 ≤ c.hue ends ∧ c.hue ends < 360.0

end Change

variable {ends : TurnEnds} {x : Float} {c : Color} {t : List Char}

theorem one_spec : (1.0 : Float).isFinite = true ∧ (0.0 : Float) ≤ 1.0 ∧ exactSize 1.0 ≤ 1 := by
  decide +kernel

theorem maxChroma_spec :
    maxChroma.isFinite = true ∧ 0.0 ≤ maxChroma ∧ exactSize maxChroma ≤ 1 := by
  decide +kernel

theorem isFinite_of_hue (hlow : 0.0 ≤ x) (hhigh : x < 360.0) : x.isFinite = true := by
  by_contra hx
  rcases eq_of_not_finite hx with rfl | rfl | rfl
  · exact absurd hhigh (by decide +kernel)
  · exact absurd hlow (by decide +kernel)
  · exact absurd hlow (by decide +kernel)

theorem HasChannels.wellFormed_iff (h : c.HasChannels) (hangle : c.angle.isFinite = true)
    (hlt : exactSize c.angle < 360 * 2 ^ 48) (ends : TurnEnds) :
    c.WellFormed ends ↔ (ends = .kept → ¬ IsSliver c.angle) := by
  rw [← wrapAngle_range_iff hangle hlt ends]
  exact ⟨fun hwell => ⟨hwell.hue_low, hwell.hue_high⟩, fun hhue =>
    { h with angle := hangle, hue_low := hhue.1, hue_high := hhue.2 }⟩

theorem HasChannels.wellFormed_of_turn (h : c.HasChannels) (hangle : c.angle.isFinite = true)
    (hlow : 0 ≤ exactValue c.angle) (hhigh : exactValue c.angle ≤ 360) : c.WellFormed ends := by
  refine (h.wellFormed_iff hangle ?_ ends).2 fun _ hsliver =>
    absurd hsliver.high (not_lt_of_ge hlow)
  rw [← abs_exactValue, abs_of_nonneg hlow]
  linarith

/-- Changes of other channels set the angle to the hue, and a hue stays as it is. -/
theorem HasChannels.wellFormed_of_hue (h : c.HasChannels) (hlow : 0.0 ≤ c.angle)
    (hhigh : c.angle < 360.0) : c.WellFormed ends := by
  have hangle := isFinite_of_hue hlow hhigh
  rw [le_iff zero_spec.1 hangle, zero_spec.2] at hlow
  rw [lt_iff hangle turn_spec.1, turn_spec.2] at hhigh
  exact h.wellFormed_of_turn hangle hlow hhigh.le

theorem HasChannels.withHue (h : c.HasChannels) (hx : x.isFinite = true) :
    (c.withHue x).WellFormed ends := by
  obtain ⟨hfinite, hlow, hhigh⟩ := wrapped_spec hx
  have hchannels : (c.withHue x).HasChannels :=
    ⟨h.lightness, h.chroma, h.alpha_low, h.alpha_high⟩
  exact hchannels.wellFormed_of_turn hfinite hlow hhigh

namespace Change

variable {ch : Change}

theorem isWithin_apply (c : Color) (hx : ch.amount.isFinite = true) :
    ch.IsWithin ends (ch.apply ends c) := by
  cases ch with
  | lightness x => exact (clamp_spec hx zero_spec.1 one_spec.1 one_spec.2.1).2
  | chroma x => exact (clamp_spec hx zero_spec.1 maxChroma_spec.1 maxChroma_spec.2.1).2
  | hue x =>
    obtain ⟨hfinite, hlow, hhigh⟩ := wrapped_spec hx
    refine (wrapAngle_range_iff hfinite ?_ ends).2 fun _ hsliver =>
      absurd hsliver.high (not_lt_of_ge hlow)
    rw [← abs_exactValue, abs_of_nonneg hlow]
    linarith

/-- One change keeps a color well formed. -/
theorem wellFormed_apply (h : c.WellFormed ends) (hx : ch.amount.isFinite = true) :
    (ch.apply ends c).WellFormed ends := by
  cases ch with
  | lightness x =>
    have hclamp := clamp_spec hx zero_spec.1 one_spec.1 one_spec.2.1
    have hchannels : (c.withLightness x ends).HasChannels :=
      ⟨hclamp.1, h.chroma, h.alpha_low, h.alpha_high⟩
    exact hchannels.wellFormed_of_hue h.hue_low h.hue_high
  | chroma x =>
    have hclamp := clamp_spec hx zero_spec.1 maxChroma_spec.1 maxChroma_spec.2.1
    have hchannels : (c.withChroma x ends).HasChannels :=
      ⟨h.lightness, hclamp.1, h.alpha_low, h.alpha_high⟩
    exact hchannels.wellFormed_of_hue h.hue_low h.hue_high
  | hue x => exact h.toHasChannels.withHue hx

theorem wellFormed_foldl (h : c.WellFormed ends) {changes : List Change}
    (hfinite : ∀ ch ∈ changes, ch.amount.isFinite = true) :
    (changes.foldl (apply ends) c).WellFormed ends := by
  induction changes generalizing c with
  | nil => exact h
  | cons ch changes ih =>
    rw [List.forall_mem_cons] at hfinite
    exact ih (wellFormed_apply h hfinite.1) hfinite.2

end Change

/-! Colors that were read. -/

theorem IsChannel.isFinite {all : Float} (hall : all.isFinite = true) (hone : exactSize all ≤ 1)
    (h : IsChannel all t x) : x.isFinite = true := by
  cases h with
  | none => exact zero_spec.1
  | number h => exact h.2
  | percent h =>
    have hhundred : (100.0 : Float).isFinite = true ∧ 1 ≤ exactSize 100.0 := by decide +kernel
    exact isFinite_mul_of_le_one (isFinite_div h.2 hhundred.1 hhundred.2) hall hone

theorem IsOpacity.range (h : IsOpacity t x) : 0.0 ≤ x ∧ x ≤ 1.0 := by
  cases h with
  | full => decide +kernel
  | given h =>
    have hfinite := h.isFinite one_spec.1 one_spec.2.2
    exact (clamp_spec hfinite zero_spec.1 one_spec.1 one_spec.2.1).2

theorem IsAngle.unique {y : Float} (h : IsAngle t x) (h' : IsAngle t y) : x = y :=
  Except.ok.inj ((readAngle_eq_ok_iff.2 h).symm.trans (readAngle_eq_ok_iff.2 h'))

theorem IsAngle.isFinite_iff (h : IsAngle t x) : x.isFinite = true ↔ ¬ TooLarge t := by
  have hradian : (180.0 / pi).isFinite = true := by decide +kernel
  have hturn := turn_spec.1
  constructor
  · rintro hfinite (⟨hn, hlarge⟩ | ⟨hn, hlarge⟩)
    · rw [h.unique (.radians hn)] at hfinite
      exact not_lt_of_ge hlarge ((finiteBelow_mul hn.2 hradian).finite_iff.1 hfinite)
    · rw [h.unique (.turns hn)] at hfinite
      exact not_lt_of_ge hlarge ((finiteBelow_mul hn.2 hturn).finite_iff.1 hfinite)
  · intro hsmall
    cases h with
    | none => exact zero_spec.1
    | number hn => exact hn.2
    | degrees hn => exact hn.2
    | gradians hn =>
      have hgradian : (0.9 : Float).isFinite = true ∧ exactSize 0.9 ≤ 1 := by decide +kernel
      exact isFinite_mul_of_le_one hn.2 hgradian.1 hgradian.2
    | radians hn =>
      refine (finiteBelow_mul hn.2 hradian).finite_iff.2 (not_le.1 fun hlarge => ?_)
      exact hsmall (.radians hn hlarge)
    | turns hn =>
      refine (finiteBelow_mul hn.2 hturn).finite_iff.2 (not_le.1 fun hlarge => ?_)
      exact hsmall (.turns hn hlarge)

theorem IsBody.hasChannels {body : List Char} (h : IsBody body c) : c.HasChannels := by
  rcases h with ⟨-, hlightness, hchroma, -, halpha⟩
  have hrange := halpha.range
  exact ⟨hlightness.isFinite one_spec.1 one_spec.2.2,
    hchroma.isFinite maxChroma_spec.1 maxChroma_spec.2.2, hrange.1, hrange.2⟩

structure ReadsWell (ends : TurnEnds) (t : List Char) (c : Color) : Prop where
  channels : c.HasChannels
  angle : c.angle.isFinite = true ↔ ¬ TooLarge t
  wellFormed_iff : c.angle.isFinite = true → exactSize c.angle < 360 * 2 ^ 48 →
    (c.WellFormed ends ↔ (ends = .kept → ¬ IsSliver c.angle))
  sliver : IsSliver c.angle → exactValue (c.hue .kept) =
    if exactValue c.angle < -(180 * least) then 360 else exactValue c.angle
  undefined : ¬ c.angle.isFinite = true → (c.hue ends).isNaN = true
  restored (x : Float) : x.isFinite = true → (c.withHue x).WellFormed ends
  changed (changes : List Change) : c.WellFormed ends →
    (∀ ch ∈ changes, ch.amount.isFinite = true) →
      (changes.foldl (Change.apply ends) c).WellFormed ends
  within (changes : List Change) (ch : Change) : ch.amount.isFinite = true →
    ch.IsWithin ends (ch.apply ends (changes.foldl (Change.apply ends) c))

/-- Colors that are read in the notation are well formed, unless their angles are too large, or just
below zero where the ends of a turn are kept. -/
theorem read_wellFormed (ends : TurnEnds) {text : String} {body : List Char}
    (hbrackets : Brackets text body) (h : read text = .ok (.ok c)) :
    ∃ l m t, Text.words (body.takeWhile (· != '/')) = [l, m, t] ∧ ReadsWell ends t c := by
  rw [hbrackets.read_eq_ok_iff] at h
  have hchannels := h.hasChannels
  rcases h with ⟨hwords, -, -, hangle, -⟩
  refine ⟨_, _, _, hwords, ?_⟩
  exact {
    channels := hchannels
    angle := hangle.isFinite_iff
    wellFormed_iff := fun hfinite hlt => hchannels.wellFormed_iff hfinite hlt ends
    sliver := fun hsliver => rest_of_sliver hsliver.isFinite hsliver.exactSize_lt hsliver
    undefined := isNaN_wrapAngle ends
    restored := fun _ => hchannels.withHue
    changed := fun _ h => Change.wellFormed_foldl h
    within := fun _ _ => Change.isWithin_apply _ }

theorem read_wellFormed_turns :
    (∃ c, read "oklch(50% none 0.25turn)" = .ok (.ok c) ∧ c.WellFormed .kept) ∧
      (∃ c, read "oklch(50% none -1e-20)" = .ok (.ok c) ∧ exactValue (c.hue .kept) = 360 ∧
        c.WellFormed .zeroed) ∧
      ∃ c, read "oklch(50% none 1e308turn)" = .ok (.ok c) ∧ (c.hue .kept).isNaN = true := by
  have hlightness : IsChannel 1.0 "50%".toList (50.0 / 100.0 * 1.0) :=
    .percent (n := "50".toList) ⟨by decide +kernel, by decide +kernel⟩
  have hbody : ∀ {t : List Char} {x : Float}, IsAngle t x → ∀ body : List Char,
      Text.words (body.takeWhile (· != '/')) = ["50%".toList, "none".toList, t] →
      body.dropWhile (· != '/') = [] → IsBody body ⟨50.0 / 100.0 * 1.0, 0.0, x, 1.0⟩ :=
    fun hangle body hwords halpha => .intro hwords hlightness .none hangle (halpha ▸ .full)
  have hquarter : IsFiniteNumber "0.25".toList 0.25 := ⟨by decide +kernel, by decide +kernel⟩
  have hsmall : IsFiniteNumber "-1e-20".toList (-1e-20) := ⟨by decide +kernel, by decide +kernel⟩
  have hlarge : IsFiniteNumber "1e308".toList 1e308 := ⟨by decide +kernel, by decide +kernel⟩
  have hbrackets : Brackets "oklch(50% none 0.25turn)" "50% none 0.25turn".toList := rfl
  have hbrackets' : Brackets "oklch(50% none -1e-20)" "50% none -1e-20".toList := rfl
  have hbrackets'' : Brackets "oklch(50% none 1e308turn)" "50% none 1e308turn".toList := rfl
  have hread := hbrackets.read_eq_ok_iff.2 (hbody (.turns hquarter) _ rfl rfl)
  have hread' := hbrackets'.read_eq_ok_iff.2 (hbody (.number hsmall) _ rfl rfl)
  have hread'' := hbrackets''.read_eq_ok_iff.2 (hbody (.turns hlarge) _ rfl rfl)
  obtain ⟨_, _, _, _, hwell⟩ := read_wellFormed .kept hbrackets hread
  obtain ⟨_, _, _, _, hwell'⟩ := read_wellFormed .zeroed hbrackets' hread'
  obtain ⟨_, _, _, _, hwell''⟩ := read_wellFormed .kept hbrackets'' hread''
  refine ⟨⟨_, hread, ?_⟩, ⟨_, hread', ?_, ?_⟩, _, hread'', hwell''.undefined (by decide +kernel)⟩
  · refine (hwell.wellFormed_iff (by decide +kernel) (by decide +kernel)).2 fun _ hsliver => ?_
    exact absurd hsliver.high (by decide +kernel)
  · rw [hwell'.sliver ⟨by decide +kernel, by decide +kernel⟩]
    exact if_pos (by decide +kernel)
  · exact (hwell'.wellFormed_iff (by decide +kernel) (by decide +kernel)).2 fun h => by cases h

end Color
end ColorGraph
