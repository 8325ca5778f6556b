import ColorGraph.Proofs.HexReading
import ColorGraph.Proofs.NumberPreviews
/-!
Previews that return. Main statement: the previews of a graph are computed and shown, labels and
swatches included, exactly when no color that a source holds breaks; colors that cannot be read for
another reason stay as they are.
-/

set_option autoImplicit false

namespace ColorGraph

namespace Preview

def Whole : Preview → Prop
  | number _ => True
  | color t => ¬ Color.Breaks t

/-- What there is to be shown of a value: of a color its label and swatch, and of a text that is
read as no color the text itself and the fallback. -/
def Shown : Preview → Prop
  | number x => label (number x) = .ok (Decimal.plain.text x)
  | color t =>
    (∃ c, Color.read t = .ok (.ok c) ∧ label (color t) = .ok c.label ∧
      Color.hexOf t = .ok c.hexText) ∨
    ∃ e, Color.read t = .ok (.error e) ∧ label (color t) = .ok t ∧
      Color.hexOf t = .ok Color.fallbackHex

theorem shown_iff_whole {p : Preview} : p.Shown ↔ p.Whole := by
  cases p with
  | number x => exact iff_of_true rfl trivial
  | color t =>
    constructor
    · intro hshown hbreaks
      have hread := (Color.read_eq_error_iff t).2 hbreaks
      obtain ⟨c, hc, -⟩ | ⟨e, he, -⟩ := hshown
      · rw [hread] at hc; cases hc
      · rw [hread] at he; cases he
    · intro hwhole
      obtain ⟨outcome, hread⟩ := Color.exists_read hwhole
      cases outcome with
      | ok c => exact .inl ⟨c, hread, by rw [label, hread]; rfl, by rw [Color.hexOf, hread]; rfl⟩
      | error e => exact .inr ⟨e, hread, by rw [label, hread]; rfl, by rw [Color.hexOf, hread]; rfl⟩

variable {change : Color → Color} {op : Operation} {t : String} {e : Color.ParseError}
  {a b v : Option Preview} {inputs : List (Option Preview)}

theorem recolor_unreadable (h : Color.read t = .ok (.error e)) :
    recolor change t = .ok (color t) := by
  rw [recolor, h]
  rfl

theorem recolor_returns (change : Color → Color) (h : ¬ Color.Breaks t) :
    ∃ p, recolor change t = .ok p ∧ p.Whole := by
  obtain ⟨outcome, hread⟩ := Color.exists_read h
  cases outcome with
  | ok c => exact ⟨color (change c).text, by rw [recolor, hread]; rfl, (change c).not_breaks_text⟩
  | error e => exact ⟨color t, recolor_unreadable hread, h⟩

theorem recolorOnly_returns (h : ∀ p ∈ v, p.Whole) :
    ∃ w, recolorOnly change v = .ok w ∧ ∀ p ∈ w, p.Whole := by
  match v with
  | none | some (number _) => exact ⟨none, rfl, by simp⟩
  | some (color t) =>
    obtain ⟨p, hp, hwhole⟩ := recolor_returns change (h (color t) rfl)
    exact ⟨some p, by rw [recolorOnly, hp]; rfl, by simpa using hwhole⟩

theorem recolorOnly_unreadable (h : Color.read t = .ok (.error e)) :
    recolorOnly change (some (color t)) = .ok (some (color t)) := by
  rw [recolorOnly, recolor_unreadable h]
  rfl

theorem blend_returns {s t : String} (hs : ¬ Color.Breaks s) (ht : ¬ Color.Breaks t) :
    ∃ p, blend s t = .ok p ∧ p.Whole := by
  obtain ⟨x, hx⟩ := Color.exists_read hs
  obtain ⟨y, hy⟩ := Color.exists_read ht
  rw [blend, hx, hy]
  cases x with
  | error e => exact ⟨color s, rfl, hs⟩
  | ok x =>
    cases y with
    | error e => exact ⟨color s, rfl, hs⟩
    | ok y => exact ⟨_, rfl, (x.mix y 0.5).not_breaks_text⟩

theorem operate_returns (ha : ∀ p ∈ a, p.Whole) (hb : ∀ p ∈ b, p.Whole) :
    ∃ w, operate op a b = .ok w ∧ ∀ p ∈ w, p.Whole := by
  unfold operate
  split
  · exact recolorOnly_returns ha
  · exact ⟨_, rfl, by simp [Whole]⟩
  split
  · split
    next s t =>
      obtain ⟨p, hp, hwhole⟩ := blend_returns (ha (color s) rfl) (hb (color t) rfl)
      exact ⟨some p, by rw [hp]; rfl, by simpa using hwhole⟩
    next a b _ =>
      refine ⟨_, rfl, fun p hp => ?_⟩
      obtain hp | ⟨-, hp⟩ := Option.or_eq_some_iff.1 hp
      · exact ha p hp
      · exact hb p hp
  · exact recolorOnly_returns ha
  · exact recolorOnly_returns ha

theorem whole_of_getElem? (h : ∀ v ∈ inputs, ∀ p ∈ v, p.Whole) (i : Nat) :
    ∀ p ∈ inputs[i]?.join, p.Whole := by
  intro p hp
  exact h (some p) (List.mem_of_getElem? (Option.join_eq_some_iff.1 hp)) p rfl

theorem apply_returns (h : ∀ v ∈ inputs, ∀ p ∈ v, p.Whole) :
    ∃ w, apply op inputs = .ok w ∧ ∀ p ∈ w, p.Whole :=
  operate_returns (whole_of_getElem? h 0) (whole_of_getElem? h 1)

/-- No operation on colors changes a first input that cannot be read. -/
theorem apply_unreadable (hop : op.isArithmetic = false) (h : Color.read t = .ok (.error e))
    (hinput : inputs[0]? = some (some (color t))) (hinputs : ∀ v ∈ inputs, ∀ p ∈ v, p.Whole) :
    apply op inputs = .ok (some (color t)) := by
  have hfirst : inputs[0]?.join = some (color t) := by rw [hinput]; rfl
  rw [apply, hfirst]
  cases op with
  | add | subtract | multiply | divide => cases hop
  | lighten | darken | saturate | desaturate | rotate | invert | complementary =>
    exact recolorOnly_unreadable h
  | mix =>
    cases hsecond : inputs[1]?.join with
    | none => rfl
    | some p =>
      cases p with
      | number x => rfl
      | color s =>
        have hs : ¬ Color.Breaks s := whole_of_getElem? hinputs 1 (color s) hsecond
        obtain ⟨outcome, hread⟩ := Color.exists_read hs
        have hblend : blend t s = .ok (color t) := by rw [blend, h, hread]; rfl
        simp only [operate, Operation.defaultAmount, Operation.defaultOperands, hblend]
        rfl

theorem applyAll_returns {α : Type} {f : α → Except SplitCharacter (Option Preview)} {as : List α}
    (h : ∀ a ∈ as, ∃ w, f a = .ok w ∧ ∀ p ∈ w, p.Whole) :
    ∃ w, applyAll op (as.map f) = .ok w ∧ ∀ p ∈ w, p.Whole := by
  obtain ⟨ws, hws, hmap⟩ := mapM_map_of_ok fun a ha => (h a ha).imp fun _ hw => hw.1
  have hwhole : ∀ w ∈ ws, ∀ p ∈ w, p.Whole := by
    intro w hw
    obtain ⟨i, hi⟩ := List.getElem?_of_mem hw
    have ha := hmap i
    rw [hi, Option.map_some] at ha
    obtain ⟨a, hai, hfa⟩ := Option.map_eq_some_iff.1 ha
    obtain ⟨w', hw', hwhole⟩ := h a (List.mem_of_getElem? hai)
    rw [hfa] at hw'
    cases hw'
    exact hwhole
  rw [applyAll, hws]
  exact apply_returns hwhole

end Preview

namespace Graph

variable {g : Graph}

def ColorsWhole (g : Graph) : Prop :=
  ∀ n name color, g.lastNode? n.id = some n → n.kind = .inputColor name color →
    ¬ Color.Breaks color

def PreviewsReturn (g : Graph) : Prop :=
  ∀ order id, ∃ v, g.preview order id = .ok v ∧ ∀ p ∈ v, p.Shown

theorem ColorsWhole.ofSource_returns (h : g.ColorsWhole) {n : Node}
    (hn : g.lastNode? n.id = some n) :
    ∃ v, Preview.ofSource n = .ok v ∧ ∀ p ∈ v, p.Whole := by
  unfold Preview.ofSource
  cases hk : n.kind with
  | inputColor name c =>
    refine ⟨_, rfl, fun p hp => ?_⟩
    cases hp
    split
    · exact Color.not_breaks_of_cons rfl rfl (by decide)
    · exact h n name c hn hk
  | inputNumber name x => exact ⟨_, rfl, by simp [Preview.Whole]⟩
  | _ => exact ⟨none, rfl, by simp⟩

theorem ColorsWhole.ofTree_returns (h : g.ColorsWhole) (order : SlotOrder) (path : List NodeId)
    (id : NodeId) :
    ∃ v, Preview.ofTree (g.unfold Node.source? order path id) = .ok v ∧ ∀ p ∈ v, p.Whole := by
  have hmissing : ∀ cause, ∃ v, Preview.ofTree (.missing cause) = .ok v ∧ ∀ p ∈ v, p.Whole :=
    fun cause => ⟨none, by rw [Preview.ofTree, Tree.fold]; rfl, by simp⟩
  induction path, id using g.unfold_induction Node.source? with
  | absent path id hn =>
    rw [unfold_absent hn]
    exact hmissing none
  | leaf path n a hn ha =>
    obtain ⟨-, ⟨⟩⟩ := Option.ite_none_right_eq_some.1 ha
    rw [unfold_leaf hn ha, Preview.ofTree, Tree.fold]
    exact h.ofSource_returns hn
  | cyclic path n hn ha hp =>
    rw [unfold_cyclic hn ha hp]
    exact hmissing _
  | operation path n op hn ha hp ho ih =>
    rw [unfold_operation hn ha hp ho, Preview.ofTree, Tree.fold, List.map_map]
    refine Preview.applyAll_returns fun e _ => ?_
    rw [Function.comp_apply, unfoldEdge]
    split
    · exact ih e
    · exact hmissing _
  | output path n hn ha hp ho ih =>
    rw [unfold_output hn ha hp ho]
    cases g.producerEdge? n.id with
    | none => exact hmissing none
    | some e =>
      rw [Option.map_some, Option.getD_some, unfoldEdge]
      split
      · exact ih e
      · exact hmissing _

theorem preview_color {order : SlotOrder} {n : Node} {name color : String}
    (hn : g.lastNode? n.id = some n) (hk : n.kind = .inputColor name color) :
    g.preview order n.id = .ok (some (.color (if color = "" then defaultColor else color))) := by
  have hs : n.source? = some n := by simp [Node.source?, hk, Node.Kind.isSource]
  rw [preview_eq, unfold_leaf hn hs, Preview.ofTree, Tree.fold, Preview.ofSource, hk]
  rfl

/-- The previews of a graph return unless a source holds a color that breaks. What cannot be read
for another reason is passed on by the operations on colors. -/
theorem previews_return_iff (g : Graph) :
    (g.PreviewsReturn ↔ g.ColorsWhole) ∧
      ∀ (op : Operation) (t : String) (e : Color.ParseError) (inputs : List (Option Preview)),
        op.isArithmetic = false → Color.read t = .ok (.error e) →
        inputs[0]? = some (some (.color t)) → (∀ v ∈ inputs, ∀ p ∈ v, p.Whole) →
        Preview.apply op inputs = .ok (some (.color t)) := by
  refine ⟨⟨fun hreturn n name color hn hk hbreaks => ?_, fun hwhole order id => ?_⟩, ?_⟩
  · obtain ⟨v, hv, hshown⟩ := hreturn .lexicographic n.id
    rw [preview_color hn hk] at hv
    cases hv
    have hshown := Preview.shown_iff_whole.1 (hshown _ rfl)
    split at hshown
    next hempty => exact Color.not_breaks_empty (hempty ▸ hbreaks)
    · exact hshown hbreaks
  · obtain ⟨v, hv, hall⟩ := hwhole.ofTree_returns order [] id
    exact ⟨v, (preview_eq id).trans hv, fun p hp => Preview.shown_iff_whole.2 (hall p hp)⟩
  · exact fun op t e inputs hop hread hinput hinputs =>
      Preview.apply_unreadable hop hread hinput hinputs

def accented : Graph where
  nodes := [{ id := "c", kind := .inputColor "base" "#éé" },
    { id := "l", kind := .operation .lighten }]
  edges := [connection "c" "l" none]

def parted : Graph where
  nodes := [{ id := "c", kind := .inputColor "base" "#é1" }]

theorem previews_return_iff_accented :
    accented.PreviewsReturn ∧ ¬ parted.PreviewsReturn ∧
      Color.read "#éé" = .ok (.error (.hex "#éé")) ∧
      Preview.apply .lighten [some (.color "#éé")] = .ok (some (.color "#éé")) := by
  have hread : Color.read "#éé" = .ok (.error (.hex "#éé")) := rfl
  have hwhole : ¬ Color.Breaks "#éé" := fun h => by
    cases hread.symm.trans ((Color.read_eq_error_iff _).2 h)
  have hbreaks : Color.Breaks "#é1" := (Color.read_eq_error_iff _).1 rfl
  have haccented : accented.ColorsWhole := by
    intro n name color hn hk
    have hmem := (mem_of_lastNode? hn).1
    simp only [accented, List.mem_cons, List.not_mem_nil, or_false] at hmem
    obtain rfl | rfl := hmem
    · cases hk
      exact hwhole
    · cases hk
  have hparted : ¬ parted.ColorsWhole := fun h =>
    h { id := "c", kind := .inputColor "base" "#é1" } "base" "#é1" rfl rfl hbreaks
  have hinputs : ∀ v ∈ [some (Preview.color "#éé")], ∀ p ∈ v, p.Whole := by
    simpa [Preview.Whole] using hwhole
  exact ⟨(previews_return_iff accented).1.2 haccented,
    fun h => hparted ((previews_return_iff parted).1.1 h), hread,
    (previews_return_iff accented).2 .lighten _ _ _ rfl hread rfl hinputs⟩

end Graph
end ColorGraph
