import ColorGraph.Decimal.Bytes
import ColorGraph.Proofs.HexReading
import ColorGraph.Proofs.NumberGrammar
/-!
The number that a text starts with. Main statement: a text is read exactly when it starts with a
number, and then as the longest number that it starts with, which is also what is cut off by its
bytes.
-/

set_option autoImplicit false

namespace ColorGraph.Decimal

open Literal

structure IsLongestNumber (cs p : List Char) : Prop where
  number : IsNumber p
  start : p <+: cs
  longest : ∀ q, q <+: cs → IsNumber q → q.length ≤ p.length

variable {cs p q rest : List Char} {l : Literal}

theorem IsLongestNumber.unique (hp : IsLongestNumber cs p) (hq : IsLongestNumber cs q) : p = q := by
  have hlength : p.length = q.length :=
    Nat.le_antisymm (hq.longest p hp.start hp.number) (hp.longest q hq.start hq.number)
  exact (List.prefix_of_prefix_length_le hp.start hq.start hlength.le).eq_of_length hlength

theorem isLongestNumber_of_scan (h : scan cs = some (l, rest)) :
    ∃ p, cs = p ++ rest ∧ l.Spells p ∧ IsLongestNumber cs p := by
  have ⟨p, hp, hspells⟩ := spells_of_scan h
  refine ⟨p, hp, hspells, ⟨l, hspells⟩, ⟨rest, hp.symm⟩, ?_⟩
  rintro q hq ⟨l', hspells'⟩
  have ⟨l'', rest', hscan, hle⟩ := exists_scan_of_isPrefix hspells' hq
  rw [h] at hscan
  cases hscan
  rw [hp, List.length_append] at hle
  omega

namespace Bytes

open Text (bytes)

structure Stands (bs : List UInt8) (i : Nat) (cs : List Char) : Prop where
  le : i ≤ bs.length
  drop : bs.drop i = bytes cs

variable {bs : List UInt8} {i : Nat} {c d : Char}

theorem utf8EncodeChar_ascii (hc : c.toNat < 128) :
    String.utf8EncodeChar c = [UInt8.ofNat c.toNat] := by
  have hle : c.val.toNat ≤ 0x7f := Nat.le_of_lt_succ hc
  rw [String.utf8EncodeChar, if_pos hle]
  rfl

theorem utf8EncodeChar_of_le (hc : 128 ≤ c.toNat) :
    ∃ b rest, String.utf8EncodeChar c = b :: rest ∧ 128 ≤ b.toNat := by
  have hle : ¬ c.val.toNat ≤ 0x7f := Nat.not_le_of_gt hc
  unfold String.utf8EncodeChar
  dsimp only
  rw [if_neg hle]
  split
  · exact ⟨_, _, rfl, by simp; omega⟩
  split
  · exact ⟨_, _, rfl, by simp; omega⟩
  · exact ⟨_, _, rfl, by simp; omega⟩

theorem bytes_cons (c : Char) (cs : List Char) :
    bytes (c :: cs) = String.utf8EncodeChar c ++ bytes cs :=
  List.flatMap_cons

theorem bytes_cons_ascii (hc : c.toNat < 128) (cs : List Char) :
    bytes (c :: cs) = UInt8.ofNat c.toNat :: bytes cs := by
  rw [bytes_cons, utf8EncodeChar_ascii hc]
  rfl

theorem length_bytes (cs : List Char) : (bytes cs).length = Rgb.byteLength cs := by
  induction cs with
  | nil => rfl
  | cons c cs ih =>
    rw [bytes_cons, List.length_append, String.length_utf8EncodeChar, ih, Rgb.byteLength_cons]

theorem head?_bytes (hd : d.toNat < 128) :
    (bytes cs).head? = some (UInt8.ofNat d.toNat) ↔ cs.head? = some d := by
  cases cs with
  | nil => simp [bytes]
  | cons c cs =>
    by_cases hc : c.toNat < 128
    · rw [bytes_cons_ascii hc, List.head?_cons, List.head?_cons, Option.some_inj, Option.some_inj,
        ← Char.toNat_inj, ← UInt8.toNat_inj, UInt8.toNat_ofNat', UInt8.toNat_ofNat',
        Nat.mod_eq_of_lt (by omega), Nat.mod_eq_of_lt (by omega)]
    · have ⟨b, rest, hb, hle⟩ := utf8EncodeChar_of_le (Nat.le_of_not_lt hc)
      rw [bytes_cons, hb, List.cons_append, List.head?_cons, List.head?_cons, Option.some_inj,
        Option.some_inj]
      refine iff_of_false ?_ ?_
      · rintro rfl
        rw [UInt8.toNat_ofNat', Nat.mod_eq_of_lt (by omega)] at hle
        omega
      · rintro rfl
        exact hc hd

theorem isFigure_ascii (hc : c.toNat < 128) : isFigure (UInt8.ofNat c.toNat) = c.isDigit := by
  have hb : (UInt8.ofNat c.toNat).toNat = c.toNat := by
    rw [UInt8.toNat_ofNat', Nat.mod_eq_of_lt (by omega)]
  rw [Bool.eq_iff_iff, isFigure, Bool.and_eq_true, decide_eq_true_eq, decide_eq_true_eq,
    UInt8.le_iff_toNat_le, UInt8.le_iff_toNat_le, hb, Char.isDigit_iff_toNat]
  exact Iff.rfl

theorem isFigure_of_le {b : UInt8} (hb : 128 ≤ b.toNat) : isFigure b = false := by
  rw [Bool.eq_false_iff, isFigure, Ne, Bool.and_eq_true, decide_eq_true_eq, decide_eq_true_eq,
    UInt8.le_iff_toNat_le, UInt8.le_iff_toNat_le]
  rintro ⟨-, hle⟩
  exact absurd (hb.trans hle) (by decide)

theorem figures_bytes (cs : List Char) :
    ((bytes cs).takeWhile isFigure).length = (cs.takeWhile Char.isDigit).length ∧
      (bytes cs).drop (cs.takeWhile Char.isDigit).length = bytes (cs.dropWhile Char.isDigit) := by
  induction cs with
  | nil => exact ⟨rfl, rfl⟩
  | cons c cs ih =>
    by_cases hdigit : c.isDigit = true
    · have hc : c.toNat < 128 := by
        have hnine := (Char.isDigit_iff_toNat.1 hdigit).2
        exact Nat.lt_of_le_of_lt hnine (by decide)
      rw [bytes_cons_ascii hc, List.takeWhile_cons_of_pos (by rwa [isFigure_ascii hc]),
        List.takeWhile_cons_of_pos hdigit, List.dropWhile_cons_of_pos hdigit, List.length_cons,
        List.length_cons, List.drop_succ_cons, ih.1]
      exact ⟨rfl, ih.2⟩
    · rw [List.takeWhile_cons_of_neg hdigit, List.dropWhile_cons_of_neg hdigit]
      refine ⟨?_, rfl⟩
      by_cases hc : c.toNat < 128
      · rw [bytes_cons_ascii hc, List.takeWhile_cons_of_neg (by rwa [isFigure_ascii hc])]
        rfl
      · have ⟨b, rest, hb, hle⟩ := utf8EncodeChar_of_le (Nat.le_of_not_lt hc)
        rw [bytes_cons, hb, List.cons_append,
          List.takeWhile_cons_of_neg (by rw [isFigure_of_le hle]; exact Bool.false_ne_true)]
        rfl

namespace Stands

theorem getElem?_iff (h : Stands bs i cs) (hd : d.toNat < 128) :
    bs[i]? = some (UInt8.ofNat d.toNat) ↔ cs.head? = some d := by
  rw [← List.head?_drop, h.drop, head?_bytes hd]

theorem step (h : Stands bs i (d :: cs)) (hd : d.toNat < 128) : Stands bs (i + 1) cs := by
  have hdrop := h.drop
  rw [bytes_cons_ascii hd] at hdrop
  have hlength := congrArg List.length hdrop
  rw [List.length_drop, List.length_cons] at hlength
  refine ⟨by omega, ?_⟩
  rw [← List.drop_drop, hdrop, List.drop_succ_cons, List.drop_zero]

theorem afterFigures_eq (h : Stands bs i cs) :
    afterFigures bs i = i + (cs.takeWhile Char.isDigit).length := by
  rw [afterFigures, h.drop, (figures_bytes cs).1]

theorem dropWhile (h : Stands bs i cs) :
    Stands bs (afterFigures bs i) (cs.dropWhile Char.isDigit) := by
  have ⟨htake, hdrop⟩ := figures_bytes cs
  rw [h.afterFigures_eq]
  refine ⟨?_, by rw [← List.drop_drop, h.drop, hdrop]⟩
  have hlength := congrArg List.length h.drop
  have hle := (List.takeWhile_sublist (l := bytes cs) isFigure).length_le
  rw [List.length_drop] at hlength
  have hi := h.le
  omega

theorem sign_iff (h : Stands bs i cs) :
    (bs[i]? = some 0x2B ∨ bs[i]? = some 0x2D) ↔ cs.head? = some '+' ∨ cs.head? = some '-' :=
  or_congr (h.getElem?_iff (d := '+') (by decide)) (h.getElem?_iff (d := '-') (by decide))

theorem sign (h : Stands bs i cs) : Stands bs (afterSign bs i) (scanSign cs).2 := by
  by_cases hsign : cs.head? = some '+' ∨ cs.head? = some '-'
  · rw [afterSign, if_pos (h.sign_iff.2 hsign)]
    rcases hsign with hsign | hsign <;> rcases List.head?_eq_some_iff.1 hsign with ⟨rest, rfl⟩ <;>
      exact h.step (by decide)
  · have hnone := SpellsSign.none.scanSign_append fun c (hc : c ∈ cs.head?) =>
      ⟨fun hminus => hsign (.inr (hminus ▸ hc)), fun hplus => hsign (.inl (hplus ▸ hc))⟩
    rw [List.nil_append] at hnone
    rwa [afterSign, if_neg (mt h.sign_iff.1 hsign), hnone]

theorem mantissa (h : Stands bs i cs) :
    Stands bs (afterMantissa bs i).1
        (scanFraction (cs.takeWhile Char.isDigit) (cs.dropWhile Char.isDigit)).2 ∧
      (afterMantissa bs i).2 = (cs.takeWhile Char.isDigit).length +
        (scanFraction (cs.takeWhile Char.isDigit) (cs.dropWhile Char.isDigit)).1.length := by
  have hdrop := h.dropWhile
  have hlength := h.afterFigures_eq
  have hpoint := hdrop.getElem?_iff (d := '.') (by decide)
  have hbyte : UInt8.ofNat '.'.toNat = 0x2E := rfl
  generalize cs.takeWhile Char.isDigit = whole at *
  generalize cs.dropWhile Char.isDigit = tail at *
  generalize hj : afterFigures bs i = j at *
  rw [hbyte] at hpoint
  simp only [afterMantissa, hj]
  by_cases hhead : tail.head? = some '.'
  · rcases List.head?_eq_some_iff.1 hhead with ⟨rest, rfl⟩
    have hfraction := hdrop.step (by decide)
    have hcount := hfraction.afterFigures_eq
    rw [if_pos (hpoint.2 hhead)]
    by_cases hempty : (whole.isEmpty && (rest.takeWhile Char.isDigit).isEmpty) = true
    · have hnone : ¬ (i < j ∨ j + 1 < afterFigures bs (j + 1)) := by
        rw [Bool.and_eq_true, List.isEmpty_iff, List.isEmpty_iff] at hempty
        rw [hempty.1] at hlength
        rw [hempty.2] at hcount
        simp only [List.length_nil] at hlength hcount
        omega
      rw [if_neg hnone, scanFraction, if_pos hempty]
      exact ⟨hdrop, by simp only [List.length_nil]; omega⟩
    · have hsome : i < j ∨ j + 1 < afterFigures bs (j + 1) := by
        rw [Bool.and_eq_true, List.isEmpty_iff, List.isEmpty_iff, not_and_or] at hempty
        rcases hempty with hempty | hempty <;> have hpos := List.length_pos_iff.2 hempty <;> omega
      rw [if_pos hsome, scanFraction_point (Bool.eq_false_iff.2 hempty)]
      exact ⟨hfraction.dropWhile, by dsimp only; omega⟩
  · have hnone : scanFraction whole tail = ([], tail) := by
      unfold scanFraction
      split
      · exact absurd rfl hhead
      · rfl
    rw [if_neg (mt hpoint.1 hhead), hnone]
    exact ⟨hdrop, by simp only [List.length_nil]; omega⟩

theorem exponent (h : Stands bs i cs) : Stands bs (afterExponent bs i) (scanExponent cs).2 := by
  have hsmall := h.getElem?_iff (d := 'e') (by decide)
  have hlarge := h.getElem?_iff (d := 'E') (by decide)
  have hmark : (bs[i]? = some 0x65 ∨ bs[i]? = some 0x45) ↔
      cs.head? = some 'e' ∨ cs.head? = some 'E' := or_congr hsmall hlarge
  rw [afterExponent]
  cases cs with
  | nil =>
    rw [if_neg (mt hmark.1 (by simp))]
    exact h
  | cons c cs =>
    simp only [List.head?_cons, Option.some_inj] at hmark
    by_cases hc : c = 'e' ∨ c = 'E'
    · have hsign := (h.step (by rcases hc with rfl | rfl <;> decide)).sign
      have hcount := hsign.afterFigures_eq
      simp only [scanExponent, if_pos (hmark.2 hc)]
      by_cases hfigures : (scanSign cs).2.takeWhile Char.isDigit = []
      · rw [hfigures, List.length_nil] at hcount
        rw [if_neg (by omega), if_neg (by simp [hfigures])]
        exact h
      · have hpos := List.length_pos_iff.2 hfigures
        rw [if_pos (by omega), if_pos ⟨hc, hfigures⟩]
        exact hsign.dropWhile
    · simp only [scanExponent, if_neg (mt hmark.1 hc), if_neg (mt And.left hc)]
      exact h

end Stands

/-- The places agree with the scan of the characters. -/
theorem numberSize?_bytes (cs : List Char) :
    numberSize? (bytes cs) =
      (scan cs).map fun (_, rest) => Rgb.byteLength cs - Rgb.byteLength rest := by
  have hstart : Stands (bytes cs) 0 cs := ⟨Nat.zero_le _, rfl⟩
  have ⟨hmantissa, hcount⟩ := hstart.sign.mantissa
  have hend := hmantissa.exponent
  simp only [numberSize?, scan]
  rw [hcount]
  split
  next hnone =>
    rw [Nat.add_eq_zero_iff, List.length_eq_zero_iff, List.length_eq_zero_iff,
      ← List.isEmpty_iff, ← List.isEmpty_iff, ← Bool.and_eq_true] at hnone
    rw [if_pos hnone]
    rfl
  next hsome =>
    rw [Nat.add_eq_zero_iff, List.length_eq_zero_iff, List.length_eq_zero_iff,
      ← List.isEmpty_iff, ← List.isEmpty_iff, ← Bool.and_eq_true] at hsome
    have hlength := congrArg List.length hend.drop
    have hle := hend.le
    rw [List.length_drop, length_bytes, length_bytes] at hlength
    rw [length_bytes] at hle
    rw [if_neg hsome, Option.map_some, Option.some_inj]
    dsimp only
    omega

end Bytes

/-- The scan succeeds on the longest number, and nothing else. -/
theorem scan_isSome_iff : (scan cs).isSome = true ↔ ∃ p, p <+: cs ∧ IsNumber p := by
  constructor
  · intro h
    have ⟨⟨l, rest⟩, hscan⟩ := Option.isSome_iff_exists.1 h
    have ⟨p, hp, hspells⟩ := spells_of_scan hscan
    exact ⟨p, ⟨rest, hp.symm⟩, l, hspells⟩
  · rintro ⟨p, hp, l, hspells⟩
    have ⟨l', rest, hscan, _⟩ := exists_scan_of_isPrefix hspells hp
    rw [hscan]
    rfl

theorem scan_eq_some_iff : scan cs = some (l, rest) ↔
    ∃ p, cs = p ++ rest ∧ l.Spells p ∧ IsLongestNumber cs p := by
  refine ⟨isLongestNumber_of_scan, ?_⟩
  rintro ⟨p, hp, hspells, hlongest⟩
  have hsome : (scan cs).isSome = true := scan_isSome_iff.2 ⟨p, hlongest.start, hlongest.number⟩
  have ⟨⟨l', rest'⟩, hscan⟩ := Option.isSome_iff_exists.1 hsome
  have ⟨p', hp', hspells', hlongest'⟩ := isLongestNumber_of_scan hscan
  obtain rfl := hlongest.unique hlongest'
  have hsame : some (l', []) = some (l, []) := hspells'.scan_eq.symm.trans hspells.scan_eq
  obtain rfl := List.append_cancel_left (hp.symm.trans hp')
  cases hsame
  exact hscan

theorem leading?_eq_some_iff {text : String} {x : Float} : leading? text = some x ↔
    ∃ p, ∃ l : Literal,
      IsLongestNumber (Text.trimStart text.toList) p ∧ l.Spells p ∧ l.toFloat = x := by
  rw [leading?, Option.map_eq_some_iff]
  constructor
  · rintro ⟨⟨l, rest⟩, hscan, hx⟩
    have ⟨p, _, hspells, hlongest⟩ := scan_eq_some_iff.1 hscan
    exact ⟨p, l, hlongest, hspells, hx⟩
  · rintro ⟨p, l, hlongest, hspells, hx⟩
    have ⟨rest, hrest⟩ := hlongest.start
    exact ⟨(l, rest), scan_eq_some_iff.2 ⟨p, hrest.symm, hspells, hlongest⟩, hx⟩

/-- In the bytes of a text its longest number ends where the text can be cut. -/
theorem numberSize?_eq_some_iff {size : Nat} : Bytes.numberSize? (Text.bytes cs) = some size ↔
    ∃ p rest, IsLongestNumber cs p ∧ Rgb.byteLength p = size ∧ Rgb.cut size cs = .ok (p, rest) := by
  rw [Bytes.numberSize?_bytes, Option.map_eq_some_iff]
  constructor
  · rintro ⟨⟨l, rest⟩, hscan, hsize⟩
    have ⟨p, hp, _, hlongest⟩ := scan_eq_some_iff.1 hscan
    have hcut := Rgb.cut_append p rest
    dsimp only at hsize
    rw [hp, Rgb.byteLength_append, Nat.add_sub_cancel] at hsize
    rw [← hp, hsize] at hcut
    exact ⟨p, rest, hlongest, hsize, hcut⟩
  · rintro ⟨p, _, hlongest, rfl, _⟩
    have ⟨rest, hrest⟩ := hlongest.start
    have ⟨l, hspells⟩ := hlongest.number
    refine ⟨(l, rest), scan_eq_some_iff.2 ⟨p, hrest.symm, hspells, hlongest⟩, ?_⟩
    dsimp only
    rw [← hrest, Rgb.byteLength_append, Nat.add_sub_cancel]

theorem cutLeading?_eq (text : String) : cutLeading? text = .ok (leading? text) := by
  rw [cutLeading?]
  dsimp only
  cases hsize : Bytes.numberSize? (Text.bytes (Text.trimStart text.toList)) with
  | none =>
    rw [Bytes.numberSize?_bytes, Option.map_eq_none_iff] at hsize
    rw [leading?, hsize]
    rfl
  | some size =>
    have ⟨p, rest, hlongest, _, hcut⟩ := numberSize?_eq_some_iff.1 hsize
    have ⟨l, hspells⟩ := hlongest.number
    have hread : read? p = some l.toFloat := read?_eq_some_iff.2 ⟨l, hspells, rfl⟩
    dsimp only
    rw [hcut, leading?_eq_some_iff.2 ⟨p, l, hlongest, hspells, rfl⟩]
    exact congrArg Except.ok hread

/-- A text is read exactly when it starts with a number, as the longest that it starts with. In the
bytes of the text this number ends between two characters, and cut off there it is read whole. -/
theorem leading?_longest (text : String) :
    let cs := Text.trimStart text.toList
    ((leading? text).isSome = true ↔ ∃ p, p <+: cs ∧ IsNumber p) ∧
      (∀ x, leading? text = some x ↔
        ∃ p, ∃ l : Literal, IsLongestNumber cs p ∧ l.Spells p ∧ l.toFloat = x) ∧
      (∀ p x, read? p = some x ↔ ∃ l : Literal, l.Spells p ∧ l.toFloat = x) ∧
      (∀ size, Bytes.numberSize? (Text.bytes cs) = some size ↔ ∃ p rest,
        IsLongestNumber cs p ∧ Rgb.byteLength p = size ∧ Rgb.cut size cs = .ok (p, rest)) ∧
      cutLeading? text = .ok (leading? text) := by
  refine ⟨?_, fun x => leading?_eq_some_iff, fun p x => read?_eq_some_iff,
    fun size => numberSize?_eq_some_iff, cutLeading?_eq text⟩
  rw [leading?, Option.isSome_map]
  exact scan_isSome_iff

end ColorGraph.Decimal
