import ColorGraph.Json.Escape
/-!
Strings in JSON text. Main statement: a string that was written is read back, whatever follows it.
-/

set_option autoImplicit false

namespace ColorGraph.Json.Escape

open Text (hexValue?)

theorem hexValue?_figure {n : Nat} (h : n < 16) : hexValue? n.digitChar = some n :=
  Text.hexValue?_digitChar n h

theorem unit?_hexByte {n : Nat} (h : n < 0x20) :
    unit? '0' '0' (n / 16).digitChar (n % 16).digitChar = some n := by
  have hzero : hexValue? '0' = some 0 := by decide
  simp only [unit?, hzero, hexValue?_figure (show n / 16 < 16 by omega),
    hexValue?_figure (show n % 16 < 16 by omega), Option.pure_def, Option.bind_eq_bind,
    Option.bind_some]
  congr 1
  omega

theorem assemble_char (c : Char) (stop : Option Stop) (ps : List Piece) :
    assemble stop (.char c :: ps) = (assemble stop ps).map (c :: ·) := by
  rw [assemble]
  cases assemble stop ps <;> rfl

theorem assemble_unit {n : Nat} (h : n < 0x20) (stop : Option Stop) (ps : List Piece) :
    assemble stop (.unit n :: ps) = (assemble stop ps).map (Char.ofNat n :: ·) := by
  have hfirst : isFirstHalf n = false := by
    simp [isFirstHalf]
    omega
  have hsecond : isSecondHalf n = false := by
    simp [isSecondHalf]
    omega
  rw [assemble.eq_def]
  simp only [hfirst, hsecond, Bool.false_eq_true, if_false]
  cases assemble stop ps <;> rfl

theorem pieces_letter {e d : Char} (h : letter? e = some d) (tail : List Char) :
    pieces ('\\' :: e :: tail) = (.char d :: (pieces tail).1, (pieces tail).2) := by
  have hu : e ≠ 'u' := by
    rintro rfl
    simp [letter?] at h
  rw [pieces.eq_def]
  simp [hu, h]

theorem pieces_plain {c : Char} (hquote : c ≠ '"') (hslash : c ≠ '\\') (hcontrol : ¬ c.toNat < 0x20)
    (tail : List Char) : pieces (c :: tail) = (.char c :: (pieces tail).1, (pieces tail).2) := by
  rw [pieces.eq_def]
  simp [hquote, hslash, hcontrol]

theorem exists_piece (c : Char) : ∃ p : Piece,
    (∀ tail, pieces (encodeChar c ++ tail) = (p :: (pieces tail).1, (pieces tail).2)) ∧
      ∀ stop ps, assemble stop (p :: ps) = (assemble stop ps).map (c :: ·) := by
  have letter {e d : Char} (h : letter? e = some d) : ∃ p : Piece,
      (∀ tail, pieces (['\\', e] ++ tail) = (p :: (pieces tail).1, (pieces tail).2)) ∧
        ∀ stop ps, assemble stop (p :: ps) = (assemble stop ps).map (d :: ·) :=
    ⟨.char d, pieces_letter h, assemble_char d⟩
  unfold encodeChar
  split
  next h => exact h ▸ letter (e := '"') rfl
  split
  next h => exact h ▸ letter (e := '\\') rfl
  split
  next h => exact h ▸ letter rfl
  split
  next h => exact h ▸ letter rfl
  split
  next h => exact h ▸ letter rfl
  split
  next h => exact h ▸ letter rfl
  split
  next h => exact h ▸ letter rfl
  split
  next hcontrol =>
    refine ⟨.unit c.toNat, fun tail => ?_, fun stop ps => ?_⟩
    · rw [pieces.eq_def]
      simp [Text.hexByte, unit?_hexByte hcontrol]
    · rw [assemble_unit hcontrol, Char.ofNat_toNat]
  next hquote hslash _ _ _ _ _ hcontrol =>
    exact ⟨.char c, pieces_plain hquote hslash hcontrol, assemble_char c⟩

theorem exists_pieces (cs rest : List Char) :
    ∃ ps, pieces (encode cs ++ '"' :: rest) = (ps, .ok rest) ∧ assemble none ps = .ok cs := by
  induction cs with
  | nil =>
    refine ⟨[], ?_, rfl⟩
    rw [encode, List.flatMap_nil, List.nil_append, pieces.eq_def]
    rfl
  | cons c cs ih =>
    obtain ⟨ps, hps, htext⟩ := ih
    obtain ⟨p, hp, hchar⟩ := exists_piece c
    refine ⟨p :: ps, ?_, by rw [hchar, htext]; rfl⟩
    rw [encode, List.flatMap_cons, List.append_assoc, hp]
    change (p :: (pieces (encode cs ++ '"' :: rest)).1, (pieces (encode cs ++ '"' :: rest)).2) = _
    rw [hps]

/-- A string that was written is read back, whatever follows its closing quote. -/
theorem decode_encode (s : String) (rest : List Char) :
    decode (encode s.toList ++ '"' :: rest) = .ok (.ok s, rest) := by
  obtain ⟨ps, hps, htext⟩ := exists_pieces s.toList rest
  rw [decode, hps]
  dsimp only
  rw [htext]
  change Except.ok (Except.ok (String.ofList s.toList), rest) = _
  rw [String.ofList_toList]

end ColorGraph.Json.Escape
