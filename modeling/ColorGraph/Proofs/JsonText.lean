import ColorGraph.Proofs.EscapedText
import ColorGraph.Proofs.Numerals
/-!
JSON text read and written. Main statements: a text that spells a value is read as that value,
whatever follows it, and an indented text spells the value that it was written for.
-/

set_option autoImplicit false

namespace ColorGraph.Json

mutual

def mapNumbers (f : Number → Number) : Json → Json
  | .null => .null
  | .bool b => .bool b
  | .number n => .number (f n)
  | .string s => .string s
  | .array items => .array (mapItems f items)
  | .object members => .object (mapMembers f members)

def mapItems (f : Number → Number) : List Json → List Json
  | [] => []
  | v :: vs => v.mapNumbers f :: mapItems f vs

def mapMembers (f : Number → Number) : Members → Members
  | [] => []
  | (k, v) :: ms => (k, v.mapNumbers f) :: mapMembers f ms

end

mutual

def numbers : Json → List Number
  | .number n => [n]
  | .array items => itemsNumbers items
  | .object members => membersNumbers members
  | _ => []

def itemsNumbers : List Json → List Number
  | [] => []
  | v :: vs => v.numbers ++ itemsNumbers vs

def membersNumbers : List (String × Json) → List Number
  | [] => []
  | (_, v) :: ms => v.numbers ++ membersNumbers ms

end

/-- What a stretch of text can stand for: a value, or what is left of a list or of an object. -/
inductive Part where
  | value (v : Json)
  | items (first : Bool) (vs : List Json)
  | members (first : Bool) (ms : List (String × Json))

/-- A text spells a part, with white space before a value, a key, a comma and a bracket. What
follows a comma is what could come first. -/
inductive Spells : Part → List Char → Prop
  | blank {v : Json} {c : Char} {cs : List Char} (hc : Reader.isBlank c)
    (h : Spells (.value v) cs) : Spells (.value v) (c :: cs)
  | null : Spells (.value .null) (chars .null)
  | bool (b : Bool) : Spells (.value (.bool b)) (chars (.bool b))
  | number {n m : Number} (h : n.ReadsAs m) : Spells (.value (.number m)) n.chars
  | string (s : String) : Spells (.value (.string s)) (stringChars s)
  | array {vs : List Json} {cs : List Char} (h : Spells (.items true vs) cs) :
    Spells (.value (.array vs)) ('[' :: cs)
  | object {ms : List (String × Json)} {cs : List Char} (h : Spells (.members true ms) cs) :
    Spells (.value (.object ms)) ('\x7b' :: cs)
  | itemsBlank {first : Bool} {vs : List Json} {c : Char} {cs : List Char}
    (hc : Reader.isBlank c) (h : Spells (.items first vs) cs) :
    Spells (.items first vs) (c :: cs)
  | itemsEnd {first : Bool} : Spells (.items first []) [']']
  | firstItem {v : Json} {vs : List Json} {cs more : List Char} (hv : Spells (.value v) cs)
    (hvs : Spells (.items false vs) more) : Spells (.items true (v :: vs)) (cs ++ more)
  | nextItem {v : Json} {vs : List Json} {cs : List Char} (h : Spells (.items true (v :: vs)) cs) :
    Spells (.items false (v :: vs)) (',' :: cs)
  | membersBlank {first : Bool} {ms : List (String × Json)} {c : Char} {cs : List Char}
    (hc : Reader.isBlank c) (h : Spells (.members first ms) cs) :
    Spells (.members first ms) (c :: cs)
  | membersEnd {first : Bool} : Spells (.members first []) ['\x7d']
  | firstMember {k : String} {v : Json} {ms : List (String × Json)} {cs more : List Char}
    (hv : Spells (.value v) cs) (hms : Spells (.members false ms) more) :
    Spells (.members true ((k, v) :: ms)) (stringChars k ++ ':' :: cs ++ more)
  | nextMember {k : String} {v : Json} {ms : List (String × Json)} {cs : List Char}
    (h : Spells (.members true ((k, v) :: ms)) cs) :
    Spells (.members false ((k, v) :: ms)) (',' :: cs)

def Part.IsReadFrom : Part → List Char → Prop
  | .value v, cs => ∀ fuel rest, 3 * cs.length + 1 ≤ fuel → EndsNumber rest →
      Reader.value fuel (cs ++ rest) = (v.toDraft, some rest)
  | .items first vs, cs => ∀ fuel rest, 3 * cs.length + 3 ≤ fuel →
      Reader.items fuel first (cs ++ rest) = (itemsDraft vs, some rest)
  | .members first ms, cs => ∀ fuel rest, 3 * cs.length + 3 ≤ fuel →
      Reader.members fuel first (cs ++ rest) = (membersDraft ms, some rest)

namespace Reader

variable {fuel : Nat} {c : Char} {cs rest : List Char} {first : Bool}

theorem skipBlank_cons (h : isBlank c = true) (cs : List Char) :
    skipBlank (c :: cs) = skipBlank cs :=
  List.dropWhile_cons_of_pos h

theorem value_blank (h : isBlank c = true) (fuel : Nat) (cs : List Char) :
    value fuel (c :: cs) = value fuel cs := by
  cases fuel with
  | zero => rfl
  | succ fuel => rw [value, value, skipBlank_cons h]

theorem items_blank (h : isBlank c = true) (fuel : Nat) (first : Bool) (cs : List Char) :
    items fuel first (c :: cs) = items fuel first cs := by
  cases fuel with
  | zero => rfl
  | succ fuel => rw [items, items, skipBlank_cons h]

theorem members_blank (h : isBlank c = true) (fuel : Nat) (first : Bool) (cs : List Char) :
    members fuel first (c :: cs) = members fuel first cs := by
  cases fuel with
  | zero => rfl
  | succ fuel => rw [members, members, skipBlank_cons h]

theorem value_skipBlank (fuel : Nat) (cs : List Char) :
    value fuel (skipBlank cs) = value fuel cs := by
  induction cs with
  | nil => rfl
  | cons c cs ih =>
    by_cases h : isBlank c = true
    · rw [skipBlank_cons h, ih, value_blank h]
    · rw [skipBlank, List.dropWhile_cons_of_neg h]

theorem value_list : value (fuel + 1) ('[' :: cs) =
    (.list (items fuel true cs).1, (items fuel true cs).2) := rfl

theorem value_object : value (fuel + 1) ('\x7b' :: cs) =
    (.object (members fuel true cs).1, (members fuel true cs).2) := rfl

theorem skipBlank_of_value {d : Draft} (h : value fuel cs = (d, some rest)) :
    ∃ c tail, skipBlank cs = c :: tail ∧ c ≠ ']' := by
  cases fuel with
  | zero => cases h
  | succ fuel =>
    rw [value] at h
    split at h
    · cases h
    next c tail hcs =>
      refine ⟨c, tail, hcs, ?_⟩
      rintro rfl
      cases h

theorem items_of_value {d : Draft} {more : DraftItems} {rest' : Option (List Char)}
    (hvalue : value fuel cs = (d, some rest)) (hitems : items fuel false rest = (more, rest')) :
    items (fuel + 2) true cs = (.item d more, rest') := by
  obtain ⟨c, tail, hskip, hc⟩ := skipBlank_of_value hvalue
  rw [← value_skipBlank, hskip] at hvalue
  rw [items, hskip]
  dsimp only
  rw [if_neg hc, if_pos rfl, item, hvalue]
  dsimp only
  rw [hitems]

theorem items_comma {d : Draft} {more : DraftItems} {rest' : Option (List Char)}
    (h : items fuel true cs = (.item d more, rest')) :
    items fuel false (',' :: cs) = (.item d more, rest') := by
  cases fuel with
  | zero => cases h
  | succ fuel =>
    have hskip : skipBlank (',' :: cs) = ',' :: cs := rfl
    rw [items] at h ⊢
    rw [hskip]
    dsimp only
    rw [if_neg (by decide), if_neg (by decide), if_pos rfl]
    split at h
    · cases h
    next c tail hcs =>
      split at h
      · cases h
      next hc => rwa [if_neg hc]

theorem members_of_value {k : String} {d : Draft} {more : DraftMembers}
    {rest' : Option (List Char)} (hvalue : value fuel cs = (d, some rest))
    (hmembers : members fuel false rest = (more, rest')) :
    members (fuel + 2) true (stringChars k ++ ':' :: cs) = (.member (.ok k) d more, rest') := by
  have hkey : stringChars k ++ ':' :: cs = '"' :: (Escape.encode k.toList ++ '"' :: ':' :: cs) := by
    simp [stringChars]
  have hskip : skipBlank ('"' :: (Escape.encode k.toList ++ '"' :: ':' :: cs)) =
      '"' :: (Escape.encode k.toList ++ '"' :: ':' :: cs) := rfl
  have hcolon : skipBlank (':' :: cs) = ':' :: cs := rfl
  rw [hkey, members, hskip]
  dsimp only
  rw [if_neg (by decide), if_pos rfl, member, if_pos rfl, Escape.decode_encode]
  dsimp only
  rw [hcolon]
  dsimp only
  rw [if_pos rfl, hvalue]
  dsimp only
  rw [hmembers]

theorem members_comma {k : Except Flaw String} {d : Draft} {more : DraftMembers}
    {rest' : Option (List Char)} (h : members fuel true cs = (.member k d more, rest')) :
    members fuel false (',' :: cs) = (.member k d more, rest') := by
  cases fuel with
  | zero => cases h
  | succ fuel =>
    have hskip : skipBlank (',' :: cs) = ',' :: cs := rfl
    rw [members] at h ⊢
    rw [hskip]
    dsimp only
    rw [if_neg (by decide), if_neg (by decide), if_pos rfl]
    split at h
    · cases h
    next c tail hcs =>
      split at h
      · cases h
      next hc => rwa [if_neg hc]

end Reader

theorem endsNumber_of_isBlank {c : Char} (h : Reader.isBlank c = true) (cs : List Char) :
    EndsNumber (c :: cs) := by
  intro d hd
  obtain rfl := Option.some.inj hd
  have hdigit : c.isDigit = false := by
    by_contra hdigit
    rw [Reader.isBlank_of_isDigit (by simpa using hdigit)] at h
    cases h
  refine ⟨hdigit, ?_⟩
  constructor
  · rintro rfl
    cases h
  constructor
  · rintro rfl
    cases h
  · rintro rfl
    cases h

namespace Spells

variable {cs : List Char}

theorem endsNumber_items {vs : List Json} (h : Spells (.items false vs) cs) (rest : List Char) :
    EndsNumber (cs ++ rest) := by
  cases h with
  | itemsBlank hc h => exact endsNumber_of_isBlank hc _
  | itemsEnd => simp [EndsNumber]
  | nextItem h => simp [EndsNumber]

theorem endsNumber_members {ms : List (String × Json)} (h : Spells (.members false ms) cs)
    (rest : List Char) : EndsNumber (cs ++ rest) := by
  cases h with
  | membersBlank hc h => exact endsNumber_of_isBlank hc _
  | membersEnd => simp [EndsNumber]
  | nextMember h => simp [EndsNumber]

theorem ne_nil {v : Json} (h : Spells (.value v) cs) : cs ≠ [] := by
  cases h with
  | number hn =>
    intro hnil
    have h := hn 0 [] endsNumber_nil
    rw [hnil] at h
    cases h
  | bool b => cases b <;> simp [chars]
  | _ => simp [chars, stringChars]

end Spells

namespace Part

theorem isReadFrom_value {v : Json} {cs : List Char}
    (h : ∀ fuel rest, 3 * cs.length ≤ fuel → EndsNumber rest →
      Reader.value (fuel + 1) (cs ++ rest) = (v.toDraft, some rest)) :
    (Part.value v).IsReadFrom cs := by
  intro fuel rest hfuel hrest
  obtain ⟨fuel, rfl⟩ := Nat.exists_eq_succ_of_ne_zero (show fuel ≠ 0 by omega)
  exact h fuel rest (by omega) hrest

/-- A text that spells a part is read as that part, whatever follows it. -/
theorem isReadFrom_of_spells {part : Part} {cs : List Char} (h : Spells part cs) :
    part.IsReadFrom cs := by
  -- No constructor takes more than three calls of the reader for a character of its text, so the
  -- fuel that a text gets lasts for each of its parts.
  induction h with
  | blank hc h ih =>
    intro fuel rest hfuel hrest
    rw [List.length_cons] at hfuel
    rw [List.cons_append, Reader.value_blank hc]
    exact ih fuel rest (by omega) hrest
  | null => exact isReadFrom_value fun _ _ _ _ => rfl
  | bool b => exact isReadFrom_value fun _ _ _ _ => by cases b <;> rfl
  | number hn => exact isReadFrom_value fun fuel rest _ hrest => hn fuel rest hrest
  | string s =>
    refine isReadFrom_value fun fuel rest _ _ => ?_
    have hvalue : Reader.value (fuel + 1) ('"' :: (Escape.encode s.toList ++ '"' :: rest)) =
        Reader.string (Escape.encode s.toList ++ '"' :: rest) := rfl
    rw [stringChars, List.cons_append, List.cons_append, List.append_assoc, List.singleton_append,
      hvalue, Reader.string, Escape.decode_encode]
    rfl
  | array h ih =>
    refine isReadFrom_value fun fuel rest hfuel _ => ?_
    rw [List.length_cons] at hfuel
    have hitems := ih fuel rest (by omega)
    rw [List.cons_append, Reader.value_list, hitems]
    rfl
  | object h ih =>
    refine isReadFrom_value fun fuel rest hfuel _ => ?_
    rw [List.length_cons] at hfuel
    have hmembers := ih fuel rest (by omega)
    rw [List.cons_append, Reader.value_object, hmembers]
    rfl
  | itemsBlank hc h ih =>
    intro fuel rest hfuel
    rw [List.length_cons] at hfuel
    rw [List.cons_append, Reader.items_blank hc]
    exact ih fuel rest (by omega)
  | itemsEnd =>
    intro fuel rest hfuel
    obtain ⟨fuel, rfl⟩ := Nat.exists_eq_succ_of_ne_zero (show fuel ≠ 0 by omega)
    rfl
  | firstItem hv hvs ihv ihvs =>
    intro fuel rest hfuel
    have hpos := List.length_pos_iff.2 hv.ne_nil
    rw [List.length_append] at hfuel
    obtain ⟨fuel, rfl⟩ := Nat.exists_eq_add_of_le' (show 2 ≤ fuel by omega)
    rw [List.append_assoc]
    exact Reader.items_of_value (ihv fuel _ (by omega) (hvs.endsNumber_items rest))
      (ihvs fuel rest (by omega))
  | nextItem h ih =>
    intro fuel rest hfuel
    rw [List.length_cons] at hfuel
    exact Reader.items_comma (ih fuel rest (by omega))
  | membersBlank hc h ih =>
    intro fuel rest hfuel
    rw [List.length_cons] at hfuel
    rw [List.cons_append, Reader.members_blank hc]
    exact ih fuel rest (by omega)
  | membersEnd =>
    intro fuel rest hfuel
    obtain ⟨fuel, rfl⟩ := Nat.exists_eq_succ_of_ne_zero (show fuel ≠ 0 by omega)
    rfl
  | @firstMember k v ms cs more hv hms ihv ihms =>
    intro fuel rest hfuel
    rw [List.length_append, List.length_append, List.length_cons] at hfuel
    obtain ⟨fuel, rfl⟩ := Nat.exists_eq_add_of_le' (show 2 ≤ fuel by omega)
    rw [List.append_assoc, List.append_assoc, List.cons_append]
    exact Reader.members_of_value (ihv fuel _ (by omega) (hms.endsNumber_members rest))
      (ihms fuel rest (by omega))
  | nextMember h ih =>
    intro fuel rest hfuel
    rw [List.length_cons] at hfuel
    exact Reader.members_comma (ih fuel rest (by omega))

end Part

theorem Draft.ofText_of_spells {v : Json} {cs : List Char} (h : Spells (.value v) cs) :
    Draft.ofText (String.ofList cs) = (v.toDraft, false) := by
  have hfuel : 3 * cs.length + 1 ≤ Reader.fuelFor cs := by
    rw [Reader.fuelFor]
    omega
  have hread := Part.isReadFrom_of_spells h _ [] hfuel endsNumber_nil
  rw [List.append_nil] at hread
  simp only [Draft.ofText, String.toList_ofList, hread]
  rfl

namespace Spells

variable {cs : List Char} {first : Bool}

theorem items_newLine {vs : List Json} (level : Nat) (h : Spells (.items first vs) cs) :
    Spells (.items first vs) (newLine level ++ cs) := by
  refine .itemsBlank rfl ?_
  induction 2 * level with
  | zero => exact h
  | succ n ih => exact .itemsBlank rfl ih

theorem members_newLine {ms : List (String × Json)} (level : Nat)
    (h : Spells (.members first ms) cs) : Spells (.members first ms) (newLine level ++ cs) := by
  refine .membersBlank rfl ?_
  induction 2 * level with
  | zero => exact h
  | succ n ih => exact .membersBlank rfl ih

end Spells

section

variable {f : Number → Number}

mutual

/-- An indented text spells its value with the numbers that its own are read as. -/
theorem spells_prettyChars (level : Nat) : (v : Json) → (∀ n ∈ v.numbers, n.ReadsAs (f n)) →
    Spells (.value (v.mapNumbers f)) (v.prettyChars level)
  | .null, _ => .null
  | .bool true, _ => .bool true
  | .bool false, _ => .bool false
  | .number n, h => .number (h n (by simp [numbers]))
  | .string s, _ => .string s
  | .array [], _ => .array .itemsEnd
  | .array (v :: vs), h => by
    have hv := spells_prettyChars (level + 1) v
      fun n hn => h n (by simp [numbers, itemsNumbers, hn])
    have hvs := spells_prettyItems (level + 1) vs
      (fun n hn => h n (by simp [numbers, itemsNumbers, hn]))
      (.items_newLine level .itemsEnd)
    have hlist := Spells.array (.items_newLine (level + 1) (.firstItem hv hvs))
    simpa [prettyChars, mapNumbers, mapItems] using hlist
  | .object [], _ => .object .membersEnd
  | .object ((k, v) :: ms), h => by
    have hv := spells_prettyChars (level + 1) v
      fun n hn => h n (by simp [numbers, membersNumbers, hn])
    have hms := spells_prettyMembers (level + 1) ms
      (fun n hn => h n (by simp [numbers, membersNumbers, hn]))
      (.members_newLine level .membersEnd)
    have hobject := Spells.object (.members_newLine (level + 1)
      (.firstMember (k := k) (.blank (c := ' ') rfl hv) hms))
    simpa [prettyChars, mapNumbers, mapMembers] using hobject

theorem spells_prettyItems (level : Nat) : (vs : List Json) → {close : List Char} →
    (∀ n ∈ itemsNumbers vs, n.ReadsAs (f n)) → Spells (.items false []) close →
      Spells (.items false (mapItems f vs)) (prettyItems level vs ++ close)
  | [], _, _, hclose => hclose
  | v :: vs, _, h, hclose => by
    have hv := spells_prettyChars level v fun n hn => h n (by simp [itemsNumbers, hn])
    have hvs := spells_prettyItems level vs
      (fun n hn => h n (by simp [itemsNumbers, hn])) hclose
    have hitems := Spells.nextItem (.items_newLine level (.firstItem hv hvs))
    simpa [prettyItems, mapItems] using hitems

theorem spells_prettyMembers (level : Nat) : (ms : List (String × Json)) → {close : List Char} →
    (∀ n ∈ membersNumbers ms, n.ReadsAs (f n)) → Spells (.members false []) close →
      Spells (.members false (mapMembers f ms)) (prettyMembers level ms ++ close)
  | [], _, _, hclose => hclose
  | (k, v) :: ms, _, h, hclose => by
    have hv := spells_prettyChars level v fun n hn => h n (by simp [membersNumbers, hn])
    have hms := spells_prettyMembers level ms
      (fun n hn => h n (by simp [membersNumbers, hn])) hclose
    have hmembers := Spells.nextMember (.members_newLine level
      (.firstMember (k := k) (.blank (c := ' ') rfl hv) hms))
    simpa [prettyMembers, mapMembers] using hmembers

end

mutual

theorem spells_chars : (v : Json) → (∀ n ∈ v.numbers, n.ReadsAs (f n)) →
    Spells (.value (v.mapNumbers f)) v.chars
  | .null, _ => .null
  | .bool b, _ => .bool b
  | .number n, h => .number (h n (by simp [numbers]))
  | .string s, _ => .string s
  | .array [], _ => .array .itemsEnd
  | .array (v :: vs), h => by
    have hv := spells_chars v fun n hn => h n (by simp [numbers, itemsNumbers, hn])
    have hvs := spells_moreItemsChars vs fun n hn => h n (by simp [numbers, itemsNumbers, hn])
    simpa [chars, itemsChars, mapNumbers, mapItems] using Spells.array (.firstItem hv hvs)
  | .object [], _ => .object .membersEnd
  | .object ((k, v) :: ms), h => by
    have hv := spells_chars v fun n hn => h n (by simp [numbers, membersNumbers, hn])
    have hms := spells_moreMembersChars ms
      fun n hn => h n (by simp [numbers, membersNumbers, hn])
    have hobject := Spells.object (.firstMember (k := k) hv hms)
    simpa [chars, membersChars, mapNumbers, mapMembers] using hobject

theorem spells_moreItemsChars : (vs : List Json) → (∀ n ∈ itemsNumbers vs, n.ReadsAs (f n)) →
    Spells (.items false (mapItems f vs)) (moreItemsChars vs ++ [']'])
  | [], _ => .itemsEnd
  | v :: vs, h => by
    have hv := spells_chars v fun n hn => h n (by simp [itemsNumbers, hn])
    have hvs := spells_moreItemsChars vs fun n hn => h n (by simp [itemsNumbers, hn])
    simpa [moreItemsChars, mapItems] using Spells.nextItem (.firstItem hv hvs)

theorem spells_moreMembersChars : (ms : List (String × Json)) →
    (∀ n ∈ membersNumbers ms, n.ReadsAs (f n)) →
      Spells (.members false (mapMembers f ms)) (moreMembersChars ms ++ ['\x7d'])
  | [], _ => .membersEnd
  | (k, v) :: ms, h => by
    have hv := spells_chars v fun n hn => h n (by simp [membersNumbers, hn])
    have hms := spells_moreMembersChars ms fun n hn => h n (by simp [membersNumbers, hn])
    have hmembers := Spells.nextMember (.firstMember (k := k) hv hms)
    simpa [moreMembersChars, mapMembers] using hmembers

end

mutual

theorem mapNumbers_id : (v : Json) → v.mapNumbers id = v
  | .null | .bool _ | .number _ | .string _ => rfl
  | .array items => by rw [mapNumbers, mapItems_id items]
  | .object members => by rw [mapNumbers, mapMembers_id members]

theorem mapItems_id : (vs : List Json) → mapItems id vs = vs
  | [] => rfl
  | v :: vs => by rw [mapItems, mapNumbers_id v, mapItems_id vs]

theorem mapMembers_id : (ms : Members) → mapMembers id ms = ms
  | [] => rfl
  | (k, v) :: ms => by rw [mapMembers, mapNumbers_id v, mapMembers_id ms]

end

/-- An indented text is read as its value with the numbers that its own are read as. -/
theorem Draft.ofText_prettyText_mapNumbers {v : Json} (h : ∀ n ∈ v.numbers, n.ReadsAs (f n)) :
    Draft.ofText v.prettyText = ((v.mapNumbers f).toDraft, false) :=
  Draft.ofText_of_spells (spells_prettyChars 0 v h)

end

theorem spells_chars_of_legible {v : Json} (h : ∀ n ∈ v.numbers, n.Legible) :
    Spells (.value v) v.chars := by
  have hspells := spells_chars (f := id) v h
  rwa [mapNumbers_id] at hspells

theorem spells_prettyChars_of_legible {v : Json} (h : ∀ n ∈ v.numbers, n.Legible) :
    Spells (.value v) (v.prettyChars 0) := by
  have hspells := spells_prettyChars (f := id) 0 v h
  rwa [mapNumbers_id] at hspells

/-- An indented text is read as its value when the numbers in it are legible. -/
theorem Draft.ofText_prettyText {v : Json} (h : ∀ n ∈ v.numbers, n.Legible) :
    Draft.ofText v.prettyText = (v.toDraft, false) :=
  Draft.ofText_of_spells (spells_prettyChars_of_legible h)

end ColorGraph.Json
