import ColorGraph.Css.Variable
import ColorGraph.Decimal.Layout
import ColorGraph.Decimal.Literal
import Mathlib.Data.List.Basic
/-!
What arithmetic in a rule block comes to: numbers, variables, and `calc` of two of these. Main
statements: a number, a reference and a `calc` are each read as what they spell, whatever follows.
-/

set_option autoImplicit false

namespace ColorGraph.Css

inductive Sign where
  | plus
  | minus
  | times
  | dividedBy
deriving DecidableEq, Repr

namespace Sign

def ofChar? : Char → Option Sign
  | '+' => some plus
  | '-' => some minus
  | '*' => some times
  | '/' => some dividedBy
  | _ => none

def apply : Sign → Float → Float → Float
  | plus, x, y => x + y
  | minus, x, y => x - y
  | times, x, y => x * y
  | dividedBy, x, y => x / y

end Sign

inductive Calculation where
  | number (x : Float)
  | reference (name : String)
  | binary (x : Calculation) (sign : Sign) (y : Calculation)

namespace Calculation

def value? (lookup : String → Option Float) : Calculation → Option Float
  | number x => some x
  | reference name => lookup name
  | binary x sign y => do
    let x ← x.value? lookup
    let y ← y.value? lookup
    some (sign.apply x y)

/-- A number goes on up to a blank or a closing bracket. -/
def isInNumber (c : Char) : Bool :=
  c != ' ' && c != ')'

def scanNumber (cs : List Char) : Option (Calculation × List Char) := do
  let x ← Decimal.read? (cs.takeWhile isInNumber)
  some (number x, cs.dropWhile isInNumber)

def scanReference (cs : List Char) : Option (Calculation × List Char) := do
  let rest ← ")".toList.isPrefixOf? (cs.dropWhile (· != ')'))
  some (reference (String.ofList (cs.takeWhile (· != ')'))), rest)

def scanSign : List Char → Option (Sign × List Char)
  | ' ' :: c :: ' ' :: cs => (Sign.ofChar? c).map (·, cs)
  | _ => none

def scan : Nat → List Char → Option (Calculation × List Char)
  | 0, _ => none
  | depth + 1, cs =>
    match "calc(".toList.isPrefixOf? cs, "var(--".toList.isPrefixOf? cs with
    | some cs, _ => do
      let (x, cs) ← scan depth cs
      let (sign, cs) ← scanSign cs
      let (y, cs) ← scan depth cs
      let cs ← ")".toList.isPrefixOf? cs
      some (binary x sign y, cs)
    | none, some cs => scanReference cs
    | none, none => scanNumber cs

def read? (text : String) : Option Calculation :=
  match scan text.length text.toList with
  | some (c, []) => some c
  | _ => none

end Calculation

def declared? (vs : List Variable) (name : String) : Option Variable :=
  vs.reverse.find? (·.name == "--" ++ name)

def evaluate? (vs : List Variable) : Nat → String → Option Float
  | 0, _ => none
  | depth + 1, text => do
    let c ← Calculation.read? text
    c.value? fun name => do
      let v ← declared? vs name
      evaluate? vs depth v.value

def valueOf? (vs : List Variable) (depth : Nat) (name : String) : Option Float := do
  let v ← declared? vs name
  evaluate? vs depth v.value

/-- References that lead on more often than there are variables go round in a circle. -/
def value? (vs : List Variable) (text : String) : Option Float :=
  evaluate? vs (vs.length + 1) text

def Ends (rest : List Char) : Prop :=
  ∀ c ∈ rest.head?, c = ' ' ∨ c = ')'

def Spells (t : String) (c : Calculation) : Prop :=
  ∀ depth rest, t.length ≤ depth → Ends rest →
    Calculation.scan depth (t.toList ++ rest) = some (c, rest)

variable {s t : String} {x y : Calculation} {rest : List Char}

theorem ends_nil : Ends [] := by
  simp [Ends]

theorem Spells.ne_empty (h : Spells t x) : t ≠ "" := by
  rintro rfl
  have hscan := h 0 [] (by simp) ends_nil
  simp [Calculation.scan] at hscan

theorem Spells.read?_eq (h : Spells t x) : Calculation.read? t = some x := by
  have hscan := h t.length [] (Nat.le_refl _) ends_nil
  rw [List.append_nil] at hscan
  rw [Calculation.read?, hscan]

theorem takeWhile_of_ends (h : Ends rest) : rest.takeWhile Calculation.isInNumber = [] := by
  cases rest with
  | nil => rfl
  | cons c rest => obtain rfl | rfl := h c rfl <;> rfl

theorem dropWhile_of_ends (h : Ends rest) : rest.dropWhile Calculation.isInNumber = rest := by
  cases rest with
  | nil => rfl
  | cons c rest => obtain rfl | rfl := h c rfl <;> rfl

theorem isPrefixOf?_eq_none {word cs : List Char} (hbracket : '(' ∈ word)
    (hword : word.all Calculation.isInNumber) (hcs : '(' ∉ cs) (hrest : Ends rest) :
    word.isPrefixOf? (cs ++ rest) = none := by
  refine Option.eq_none_iff_forall_ne_some.2 fun after hafter => ?_
  rw [List.isPrefixOf?_eq_some_iff_append_eq, List.append_eq_append_iff] at hafter
  obtain ⟨more, hmore, _⟩ | ⟨more, hmore, hend⟩ := hafter
  · exact hcs (hmore ▸ List.mem_append_left more hbracket)
  · cases more with
    | nil => exact hcs (by simpa [hmore] using hbracket)
    | cons c more =>
      have hc := List.all_eq_true.1 hword c (by simp [hmore])
      obtain rfl | rfl := hrest c (by simp [hend]) <;> simp [Calculation.isInNumber] at hc

theorem spells_number {v : Float} (hread : Decimal.read? t.toList = some v)
    (hchars : ∀ c ∈ t.toList, c ≠ ' ' ∧ c ≠ '(' ∧ c ≠ ')') : Spells t (.number v) := by
  intro depth rest hdepth hrest
  have hbracket : '(' ∉ t.toList := fun h => (hchars _ h).2.1 rfl
  have hnumber : ∀ c ∈ t.toList, Calculation.isInNumber c := by
    intro c hc
    simp [Calculation.isInNumber, (hchars c hc).1, (hchars c hc).2.2]
  cases depth with
  | zero =>
    obtain rfl : t = "" := by simpa using hdepth
    cases hread
  | succ depth =>
    rw [Calculation.scan, isPrefixOf?_eq_none (by decide) (by decide) hbracket hrest,
      isPrefixOf?_eq_none (by decide) (by decide) hbracket hrest]
    simp only [Calculation.scanNumber]
    rw [List.takeWhile_append_of_pos hnumber, List.dropWhile_append_of_pos hnumber,
      takeWhile_of_ends hrest, dropWhile_of_ends hrest, List.append_nil, hread]
    rfl

theorem isPrefixOf?_append (word cs : List Char) : word.isPrefixOf? (word ++ cs) = some cs := by
  rw [List.isPrefixOf?_eq_some_iff_append_eq]

theorem spells_reference {name : String} (h : ')' ∉ name.toList) :
    Spells ("var(--" ++ name ++ ")") (.reference name) := by
  intro depth rest hdepth hrest
  have hname : ∀ c ∈ name.toList, (c != ')') = true := by
    intro c hc
    rw [bne_iff_ne]
    rintro rfl
    exact h hc
  cases depth with
  | zero => simp at hdepth
  | succ depth =>
    have hcalc : ∀ cs : List Char, "calc(".toList.isPrefixOf? ("var(--".toList ++ cs) = none :=
      fun cs => rfl
    rw [String.toList_append, String.toList_append, List.append_assoc, List.append_assoc,
      Calculation.scan, isPrefixOf?_append, hcalc]
    simp only [Calculation.scanReference]
    rw [List.takeWhile_append_of_pos hname, List.dropWhile_append_of_pos hname]
    simp [List.isPrefixOf?]

theorem Spells.binary (hs : Spells s x) (ht : Spells t y) {c : Char} {sign : Sign} {w : String}
    (hw : w.toList = [c]) (hc : Sign.ofChar? c = some sign) :
    Spells ("calc(" ++ s ++ " " ++ w ++ " " ++ t ++ ")") (.binary x sign y) := by
  intro depth rest hdepth hrest
  cases depth with
  | zero => simp at hdepth
  | succ depth =>
    have htext : ("calc(" ++ s ++ " " ++ w ++ " " ++ t ++ ")").toList ++ rest =
        "calc(".toList ++ (s.toList ++ ' ' :: c :: ' ' :: (t.toList ++ (")".toList ++ rest))) := by
      simp [hw]
    -- the operands have one level less to go, and the brackets alone make them shorter than that
    have hlength : s.length + t.length ≤ depth := by
      have hopening : "calc(".length = 5 := rfl
      simp only [String.length_append] at hdepth
      omega
    have hx := hs depth (' ' :: c :: ' ' :: (t.toList ++ (")".toList ++ rest))) (by omega)
      (by simp [Ends])
    have hy := ht depth (")".toList ++ rest) (by omega) (by simp [Ends])
    rw [htext, Calculation.scan, isPrefixOf?_append]
    simp only [hx, hy, Calculation.scanSign, hc, isPrefixOf?_append, Option.bind_eq_bind,
      Option.bind_some, Option.map_some]

def ComesTo (lookup : String → Option Float) (t : String) (v : Float) : Prop :=
  ∃ c, Spells t c ∧ c.value? lookup = some v

variable {lookup : String → Option Float} {v w : Float}

theorem comesTo_number (hread : Decimal.read? t.toList = some v)
    (hchars : ∀ c ∈ t.toList, c ≠ ' ' ∧ c ≠ '(' ∧ c ≠ ')') : ComesTo lookup t v :=
  ⟨_, spells_number hread hchars, rfl⟩

theorem comesTo_reference {name : String} (h : ')' ∉ name.toList) (hv : lookup name = some v) :
    ComesTo lookup ("var(--" ++ name ++ ")") v :=
  ⟨_, spells_reference h, hv⟩

theorem ComesTo.ne_empty (h : ComesTo lookup t v) : t ≠ "" := by
  obtain ⟨_, hspells, _⟩ := h
  exact hspells.ne_empty

theorem ComesTo.binary (hs : ComesTo lookup s v) (ht : ComesTo lookup t w) {c : Char} {sign : Sign}
    {word : String} (hword : word.toList = [c]) (hc : Sign.ofChar? c = some sign) :
    ComesTo lookup ("calc(" ++ s ++ " " ++ word ++ " " ++ t ++ ")") (sign.apply v w) := by
  obtain ⟨x, hx, hv⟩ := hs
  obtain ⟨y, hy, hw⟩ := ht
  exact ⟨_, hx.binary hy hword hc, by simp [Calculation.value?, hv, hw]⟩

theorem evaluate?_of_comesTo {vs : List Variable} {depth : Nat}
    (h : ComesTo (valueOf? vs depth) t v) : evaluate? vs (depth + 1) t = some v := by
  obtain ⟨c, hspells, hv⟩ := h
  rw [evaluate?, hspells.read?_eq]
  exact hv

example : value? [⟨"--a", "3.25"⟩, ⟨"--b", "calc(var(--a) * 2)"⟩] "calc(var(--b) - 0.5)" = some 6.0 :=
  rfl

end ColorGraph.Css
