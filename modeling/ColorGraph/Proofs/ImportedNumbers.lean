import ColorGraph.Proofs.Compilation
import ColorGraph.Proofs.NumberTexts
import ColorGraph.Proofs.Overflow
import ColorGraph.Proofs.Saving
import ColorGraph.Proofs.ValidDocuments
/-!
The numbers of an opened document. Main statement: each is some number, finite unless it is made
from a text that starts with a literal too large for a float, and a finite one is written in plain
decimal.
-/

set_option autoImplicit false

namespace ColorGraph

open Compile Json Json.Numeral Float.Model.UnpackedFloat

attribute [local instance (2000)] instPowNat

namespace Decimal

def IsPlain (cs : List Char) : Prop :=
  ∃ whole fraction, cs = whole ++ fraction ∧ AreFigures whole ∧
    (fraction = [] ∨ ∃ fs, fraction = '.' :: fs ∧ AreFigures fs)

def IsPlainText (text : String) : Prop :=
  ∃ cs, IsPlain cs ∧ (text.toList = cs ∨ text.toList = '-' :: cs)

variable {figures : List Char} {x : Float}

theorem isPlain_positional (h : AreFigures figures) (point : Int) :
    IsPlain (positional figures point) := by
  unfold positional
  split
  next hsmall =>
    exact ⟨['0'], '.' :: (zeros (-point) ++ figures), rfl, areFigures_zero,
      .inr ⟨_, rfl, areFigures_zeros_append h _⟩⟩
  split
  next hwhole =>
    exact ⟨_, [], (List.append_nil _).symm, areFigures_append_zeros h _, .inl rfl⟩
  next hmixed =>
    have hwhole : AreFigures (figures.take point.toNat) := areFigures_take h (by omega)
    have hfraction : AreFigures (figures.drop point.toNat) := areFigures_drop h (by omega)
    exact ⟨_, _, rfl, hwhole, .inr ⟨_, rfl, hfraction⟩⟩

theorem isPlain_unsigned (d : Decimal) : IsPlain (plain.unsigned d) := by
  have hfigures : AreFigures (if d.digits = 0 then (['0'], 1) else d.figures).1 := by
    split
    · exact areFigures_zero
    next hd => exact (figures_spec (Nat.pos_of_ne_zero hd)).1
  have hplain := isPlain_positional hfigures (if d.digits = 0 then (['0'], 1) else d.figures).2
  simpa [Layout.unsigned, plain] using hplain

theorem isPlainText_plain (hx : x.isFinite = true) : IsPlainText (plain.text x) := by
  rcases Binary.exists_ofFloat? hx with ⟨b, hb⟩
  refine ⟨_, isPlain_unsigned (shortest plain.tie b), ?_⟩
  rw [Layout.text, hb, String.toList_ofList]
  cases b.negative with
  | false => exact .inl rfl
  | true => exact .inr rfl

theorem plain_text_infinite (hnumber : x.isNaN = false) (hx : ¬ x.isFinite = true) :
    plain.text x = "inf" ∨ plain.text x = "-inf" := by
  have hnone : Binary.ofFloat? x = none := by
    rw [Option.eq_none_iff_forall_ne_some]
    exact fun b hb => hx (Binary.isFinite_of_ofFloat? hb)
  rw [Layout.text, hnone, hnumber]
  by_cases hneg : x < 0.0
  · exact .inr (if_pos hneg)
  · exact .inl (if_neg hneg)

end Decimal

namespace Json

variable {depth : Nat} {data : Members}

def Overflows (v : Json) : Prop :=
  ∃ s l rest, v = .string s ∧
    Decimal.Literal.scan (Text.trimStart s.toList) = some (l, rest) ∧ overflow ≤ l.size

def numberMember? (v : Json) : Option Json :=
  (v.member? "data").bind (member? "value")

theorem Number.isFinite_toFloat {n : Number} (h : n.Fits) : n.toFloat.isFinite = true := by
  have hmax : maxSignificand = 2 ^ (64 : Nat) - 1 := rfl
  cases n with
  | float x => exact h
  | int i =>
    simp only [Fits] at h
    cases i with
    | ofNat k =>
      rw [Int.ofNat_eq_natCast] at h
      exact isFinite_ofNat (by omega)
    | negSucc k => exact isFinite_neg (isFinite_ofNat (n := k + 1) (by omega))

theorem not_overflows {v : Json} (h : ∀ s, v ≠ .string s) : ¬ v.Overflows := by
  rintro ⟨s, _, _, rfl, _⟩
  exact h s rfl

theorem zero_spec : (0.0 : Float).isNaN = false ∧ (0.0 : Float).isFinite = true :=
  ⟨finiteBelow_zero.number, finiteBelow_zero.finite_iff.2 overflow_pos⟩

theorem leading?_spec (s : String) : ((Decimal.leading? s).getD 0.0).isNaN = false ∧
    (((Decimal.leading? s).getD 0.0).isFinite = true ↔ ¬ (Json.string s).Overflows) := by
  cases hscan : Decimal.Literal.scan (Text.trimStart s.toList) with
  | none => simpa [Decimal.leading?, hscan, Overflows] using zero_spec
  | some result =>
    rcases result with ⟨l, rest⟩
    have hround := l.finiteBelow_toFloat
    have hnumber : l.toFloat.isNaN = false := hround.number
    have hfinite : l.toFloat.isFinite = true ↔ l.size < overflow := hround.finite_iff
    have hread : (Decimal.leading? s).getD 0.0 = l.toFloat := by
      rw [Decimal.leading?, hscan]
      rfl
    rw [hread]
    exact ⟨hnumber, by simp [Overflows, hscan, hfinite]⟩

/-- What is read of a member is some number, finite unless the member overflows. -/
theorem numberIn_spec (hdata : data.Stored depth) (key : String) :
    (Node.Kind.numberIn data key).isNaN = false ∧
      ((Node.Kind.numberIn data key).isFinite = true ↔ ¬∃ v ∈ data.get? key, v.Overflows) := by
  unfold Node.Kind.numberIn
  cases hmember : data.get? key with
  | none => simpa using zero_spec
  | some v =>
    cases v with
    | number n =>
      have hfits : n.Fits :=
        (hdata.values _ (Members.mem_of_get? hmember)).fits n (by simp [numbers])
      have hfinite := Number.isFinite_toFloat hfits
      have hnumber : n.toFloat.isNaN = false := (FiniteBelow.of_finite hfinite overflow_pos).number
      exact ⟨hnumber, by simpa [hfinite] using not_overflows (by simp)⟩
    | string s => simpa using leading?_spec s
    | _ => simpa [Overflows] using zero_spec

end Json

namespace Node

variable {depth : Nat} {v : Json} {n : Node} {name : String} {x : Float}

structure IsNumberOf (x : Float) (v : Json) : Prop where
  number : x.isNaN = false
  finite_iff : x.isFinite = true ↔ ¬∃ value ∈ v.numberMember?, value.Overflows
  plain : x.isFinite = true → Decimal.IsPlainText (numberLiteral x)
  infinite : ¬ x.isFinite = true → numberLiteral x = "inf" ∨ numberLiteral x = "-inf"

theorem Kind.eq_numberIn {tag : String} {data : Members}
    (h : ofData? tag data = some (.inputNumber name x)) : x = numberIn data "value" := by
  unfold ofData? at h
  split at h
  · cases h
  split at h
  · cases h
    rfl
  split at h
  · cases h
  · rcases Option.map_eq_some_iff.1 h with ⟨op, _, hop⟩
    split at hop <;> cases hop

theorem IsOf.isNumberOf (h : n.IsOf v) (hv : v.Stored depth)
    (hk : n.kind = .inputNumber name x) : IsNumberOf x v := by
  rcases h with ⟨ms, rfl, tag, data?, hn⟩
  rcases hv.exists_of_object with ⟨inner, _, hms⟩
  have hdata : ∃ depth, (data?.getD []).Stored depth := by
    cases data? with
    | none => exact ⟨inner, Members.stored_nil⟩
    | some data =>
      have hobject : (Json.object data).Stored inner :=
        hms.values _ (Members.mem_of_get? hn.data)
      rcases hobject.exists_of_object with ⟨innermost, _, hdata⟩
      exact ⟨innermost, hdata⟩
  rcases hdata with ⟨innermost, hdata⟩
  have hmember : numberMember? (.object ms) = (data?.getD []).get? "value" := by
    rw [numberMember?, member?, hn.data]
    cases data? <;> rfl
  obtain rfl := Kind.eq_numberIn (hk ▸ hn.kind)
  rcases numberIn_spec hdata "value" with ⟨hnumber, hfinite⟩
  exact ⟨hnumber, hmember ▸ hfinite, Decimal.isPlainText_plain,
    Decimal.plain_text_infinite hnumber⟩

theorem mem_compile_variables {g : Graph} (hn : n ∈ g.nodes) (hk : n.kind = .inputNumber name x)
    (hname : name ≠ "") (o : Options) :
    .of (o.exportName name) (numberLiteral x) ∈ (g.compile o).variables := by
  have hdefinition : n.sourceDefinition? o =
      some ⟨n.id, o.exportName name, .literal (numberLiteral x)⟩ := by
    simp [sourceDefinition?, sourceName?, literal?, hk, hname]
  have hsource : ⟨n.id, o.exportName name, .literal (numberLiteral x)⟩ ∈ g.sourceDefinitions o :=
    List.mem_filterMap.2 ⟨n, hn, hdefinition⟩
  rw [Graph.compile_variables, Graph.definitions_eq_append, List.map_append]
  exact List.mem_append_left _ (List.mem_map.2 ⟨_, hsource, rfl⟩)

end Node

namespace Graph

/-- The numbers of an opened document are told by the members that they stand in: each is finite,
and written in plain decimal, unless its member is a text too large for a float. -/
theorem importText_numbers {text : String} {g : Graph} (h : importText text = .ok g) :
    ∃ v vs, readValue text = .ok v ∧ v.member? "nodes" = some (.array vs) ∧
      List.Forall₂ (fun v n => ∀ name x, n.kind = .inputNumber name x → Node.IsNumberOf x v ∧
        ∀ o, name ≠ "" → .of (o.exportName name) (numberLiteral x) ∈ (g.compile o).variables)
        vs g.nodes := by
  rcases Except.bind_eq_ok.1 h with ⟨v, hread, _⟩
  have hv := Except.mapError_eq_ok.1 hread
  rcases (importText_of_readValue hv).2.2 g h with ⟨vs, _, hvs, hnodes, _⟩
  have hstored : ∀ v ∈ vs, v.Stored Node.depth := by
    cases v with
    | object ms =>
      have hms := (stored_of_readValue hv).of_object rfl
      exact (hms.values _ (Members.mem_of_get? hvs)).of_array Node.enter_lists
    | _ => cases hvs
  refine ⟨v, vs, hv, hvs, (forall₂_with_mem hnodes).imp ?_⟩
  rintro v n ⟨hmem, hn, hof⟩ name x hk
  exact ⟨hof.isNumberOf (hstored v hmem) hk,
    fun o hname => Node.mem_compile_variables hn hk hname o⟩

def typedNumber (name text : String) : Json :=
  .object [("data", .object [("name", .string name), ("value", .string text)]),
    ("id", .string name), ("type", .string "inputNumber")]

def typedDocument : Json :=
  .object [("edges", .array []), ("nodes", .array [typedNumber "huge" "1e999",
    typedNumber "close" "1.7976931348623158e308px"])]

def typed : Graph where
  nodes := [
    { id := "huge", kind := .inputNumber "huge" (Decimal.toFloat ⟨1, 999⟩) },
    { id := "close",
      kind := .inputNumber "close" (Decimal.toFloat ⟨17976931348623158, 292⟩) }]
  edges := []

theorem overflows_huge : (Json.string "1e999").Overflows := by
  refine ⟨_, ⟨false, ['1'], [], 999⟩, [], rfl, rfl, Decimal.overflow_le_power.trans ?_⟩
  change (10 : ℚ) ^ (310 : Int) ≤ (1 : Nat) * 10 ^ (999 : Int)
  rw [Nat.cast_one, one_mul]
  exact zpow_le_zpow_right₀ (by norm_num) (by decide)

theorem not_overflows_close : ¬ (Json.string "1.7976931348623158e308px").Overflows := by
  rintro ⟨_, l, rest, ⟨⟩, hscan, hle⟩
  have hclose : Decimal.Literal.scan (Text.trimStart "1.7976931348623158e308px".toList) =
      some (⟨false, ['1'], "7976931348623158".toList, 308⟩, ['p', 'x']) := rfl
  obtain rfl := congrArg Prod.fst (Option.some.inj (hclose.symm.trans hscan))
  have hodd : (2 : ℚ) ^ 54 - 1 = (18014398509481983 : Nat) := by norm_num
  have hnat : 17976931348623158 * 10 ^ 292 < 18014398509481983 * 2 ^ 970 := by decide +kernel
  have hlt : (17976931348623158 : Nat) * (10 : ℚ) ^ (292 : Int) < overflow := by
    rw [overflow, hodd, zpow_ofNat, zpow_ofNat]
    exact_mod_cast hnat
  exact absurd hle (not_le_of_gt hlt)

theorem importText_numbers_typed :
    importText typedDocument.prettyText = .ok typed ∧
      (∃ x, Decimal.leading? "1e999" = some x ∧ ¬ x.isFinite = true ∧
        .of "huge" (numberLiteral x) ∈ (typed.compile {}).variables ∧
        (numberLiteral x = "inf" ∨ numberLiteral x = "-inf")) ∧
      ∃ x, Decimal.leading? "1.7976931348623158e308px" = some x ∧ x.isFinite = true ∧
        .of "close" (numberLiteral x) ∈ (typed.compile {}).variables ∧
        Decimal.IsPlainText (numberLiteral x) := by
  have hread : readValue typedDocument.prettyText = .ok typedDocument := by
    have hdraft := Draft.ofText_prettyText (v := typedDocument) (List.forall_mem_nil _)
    rw [readValue, readText_eq_ok, hdraft]
    exact ⟨rfl, rfl⟩
  have hopen : importText typedDocument.prettyText = .ok typed :=
    importText_prettyText (d := ⟨typed.nodes, typed.edges, "", ""⟩) (List.forall_mem_nil _) rfl
      rfl rfl rfl
  rcases importText_numbers hopen with ⟨v, vs, hv, hvs, hnodes⟩
  obtain rfl : typedDocument = v := Except.ok.inj (hread.symm.trans hv)
  cases hvs
  rcases hnodes with _ | ⟨hhuge, _ | ⟨hclose, _⟩⟩
  rcases hhuge _ _ rfl with ⟨hhuge, hhuge'⟩
  rcases hclose _ _ rfl with ⟨hclose, hclose'⟩
  have hinfinite : ¬ (Decimal.toFloat ⟨1, 999⟩).isFinite = true := by
    rw [hhuge.finite_iff, not_not]
    exact ⟨_, rfl, overflows_huge⟩
  have hfinite : (Decimal.toFloat ⟨17976931348623158, 292⟩).isFinite = true := by
    rw [hclose.finite_iff]
    rintro ⟨_, ⟨⟩, hoverflows⟩
    exact not_overflows_close hoverflows
  exact ⟨hopen, ⟨_, rfl, hinfinite, hhuge' {} (by decide), hhuge.infinite hinfinite⟩,
    ⟨_, rfl, hfinite, hclose' {} (by decide), hclose.plain hfinite⟩⟩

end Graph
end ColorGraph
