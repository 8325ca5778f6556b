import ColorGraph.Proofs.Calculation
import ColorGraph.Proofs.NumberPreviews
import ColorGraph.Proofs.References
import ColorGraph.Proofs.SharedTree
/-!
Arithmetic in style sheets and in previews. Main statement: where a value is computed from finite
numbers by arithmetic alone, the text of its variable comes to the number that its preview shows.
-/

set_option autoImplicit false

namespace ColorGraph

open Compile

namespace Css

variable {lookup : String → Option Float}

inductive Agrees (lookup : String → Option Float) : Option String → Option Preview → Prop
  | missing : Agrees lookup none none
  | number {t : String} {x : Float} (h : ComesTo lookup t x) :
    Agrees lookup (some t) (some (.number x))

theorem Agrees.operand {t? : Option String} {v? : Option Preview} (h : Agrees lookup t? v?)
    (text : String) (value : Float) (hfallback : t? = none → ComesTo lookup text value) :
    ComesTo lookup ((t?.filter (· ≠ "")).getD text) ((v?.map Preview.toNumber).getD value) := by
  cases h with
  | missing => exact hfallback rfl
  | number h =>
    rw [Option.filter_some, if_pos (by simpa using h.ne_empty)]
    exact h

theorem Agrees.eq_number {t? : Option String} {v : Preview} (h : Agrees lookup t? (some v)) :
    ∃ x, v = .number x := by
  cases h
  exact ⟨_, rfl⟩

theorem comesTo_zero : ComesTo lookup "0" 0.0 :=
  comesTo_number rfl (by simp)

theorem comesTo_one : ComesTo lookup "1" 1.0 :=
  comesTo_number rfl (by simp)

theorem comesTo_text {x : Float}
    (hread : Decimal.read? (Decimal.plain.text x).toList = some x) :
    ComesTo lookup (Decimal.plain.text x) x := by
  refine comesTo_number hread ?_
  cases hx : Binary.ofFloat? x with
  | some b =>
    intro c hc
    obtain hc | rfl | rfl := Decimal.mem_text_plain hx hc
    · refine ⟨?_, ?_, ?_⟩ <;> rintro rfl <;> cases hc
    · simp
    · simp
  | none =>
    rw [Decimal.Layout.text, hx]
    dsimp only
    split
    · simp
    · split <;> simp

variable {op : Operation} {ts : List (Option String)} {vs : List (Option Preview)}

theorem comesTo_cssText {first second : String} {x y : Float} (c : Char) (sign : Sign)
    (hsign : op.arithmeticSign.toList = [c]) (hc : Sign.ofChar? c = some sign)
    (hamount : op.defaultAmount = none) (hoperands : op.cssOperands = some (first, second))
    (hx : ComesTo lookup ((Operation.slot? ts 0).getD first) x)
    (hy : ComesTo lookup ((Operation.slot? ts 1).getD second) y) :
    ComesTo lookup (op.cssText ts) (sign.apply x y) := by
  have h := hx.binary hy hsign hc
  unfold Operation.cssText
  rw [hamount, hoperands]
  exact h

theorem comesTo_apply (ho : op.isArithmetic) (hfirst : Agrees lookup ts[0]?.join vs[0]?.join)
    (hsecond : Agrees lookup ts[1]?.join vs[1]?.join)
    (hproduct : op = .multiply → ts[0]?.join ≠ none)
    (hdivisor : op = .divide → ∀ y, vs[1]?.join = some (.number y) → (y == 0.0) = false) :
    ∃ x, Preview.apply op vs = .ok (some (.number x)) ∧ ComesTo lookup (op.cssText ts) x := by
  have hzero {t? v?} (h : Agrees lookup t? v?) := h.operand "0" 0.0 fun _ => comesTo_zero
  have hone {t? v?} (h : Agrees lookup t? v?) := h.operand "1" 1.0 fun _ => comesTo_one
  cases op with
  | add => exact ⟨_, rfl, comesTo_cssText '+' .plus rfl rfl rfl rfl (hzero hfirst) (hzero hsecond)⟩
  | subtract =>
    exact ⟨_, rfl, comesTo_cssText '-' .minus rfl rfl rfl rfl (hzero hfirst) (hzero hsecond)⟩
  | multiply =>
    have hx := hfirst.operand "0" 1.0 fun hnone => absurd hnone (hproduct rfl)
    exact ⟨_, rfl, comesTo_cssText '*' .times rfl rfl rfl rfl hx (hone hsecond)⟩
  | divide =>
    have hy : ((vs[1]?.join.map Preview.toNumber).getD 1.0 == 0.0) = false := by
      cases hv : vs[1]?.join with
      | none => decide
      | some v =>
        rw [hv] at hsecond
        obtain ⟨y, rfl⟩ := hsecond.eq_number
        exact hdivisor rfl y hv
    refine ⟨_, rfl, ?_⟩
    simp only [Preview.compute, hy]
    exact comesTo_cssText '/' .dividedBy rfl rfl rfl rfl (hzero hfirst) (hone hsecond)
  | _ => cases ho

variable {α : Type} {es : List α} {text : α → Option String}
  {preview : α → Except SplitCharacter (Option Preview)}

theorem agrees_slot (h : ∀ e ∈ es.take 2, ∃ v, preview e = .ok v ∧ Agrees lookup (text e) v)
    (hvs : ∀ i : Nat, es[i]?.map preview = vs[i]?.map .ok) {i : Nat} (hi : i < 2) :
    Agrees lookup (es.map text)[i]?.join vs[i]?.join := by
  have hv := hvs i
  rw [List.getElem?_map]
  cases he : es[i]? with
  | none =>
    rw [he, Option.map_none, eq_comm, Option.map_eq_none_iff] at hv
    rw [hv]
    exact .missing
  | some e =>
    rw [he, Option.map_some, eq_comm, Option.map_eq_some_iff] at hv
    obtain ⟨v, hv, hpreview⟩ := hv
    have htake : (es.take 2)[i]? = some e := by rw [List.getElem?_take_of_lt hi, he]
    obtain ⟨v', hv', hagrees⟩ := h e (List.mem_of_getElem? htake)
    obtain rfl : v = v' := Except.ok.inj (hpreview.trans hv')
    rw [hv]
    exact hagrees

theorem comesTo_applyAll (ho : op.isArithmetic)
    (h : ∀ e ∈ es.take 2, ∃ v, preview e = .ok v ∧ Agrees lookup (text e) v)
    (hspare : ∀ e ∈ es.drop 2, ∃ v, preview e = .ok v)
    (hproduct : op = .multiply → ∃ e, es[0]? = some e ∧ text e ≠ none)
    (hdivisor : op = .divide → ∀ e, es[1]? = some e → ∀ y, preview e = .ok (some (.number y)) →
      (y == 0.0) = false) :
    ∃ x, Preview.applyAll op (es.map preview) = .ok (some (.number x)) ∧
      ComesTo lookup (op.cssText (es.map text)) x := by
  have hall : ∀ e ∈ es, ∃ v, preview e = .ok v := by
    intro e he
    rw [← List.take_append_drop 2 es, List.mem_append] at he
    obtain he | he := he
    · obtain ⟨v, hv, _⟩ := h e he
      exact ⟨v, hv⟩
    · exact hspare e he
  obtain ⟨vs, hmapM, hvs⟩ := mapM_map_of_ok hall
  have hfirst : op = .multiply → (es.map text)[0]?.join ≠ none := by
    intro hop
    obtain ⟨e, he, htext⟩ := hproduct hop
    simpa [he] using htext
  have hsecond : op = .divide → ∀ y, vs[1]?.join = some (.number y) → (y == 0.0) = false := by
    intro hop y hy
    have hv := hvs 1
    rw [Option.join_eq_some_iff.1 hy, Option.map_some, Option.map_eq_some_iff] at hv
    obtain ⟨e, he, hpreview⟩ := hv
    exact hdivisor hop e he y hpreview
  obtain ⟨x, hx, hcomes⟩ := comesTo_apply ho (agrees_slot h hvs (by decide))
    (agrees_slot h hvs (by decide)) hfirst hsecond
  exact ⟨x, by rw [Preview.applyAll, hmapM]; exact hx, hcomes⟩

end Css

namespace Graph

variable {g : Graph} {o : Options} {order : SlotOrder} {id : NodeId} {n : Node}
  {name? : NodeId → Option String} {lookup : String → Option Float}

def NumbersReadBack (g : Graph) : Prop :=
  ∀ n ∈ g.nodes, ∀ name x, n.kind = .inputNumber name x → x.isFinite →
    Decimal.read? (Decimal.plain.text x).toList = some x

theorem Acyclic.text_operation (h : g.Acyclic) {op : Operation} (hn : g.lastNode? n.id = some n)
    (hname : name? n.id = none) (hk : n.kind = .operation op) :
    (g.unfold (Node.standIn? name?) order [] n.id).expression.map Css.Expression.text =
      some (op.cssText ((g.inputEdges order n.id).map fun e =>
        (g.unfold (Node.standIn? name?) order [] e.source).expression.map Css.Expression.text)) := by
  have hs : n.standIn? name? = none := Node.standIn?_inner hname (by rw [Node.literal?, hk])
  have ho : n.kind.operation? = some op := by rw [hk]; rfl
  rw [h.unfold_operation hn hs ho, Tree.expression_operation, Option.map_some, Css.Expression.text,
    Css.Expression.texts_eq_map, List.map_map, List.map_map]
  congr 2
  refine List.map_congr_left fun e _ => ?_
  rw [Function.comp_apply, Function.comp_apply, expression_unfoldEdge]

def Matches (g : Graph) (order : SlotOrder) (name? : NodeId → Option String)
    (lookup : String → Option Float) (id : NodeId) : Prop :=
  ∃ v, g.preview order id = .ok v ∧ Css.Agrees lookup
    ((g.unfold (Node.standIn? name?) order [] id).expression.map Css.Expression.text) v

theorem Acyclic.matches_operation (h : g.Acyclic)
    (horigin : ∀ q name, name? q = some name → g.HasOrigin q) {op : Operation}
    (hn : g.lastNode? n.id = some n) (hname : name? n.id = none) (hk : n.kind = .operation op)
    (ha : g.Arithmetic order n.id)
    (ih : ∀ e : Edge, g.Feeds e.source n.id → g.Arithmetic order e.source →
      g.Matches order name? lookup e.source) : g.Matches order name? lookup n.id := by
  have hcalc := ha.calculates hn
  simp only [Calculates, hk, input?] at hcalc
  obtain ⟨harithmetic, hproduct, hdivisor⟩ := hcalc
  have hoperands : ∀ e ∈ (g.inputEdges order n.id).take 2,
      g.Matches order name? lookup e.source := by
    intro e he
    refine ih e (feeds_of_mem_inputEdges (List.mem_of_mem_take he)) (ha.operand hn ?_)
    simp only [operands, hk]
    exact List.mem_map_of_mem he
  have hspare : ∀ e ∈ (g.inputEdges order n.id).drop 2, ∃ v, g.preview order e.source = .ok v := by
    intro e he
    refine (ha n hn .refl).2 e.source ?_
    simp only [spareInputs, hk]
    exact List.mem_map_of_mem he
  have hfirst : op = .multiply → ∃ e, (g.inputEdges order n.id)[0]? = some e ∧
      (g.unfold (Node.standIn? name?) order [] e.source).expression.map Css.Expression.text ≠
        none := by
    intro hop
    obtain ⟨a, hedge, hsource⟩ := hproduct hop
    obtain ⟨e, he, rfl⟩ := Option.map_eq_some_iff.1 hedge
    have hsome := (isSome_expression order e.source horigin).2 hsource
    exact ⟨e, he, by simpa [Option.isSome_iff_ne_none] using hsome⟩
  obtain ⟨x, hx, hcomes⟩ := Css.comesTo_applyAll harithmetic hoperands hspare hfirst
    fun hop e he => hdivisor hop e.source (by simp [he])
  unfold Matches
  rw [h.preview_operation hn hk, h.text_operation hn hname hk]
  exact ⟨_, hx, .number hcomes⟩

def NameAgrees (g : Graph) (order : SlotOrder) (lookup : String → Option Float) (name : String)
    (id : NodeId) : Prop :=
  g.Arithmetic order id → ∃ x : Float, g.preview order id = .ok (some (.number x)) ∧
    Css.ComesTo lookup ("var(--" ++ name ++ ")") x

/-- Where names agree with previews, so does all that is written of arithmetic. -/
theorem Acyclic.matches_of_arithmetic (h : g.Acyclic) (hread : g.NumbersReadBack)
    (horigin : ∀ q name, name? q = some name → g.HasOrigin q)
    (hnames : ∀ q name, name? q = some name → g.NameAgrees order lookup name q)
    (ha : g.Arithmetic order id) : g.Matches order name? lookup id := by
  induction id using h.named_induction name? with
  | absent id hn =>
    refine ⟨none, preview_absent hn, ?_⟩
    rw [unfold_absent hn, Tree.expression_missing]
    exact .missing
  | named n name hn hname =>
    obtain ⟨x, hx, hcomes⟩ := hnames n.id name hname ha
    refine ⟨_, hx, ?_⟩
    rw [unfold_leaf hn (Node.standIn?_named hname), Tree.expression_leaf]
    exact .number hcomes
  | source n text hn hname hl =>
    have hcalc := ha.calculates hn
    cases hk : n.kind with
    | inputColor name color => simp [Calculates, hk] at hcalc
    | inputNumber name x =>
      simp only [Calculates, hk] at hcalc
      simp only [Node.literal?, hk, Option.some.injEq] at hl
      refine ⟨_, preview_number hn hk, ?_⟩
      rw [unfold_leaf hn (Node.standIn?_source hname (by rw [Node.literal?, hk])),
        Tree.expression_leaf, Option.map_some, Css.Expression.text]
      exact .number (Css.comesTo_text (hread n (mem_of_lastNode? hn).1 name x hk hcalc))
    | _ => simp [Node.literal?, hk] at hl
  | operation n op hn hname hl ho ih =>
    exact h.matches_operation horigin hn hname (Node.Kind.eq_operation ho) ha ih
  | unconnected n hn hname hl ho hpe =>
    have hkind := Node.isOutput_iff.2 ⟨hl, ho⟩
    refine ⟨none, ?_, ?_⟩
    · rw [h.preview_output hn hkind, producer?_of_no_edge hpe, Option.elim_none]
    · rw [h.unfold_output hn (Node.standIn?_inner hname hl) ho, hpe, Option.map_none,
        Option.getD_none, Tree.expression_missing]
      exact .missing
  | output n e hn hname hl ho hpe ih =>
    have hkind := Node.isOutput_iff.2 ⟨hl, ho⟩
    have hp := producer?_of_edge hpe
    unfold Matches
    rw [h.preview_output hn hkind, hp, h.unfold_output hn (Node.standIn?_inner hname hl) ho, hpe,
      Option.elim_some, Option.map_some, Option.getD_some, expression_unfoldEdge]
    exact ih (ha.operand hn (by simp [operands_output hkind, hp]))

end Graph

namespace Css

theorem declared?_of_nodup {vs : List Variable} (hnodup : (vs.map (·.name)).Nodup) {v : Variable}
    {name : String} (hv : v ∈ vs) (hname : v.name = "--" ++ name) :
    declared? vs name = some v := by
  have hrev : (vs.reverse.map (·.name)).Nodup := by
    rw [List.map_reverse, List.nodup_reverse]
    exact hnodup
  rw [declared?, ← hname]
  exact find?_of_nodup_map hrev (List.mem_reverse.2 hv)

end Css

namespace Graph

variable {g : Graph} {o : Options} {n : Node} {vs : List Css.Variable}

def ShowsPreview (g : Graph) (o : Options) (vs : List Css.Variable) (i : Nat) (d : Definition) :
    Prop :=
  g.Arithmetic o.slotOrder d.node → ∀ depth, i < depth → ∃ x : Float,
    g.preview o.slotOrder d.node = .ok (some (.number x)) ∧
      Css.evaluate? vs depth d.value.text = some x

theorem showsPreview_source (hid : g.UniqueIds) (hread : g.NumbersReadBack) {d : Definition}
    (hd : d ∈ g.sourceDefinitions o) (i : Nat) : g.ShowsPreview o vs i d := by
  intro ha depth hdepth
  obtain ⟨n, hmem, hnd⟩ := List.mem_filterMap.1 hd
  obtain ⟨hnode, _, text, htext, hvalue⟩ := Node.eq_some_of_sourceDefinition? hnd
  have hn := lastNode?_of_mem hid hmem
  rw [hnode] at ha ⊢
  have hcalc := ha.calculates hn
  cases hk : n.kind with
  | inputNumber name x =>
    simp only [Calculates, hk] at hcalc
    simp only [Node.literal?, hk, Option.some.injEq] at htext
    obtain ⟨depth, rfl⟩ := Nat.exists_eq_add_of_lt hdepth
    refine ⟨x, preview_number hn hk, Css.evaluate?_of_comesTo ?_⟩
    rw [hvalue, Css.Expression.text, ← htext]
    exact Css.comesTo_text (hread n hmem name x hk hcalc)
  | inputColor name color => simp [Calculates, hk] at hcalc
  | _ => simp [Node.literal?, hk] at htext

/-- A name in use comes to what the node of the name previews. -/
theorem nameAgrees_of_coherent {ds : List Definition} {name? : NodeId → Option String}
    (hcoherent : Coherent o ds name?) (hnodup : (vs.map (·.name)).Nodup)
    (hclosed : ∀ v ∈ vs, ')' ∉ v.name.toList) (hstart : ds.map Definition.toVariable <+: vs)
    (hds : ∀ i d, ds[i]? = some d → g.ShowsPreview o vs i d) {depth : Nat}
    (hdepth : ds.length ≤ depth) {q : NodeId} {name : String} (hname : name? q = some name) :
    g.NameAgrees o.slotOrder (Css.valueOf? vs depth) name q := by
  intro ha
  obtain ⟨j, hdeclared⟩ := hcoherent.declared q name hname
  have hj := hdeclared.lt
  obtain ⟨hfirst, hjname⟩ := hdeclared
  obtain ⟨d, hd, rfl⟩ := Option.map_eq_some_iff.1 hjname
  obtain ⟨_, hnode, _⟩ := List.findIdx?_eq_some_iff_getElem.1 hfirst
  obtain rfl : d.node = q := by
    rw [List.getElem?_eq_getElem hj, Option.some.injEq] at hd
    exact hd ▸ beq_iff_eq.1 hnode
  obtain ⟨x, hx, hvalue⟩ := hds j d hd ha depth (by omega)
  have hmem : d.toVariable ∈ vs :=
    hstart.subset (List.mem_map_of_mem (List.mem_of_getElem? hd))
  have hplain : ')' ∉ d.name.toList := by
    have hnot := hclosed _ hmem
    simp only [Definition.toVariable, Css.Variable.of, String.toList_append, List.mem_append,
      not_or] at hnot
    exact hnot.2
  refine ⟨x, hx, Css.comesTo_reference hplain ?_⟩
  rw [Css.valueOf?, Css.declared?_of_nodup hnodup hmem rfl]
  exact hvalue

theorem showsPreview_output (h : g.Acyclic) (hread : g.NumbersReadBack)
    {name? : NodeId → Option String} (horigin : ∀ q name, name? q = some name → g.HasOrigin q)
    {i : Nat} (hnames : ∀ depth, i ≤ depth → ∀ q name, name? q = some name →
      g.NameAgrees o.slotOrder (Css.valueOf? vs depth) name q) {d : Definition}
    (hd : g.outputDefinition? o name? n = some d) : g.ShowsPreview o vs i d := by
  intro ha depth hdepth
  obtain ⟨below, rfl⟩ := Nat.exists_eq_add_of_lt hdepth
  obtain ⟨v, hv, hagrees⟩ :=
    h.matches_of_arithmetic hread horigin (hnames (i + below) (Nat.le_add_right i below)) ha
  rw [expression_of_outputDefinition? hd, Option.map_some] at hagrees
  cases hagrees with
  | number hcomes => exact ⟨_, hv, Css.evaluate?_of_comesTo hcomes⟩

/-- By induction on the outputs: each refers to earlier variables only, and these show previews. -/
theorem showsPreview_progressOf (hid : g.UniqueIds) (h : g.Acyclic) (hread : g.NumbersReadBack)
    (hnodup : (vs.map (·.name)).Nodup) (hclosed : ∀ v ∈ vs, ')' ∉ v.name.toList)
    {outputs : List Node} (houtputs : ∀ n ∈ outputs, n ∈ g.nodes)
    (hstart : (g.progressOf o outputs).definitions.map Definition.toVariable <+: vs) (i : Nat)
    (d : Definition) (hi : (g.progressOf o outputs).definitions[i]? = some d) :
    g.ShowsPreview o vs i d := by
  induction outputs using List.reverseRecOn generalizing i d with
  | nil =>
    rw [progressOf_nil, sourceProgress_definitions] at hi
    exact showsPreview_source hid hread (List.mem_of_getElem? hi) i
  | append_singleton outputs n ih =>
    have hbefore : ∀ m ∈ outputs, m ∈ g.nodes := fun m hm => houtputs m (List.mem_append_left _ hm)
    rw [progressOf_append, Progress.addOutput_eq] at hi hstart
    cases hd : g.outputDefinition? o (g.progressOf o outputs).bindings.name? n with
    | none =>
      simp only [hd, Option.toList_none, List.append_nil] at hi hstart
      exact ih hbefore hstart i d hi
    | some d' =>
      simp only [hd, Option.toList_some, List.map_append] at hi hstart
      have hearlier := (List.prefix_append _ _).trans hstart
      have hshows := ih hbefore hearlier
      obtain hi | ⟨rfl, rfl⟩ := getElem?_concat_cases hi
      · exact hshows i d hi
      · refine showsPreview_output h hread (progressOf_names hid outputs hbefore).1 ?_ hd
        intro depth hdepth q name hname
        exact nameAgrees_of_coherent (coherent_progressOf hid outputs) hnodup hclosed hearlier
          hshows hdepth hname

/-- Where an output's value is computed from finite numbers by arithmetic alone, the text of its
variable comes to the number that its preview shows, through whatever variables it refers to. The
names must differ and leave the bracket that ends a reference alone. -/
theorem value?_eq_preview (hid : g.UniqueIds) (h : g.Acyclic)
    (hnodup : ((g.compile o).variables.map (·.name)).Nodup)
    (hclosed : ∀ v ∈ (g.compile o).variables, ')' ∉ v.name.toList) (hread : g.NumbersReadBack)
    {name : String} (hn : n ∈ g.nodes) (hname : n.outputName? o = some name)
    (horigin : g.HasOrigin n.id) (ha : g.Arithmetic o.slotOrder n.id) :
    ∃ v ∈ (g.compile o).variables, v.name = "--" ++ name ∧ ∃ x : Float,
      Css.value? (g.compile o).variables v.value = some x ∧
        g.preview o.slotOrder n.id = .ok (some (.number x)) := by
  obtain ⟨d, hd, rfl, hproducer⟩ := exists_definition hid hn hname horigin
  have hkind := Node.isOutput_of_outputName? hname
  have hlast := lastNode?_of_mem hid hn
  have hproduces : g.Arithmetic o.slotOrder d.node :=
    ha.operand hlast (by simp [operands_output hkind, hproducer])
  obtain ⟨i, hi, hget⟩ := List.getElem_of_mem hd
  have hshows := showsPreview_progressOf hid h hread hnodup hclosed (fun m => mem_of_mem_order)
    (List.prefix_refl _) i d (by rw [← definitions_eq, List.getElem?_eq_getElem hi, hget])
  have hlength : i < (g.compile o).variables.length + 1 := by
    rw [compile_variables, List.length_map]
    omega
  obtain ⟨x, hpreview, hvalue⟩ := hshows hproduces _ hlength
  refine ⟨d.toVariable, List.mem_map_of_mem hd, rfl, x, hvalue, ?_⟩
  rw [h.preview_output hlast hkind, hproducer, Option.elim_some, hpreview]

def tally : Graph where
  nodes := [{ id := "a", kind := .inputNumber "a" 3.25 }, { id := "b", kind := .inputNumber "" 0.5 },
    { id := "s", kind := .operation .add }, { id := "sum", kind := .output "sum" },
    { id := "p", kind := .operation .multiply }, { id := "d", kind := .operation .divide },
    { id := "t", kind := .output "" }, { id := "r", kind := .output "result" }]
  edges := [connection "a" "s" (some "a"), connection "b" "s" (some "b"), connection "s" "sum" none,
    connection "s" "p" (some "a"), connection "ghost" "p" (some "b"),
    connection "p" "d" (some "a"), connection "b" "d" (some "b"), connection "d" "t" none,
    connection "t" "r" none]

theorem numbersReadBack_tally : tally.NumbersReadBack := by
  intro n hn name x hk _
  simp only [tally, List.mem_cons, List.not_mem_nil, or_false] at hn
  obtain rfl | rfl | rfl | rfl | rfl | rfl | rfl | rfl := hn <;> cases hk <;> rfl

theorem calculates_tally {n : Node} (hn : n ∈ tally.nodes) : tally.Calculates .lexicographic n := by
  have hinput : tally.input? .lexicographic "d" 1 = some "b" := by decide
  have hvalue : tally.preview .lexicographic "b" = .ok (some (.number 0.5)) := rfl
  simp only [tally, List.mem_cons, List.not_mem_nil, or_false] at hn
  obtain rfl | rfl | rfl | rfl | rfl | rfl | rfl | rfl := hn
  · exact (by decide : Float.isFinite 3.25 = true)
  · exact (by decide : Float.isFinite 0.5 = true)
  · exact ⟨rfl, nofun, nofun⟩
  · trivial
  · exact ⟨rfl, fun _ => ⟨"s", by decide, by decide⟩, nofun⟩
  · refine ⟨rfl, nofun, fun _ a ha y hy => ?_⟩
    obtain rfl := Option.some.inj (hinput.symm.trans ha)
    cases hvalue.symm.trans hy
    decide
  · trivial
  · trivial

theorem value?_eq_preview_tally :
    tally.UniqueIds ∧ tally.Acyclic ∧ tally.NumbersReadBack ∧
      tally.Arithmetic .lexicographic "r" ∧
      (tally.compile {}).variables = [⟨"--a", "3.25"⟩, ⟨"--sum", "calc(var(--a) + 0.5)"⟩,
        ⟨"--result", "calc(calc(var(--sum) * 1) / 0.5)"⟩] ∧
      ∃ v ∈ (tally.compile {}).variables, v.name = "--" ++ "result" ∧ ∃ x : Float,
        Css.value? (tally.compile {}).variables v.value = some x ∧
          tally.preview .lexicographic "r" = .ok (some (.number x)) := by
  have hid : tally.UniqueIds := by decide
  have h : tally.Acyclic := by decide
  have ha : tally.Arithmetic .lexicographic "r" :=
    AllArithmetic.arithmetic h fun n hn _ => calculates_tally (mem_of_lastNode? hn).1
  refine ⟨hid, h, numbersReadBack_tally, ha, by decide, ?_⟩
  exact value?_eq_preview (n := { id := "r", kind := .output "result" }) hid h (by decide)
    (by decide) numbersReadBack_tally (by simp [tally]) rfl (by decide) ha

end Graph
end ColorGraph
