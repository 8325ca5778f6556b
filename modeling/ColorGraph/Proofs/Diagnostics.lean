import ColorGraph.Proofs.ClosedForm
/-!
Diagnostics with and without reuse. Main statement: in a graph without cycles both are the same,
since what a reference leaves out has been reported before.
-/

set_option autoImplicit false

namespace ColorGraph

open Compile

namespace Compile.Options

def withReuse (o : Options) (reuse : Bool) : Options :=
  { o with reuseBindings := reuse }

end Compile.Options

theorem Log.reportAll_flatMap_congr {α : Type} {f₁ f₂ : α → List Diagnostic} {P : Log → Prop}
    {es : List α} {log : Log} (hlog : P log)
    (hmono : ∀ log ds, P log → P (Log.reportAll log ds))
    (h : ∀ e ∈ es, ∀ log, P log → Log.reportAll log (f₁ e) = Log.reportAll log (f₂ e)) :
    log.reportAll (es.flatMap f₁) = log.reportAll (es.flatMap f₂) := by
  induction es generalizing log with
  | nil => rfl
  | cons e es ih =>
    have he := h e List.mem_cons_self log hlog
    have hes := ih (hmono log (f₂ e) hlog) fun e' he' => h e' (List.mem_cons_of_mem _ he')
    rw [List.flatMap_cons, List.flatMap_cons, Log.reportAll_append, Log.reportAll_append, he, hes]

namespace Graph

variable {g : Graph} {o : Options} {order : SlotOrder} {id : NodeId} {n : Node} {log : Log}
  {few? more? : NodeId → Option String}

def namedTree (g : Graph) (name? : NodeId → Option String) (order : SlotOrder) (id : NodeId) :
    Tree Css.Expression :=
  g.unfold (Node.standIn? name?) order [] id

/-- What is under the nodes that have names now and had none has been reported. -/
def Covers (g : Graph) (few? more? : NodeId → Option String) (order : SlotOrder) (log : Log) :
    Prop :=
  ∀ x, few? x = none → (more? x).isSome → ∀ d ∈ (g.namedTree few? order x).reports, d ∈ log

theorem Covers.reportAll (h : g.Covers few? more? order log) (ds : List Diagnostic) :
    g.Covers few? more? order (log.reportAll ds) := by
  intro x hfew hmore d hd
  exact Log.mem_reportAll.2 (.inl (h x hfew hmore d hd))

theorem reportAll_unfoldEdge (e : Edge)
    (h : log.reportAll (g.namedTree more? order e.source).reports =
      log.reportAll (g.namedTree few? order e.source).reports) :
    log.reportAll (g.unfoldEdge (Node.standIn? more?) order [] e).reports =
      log.reportAll (g.unfoldEdge (Node.standIn? few?) order [] e).reports := by
  unfold unfoldEdge
  split
  · exact h
  · rfl

theorem Acyclic.reportAll_namedTree (h : g.Acyclic)
    (hext : ∀ x name, few? x = some name → more? x = some name)
    (hlog : g.Covers few? more? order log) :
    log.reportAll (g.namedTree more? order id).reports =
      log.reportAll (g.namedTree few? order id).reports := by
  have hless : ∀ {x : NodeId}, more? x = none → few? x = none := by
    intro x hmore
    cases hfew : few? x with
    | none => rfl
    | some name =>
      rw [hext x name hfew] at hmore
      cases hmore
  induction id using h.named_induction more? generalizing log with
  | absent id hn => rw [namedTree, namedTree, unfold_absent hn, unfold_absent hn]
  | named n name hn hmore =>
    rw [namedTree, unfold_leaf hn (Node.standIn?_named hmore), Tree.reports, Log.reportAll_nil]
    cases hfew : few? n.id with
    | some name' =>
      rw [namedTree, unfold_leaf hn (Node.standIn?_named hfew), Tree.reports, Log.reportAll_nil]
    | none =>
      -- the name cuts this walk short, but what is behind it has been reported
      have hsome : (more? n.id).isSome := by rw [hmore, Option.isSome_some]
      exact (Log.reportAll_eq_self (hlog n.id hfew hsome)).symm
  | source n text hn hmore hl =>
    have hs := Node.standIn?_source hmore hl
    have hs' := Node.standIn?_source (hless hmore) hl
    rw [namedTree, namedTree, unfold_leaf hn hs, unfold_leaf hn hs']
  | operation n op hn hmore hl ho ih =>
    have hs := Node.standIn?_inner hmore hl
    have hs' := Node.standIn?_inner (hless hmore) hl
    rw [namedTree, namedTree, h.unfold_operation hn hs ho, h.unfold_operation hn hs' ho,
      Tree.reports, Tree.reports, List.flatMap_map, List.flatMap_map]
    refine Log.reportAll_flatMap_congr hlog (fun _ ds hlog => hlog.reportAll ds) ?_
    intro e he log hlog
    exact reportAll_unfoldEdge e (ih e (feeds_of_mem_inputEdges he) hlog)
  | unconnected n hn hmore hl ho hpe =>
    have hs := Node.standIn?_inner hmore hl
    have hs' := Node.standIn?_inner (hless hmore) hl
    rw [namedTree, namedTree, h.unfold_output hn hs ho, h.unfold_output hn hs' ho, hpe]
    rfl
  | output n e hn hmore hl ho hpe ih =>
    have hs := Node.standIn?_inner hmore hl
    have hs' := Node.standIn?_inner (hless hmore) hl
    rw [namedTree, namedTree, h.unfold_output hn hs ho, h.unfold_output hn hs' ho, hpe]
    exact reportAll_unfoldEdge e (ih hlog)

theorem Acyclic.reportAll_outputTree (h : g.Acyclic)
    (hext : ∀ x name, few? x = some name → more? x = some name)
    (hlog : g.Covers few? more? order log) :
    log.reportAll (g.outputTree more? order n).reports =
      log.reportAll (g.outputTree few? order n).reports := by
  unfold outputTree
  split
  · split
    · rfl
    · split
      · rfl
      next e _ => exact reportAll_unfoldEdge e (h.reportAll_namedTree hext hlog)
  · rfl

theorem reports_outputTree {name? : NodeId → Option String} {name : String} {p : NodeId}
    (hname : n.outputName? o = some name) (hp : g.producer? n.id = some p) :
    ∀ d ∈ (g.namedTree name? order p).reports, d ∈ (g.outputTree name? order n).reports := by
  obtain ⟨e, he, rfl⟩ := Option.map_eq_some_iff.1 hp
  intro d hd
  rw [outputTree_of_name hname he, unfoldEdge]
  split
  · exact hd
  next hn =>
    rw [namedTree, unfold_absent (Option.not_isSome_iff_eq_none.1 hn)] at hd
    simp at hd

/-- With reuse the same is reported by every output, and no name hides anything. -/
theorem Acyclic.log_withReuse (h : g.Acyclic) (hid : g.UniqueIds) (outputs : List Node) :
    (g.progressOf (o.withReuse true) outputs).log = (g.progressOf (o.withReuse false) outputs).log ∧
      g.Covers (g.sourceName? o) (g.progressOf (o.withReuse true) outputs).bindings.name?
        o.slotOrder (g.progressOf (o.withReuse true) outputs).log := by
  induction outputs using List.reverseRecOn with
  | nil =>
    refine ⟨rfl, fun x hfew hmore => ?_⟩
    have hnames := sourceProgress_name? (o := o.withReuse true) hid
    rw [progressOf_nil, hnames] at hmore
    have hsource : g.sourceName? o x = g.sourceName? (o.withReuse true) x := rfl
    rw [← hsource, hfew] at hmore
    cases hmore
  | append_singleton outputs n ih =>
    obtain ⟨hlog, hcovers⟩ := ih
    have hfew := (progressOf_of_not_reuse (o := o.withReuse false) hid rfl outputs).1
    have hext : ∀ x name, g.sourceName? o x = some name →
        (g.progressOf (o.withReuse true) outputs).bindings.name? x = some name := by
      intro x name hname
      have hmore := (h.progressOf_eq (o := o.withReuse true) hid outputs).1
      rw [hmore]
      exact Option.or_eq_some_iff.2 (.inl hname)
    have hstep := h.reportAll_outputTree (n := n) hext hcovers
    rw [progressOf_append, progressOf_append, Progress.addOutput_eq, Progress.addOutput_eq, hfew]
    refine ⟨hstep.trans (by rw [hlog]; rfl), ?_⟩
    have hold := hcovers.reportAll (g.outputTree (g.sourceName? o) o.slotOrder n).reports
    rw [← hstep] at hold
    cases hx : g.outputDefinition? (o.withReuse true)
        (g.progressOf (o.withReuse true) outputs).bindings.name? n with
    | none => exact hold
    | some d =>
      obtain ⟨hname, hproducer, _⟩ := eq_some_of_outputDefinition? hx
      intro x hnone hsome
      by_cases hxd : x = d.node
      · intro y hy
        have hreports := reports_outputTree hname hproducer y (hxd ▸ hy)
        exact hstep ▸ Log.mem_reportAll.2 (.inr hreports)
      · have hbefore : ((g.progressOf (o.withReuse true) outputs).bindings.name? x).isSome := by
          simpa [Options.withReuse, Bindings.name?_setNew, hxd] using hsome
        exact hold x hnone hbefore

theorem Acyclic.diagnostics_withReuse (h : g.Acyclic) (hid : g.UniqueIds) :
    (g.compile (o.withReuse true)).diagnostics = (g.compile (o.withReuse false)).diagnostics := by
  have hlog := (h.log_withReuse (o := o) hid (Index.of g).outputOrder.order).1
  exact congrArg (_ ++ ·) hlog

end Graph
end ColorGraph
