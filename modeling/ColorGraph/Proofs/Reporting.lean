import ColorGraph.Proofs.Walks
/-!
What a compilation reports. Main statements: on every graph an edge from nowhere is reported just
where compiling a named output follows it, a node is reported to feed itself only where it does, and
no circle behind a named output goes without a report.
-/

set_option autoImplicit false

namespace ColorGraph

open Compile Relation

namespace Node

def IsNamedOutput (n : Node) : Prop :=
  ∃ name, n.kind = .output name ∧ name ≠ ""

theorem IsNamedOutput.isOutput {n : Node} (h : n.IsNamedOutput) : n.kind.isOutput = true := by
  obtain ⟨name, hk, _⟩ := h
  rw [hk]
  rfl

theorem isNamedOutput_iff {n : Node} {o : Options} :
    n.IsNamedOutput ↔ ∃ name, n.outputName? o = some name := by
  unfold IsNamedOutput outputName?
  cases n.kind with
  | output name => by_cases h : name = "" <;> simp [h]
  | _ => simp

end Node

theorem Log.nodup_reportAll {log : Log} (h : log.Nodup) (ds : List Diagnostic) :
    (log.reportAll ds).Nodup := by
  induction ds generalizing log with
  | nil => exact h
  | cons d ds ih => exact ih (nodup_report h d)

namespace Graph

variable {g : Graph} {o : Options} {order : SlotOrder} {id : NodeId} {n : Node} {d : Diagnostic}
  {log log' : Log} {name? : NodeId → Option String} {outputs before after : List Node}

theorem lastNode?_eq_none_iff : g.lastNode? id = none ↔ id ∉ g.nodes.map (·.id) := by
  simp [lastNode?]

/-- What a diagnostic of a compilation stands for. -/
inductive Warrants (g : Graph) : Diagnostic → Prop
  | unnamed {n : Node} (hn : n ∈ g.nodes) (hname : n.kind.exportName? = some "") :
    Warrants g (.unnamedNode n.id)
  | disconnected {n : Node} (hn : n ∈ g.nodes) (hname : n.IsNamedOutput)
    (he : g.producerEdge? n.id = none) : Warrants g (.disconnectedOutput n.id)
  | gap {n : Node} {d : Diagnostic} (hn : n ∈ g.nodes) (hname : n.IsNamedOutput)
    (hgap : g.Gap n.id d) : Warrants g d

theorem warrants_of_mem_sourceReports (hn : n ∈ g.nodes) (hd : d ∈ n.sourceReports) :
    g.Warrants d := by
  have hunnamed : n.kind.exportName? = some "" ∧ d = .unnamedNode n.id := by
    unfold Node.sourceReports at hd
    cases hk : n.kind <;> simp_all [Node.Kind.exportName?]
  obtain ⟨hname, rfl⟩ := hunnamed
  exact .unnamed hn hname

/-- An output without a name or an edge is reported itself, and else what its tree leaves open. -/
theorem mem_reports_outputTree (hk : n.kind.isOutput = true) :
    d ∈ (g.outputTree name? order n).reports ↔
      n.kind = .output "" ∧ d = .unnamedNode n.id ∨
        n.IsNamedOutput ∧ (g.producerEdge? n.id = none ∧ d = .disconnectedOutput n.id ∨
          ∃ e, g.producerEdge? n.id = some e ∧
            d ∈ (g.unfoldEdge (Node.standIn? name?) order [] e).reports) := by
  unfold outputTree Node.IsNamedOutput
  cases hkind : n.kind with
  | output name =>
    by_cases h : name = ""
    · simp [h]
    · cases g.producerEdge? n.id <;> simp [h]
  | _ => simp [hkind, Node.Kind.isOutput] at hk

theorem warrants_of_mem_outputTree (hid : g.UniqueIds) (hn : n ∈ g.nodes)
    (hd : d ∈ (g.outputTree name? order n).reports) : g.Warrants d := by
  have hk : n.kind.isOutput = true := by
    unfold outputTree at hd
    cases hk : n.kind <;> simp_all [Node.Kind.isOutput]
  obtain ⟨hunnamed, rfl⟩ | ⟨hname, ⟨hnone, rfl⟩ | ⟨e, he, hd⟩⟩ :=
    (mem_reports_outputTree hk).1 hd
  · exact .unnamed hn (by rw [hunnamed]; rfl)
  · exact .disconnected hn hname hnone
  · obtain ⟨hfollows, ht⟩ := follows_of_producerEdge? (lastNode?_of_mem hid hn) hk he
    obtain hd | ⟨hs, rfl⟩ := mem_reports_unfoldEdge.1 hd
    · have hgap := gap_of_mem_reports (List.forall_mem_nil _) hd
      exact .gap hn hname (hgap.trans (.single (ht ▸ hfollows.leads)))
    · exact .gap hn hname (.missing hfollows hs (ht ▸ .refl))

theorem log_progressOf_append : (g.progressOf o (outputs ++ [n])).log =
    (g.progressOf o outputs).log.reportAll
      (g.outputTree (g.progressOf o outputs).bindings.name? o.slotOrder n).reports := by
  rw [progressOf_append, Progress.addOutput_eq]

theorem log_sourceProgress :
    (g.sourceProgress o).log = Log.reportAll [] (g.nodes.flatMap Node.sourceReports) :=
  (Progress.addSources_eq {} g.nodes).2

theorem warrants_of_mem_log (hid : g.UniqueIds) (houtputs : ∀ n ∈ outputs, n ∈ g.nodes)
    (hd : d ∈ (g.progressOf o outputs).log) : g.Warrants d := by
  induction outputs using List.reverseRecOn with
  | nil =>
    rw [progressOf_nil, log_sourceProgress, Log.mem_reportAll] at hd
    obtain ⟨n, hn, hdn⟩ := List.mem_flatMap.1 (hd.resolve_left List.not_mem_nil)
    exact warrants_of_mem_sourceReports hn hdn
  | append_singleton outputs n ih =>
    rw [log_progressOf_append, Log.mem_reportAll] at hd
    obtain hd | hd := hd
    · exact ih (fun m hm => houtputs m (List.mem_append_left _ hm)) hd
    · exact warrants_of_mem_outputTree hid (houtputs n (by simp)) hd

theorem nodup_log : (g.progressOf o outputs).log.Nodup := by
  induction outputs using List.reverseRecOn with
  | nil =>
    rw [progressOf_nil, log_sourceProgress]
    exact Log.nodup_reportAll List.nodup_nil _
  | append_singleton outputs n ih =>
    rw [log_progressOf_append]
    exact Log.nodup_reportAll ih _

theorem log_subset_append :
    (g.progressOf o before).log ⊆ (g.progressOf o (before ++ after)).log := by
  induction after using List.reverseRecOn with
  | nil => rw [List.append_nil]; exact List.Subset.refl _
  | append_singleton after n ih =>
    rw [← List.append_assoc, log_progressOf_append]
    exact fun d hd => Log.mem_reportAll.2 (.inl (ih hd))

/-- The log leaves nothing out that a walk back from the node comes upon: it has every edge from
nowhere and, unless the walk ends everywhere, a node that feeds itself. -/
structure Searched (g : Graph) (log : Log) (id : NodeId) : Prop where
  missing : ∀ e : Edge, g.Follows e → g.lastNode? e.source = none →
    ReflTransGen g.Leads e.target id → .missingNode e.id e.source ∈ log
  cyclic : (∀ x, .cyclicInput x ∉ log) → Acc g.Leads id

theorem Searched.mono (h : g.Searched log id) (hlog : log ⊆ log') : g.Searched log' id where
  missing e he hs hwalk := hlog (h.missing e he hs hwalk)
  cyclic hnone := h.cyclic fun x hx => hnone x (hlog hx)

theorem searched_of_inputs (h : ∀ e : Edge, g.Follows e → e.target = id →
    (g.lastNode? e.source = none → .missingNode e.id e.source ∈ log) ∧
      g.Searched log e.source) : g.Searched log id where
  missing e he hs hwalk := by
    obtain heq | ⟨_, hwalk, f, hf, rfl, hft⟩ := hwalk.cases_tail
    · exact (h e he heq.symm).1 hs
    · exact (h f hf hft).2.missing e he hs hwalk
  cyclic hnone := by
    refine .intro _ ?_
    rintro _ ⟨e, he, rfl, ht⟩
    exact (h e he ht).2.cyclic hnone

theorem searched_of_reports (hnames : ∀ x, (name? x).isSome → g.Searched log x)
    (hreports : ∀ d ∈ (g.unfold (Node.standIn? name?) order [] id).reports, d ∈ log) :
    g.Searched log id where
  missing e he hs hwalk := by
    by_cases hid : Stops name? [] id
    · exact (hnames id (hid.resolve_left List.not_mem_nil)).missing e he hs hwalk
    obtain hclear | ⟨x, hx, hwalk⟩ := hwalk.clear_or_stopped (Stops name? [])
    · exact hreports _ (missing_mem_reports hid he hs hclear)
    · exact (hnames x (hx.resolve_left List.not_mem_nil)).missing e he hs hwalk
  cyclic hnone := acc_of_reports (fun x hx => (hnames x hx).cyclic hnone)
    fun x hx => hnone x (hreports _ hx)

theorem searched_of_sourceName? (h : (g.sourceName? o id).isSome) : g.Searched log id := by
  obtain ⟨name, hname⟩ := Option.isSome_iff_exists.1 h
  obtain ⟨n, hn, hname⟩ := Option.bind_eq_some_iff.1 hname
  obtain ⟨text, hl⟩ := Node.exists_literal_of_sourceName? hname
  exact searched_of_inputs fun e he ht => absurd he (not_follows_into_source (ht ▸ hn) hl)

theorem searched_output (hn : g.lastNode? n.id = some n) (hname : n.IsNamedOutput)
    (hnames : ∀ x, (name? x).isSome → g.Searched log x)
    (hreports : ∀ d ∈ (g.outputTree name? order n).reports, d ∈ log) :
    g.Searched log n.id ∧ ∀ p, g.producer? n.id = some p → g.Searched log p := by
  have hk := hname.isOutput
  have hedge : ∀ e, g.producerEdge? n.id = some e →
      ∀ d ∈ (g.unfoldEdge (Node.standIn? name?) order [] e).reports, d ∈ log :=
    fun e he d hd => hreports d ((mem_reports_outputTree hk).2 (.inr ⟨hname, .inr ⟨e, he, hd⟩⟩))
  have hsource : ∀ e, g.producerEdge? n.id = some e → g.Searched log e.source :=
    fun e he => searched_of_reports hnames fun d hd =>
      hedge e he d (mem_reports_unfoldEdge.2 (.inl hd))
  constructor
  · refine searched_of_inputs fun e he ht => ?_
    have hpe : g.producerEdge? n.id = some e := by
      have hmem : e ∈ g.followedEdges order n := (mem_followedEdges hn).2 ⟨he, ht⟩
      obtain ⟨name, hkind, _⟩ := hname
      simpa [followedEdges, hkind] using hmem
    exact ⟨fun hs => hedge e hpe _ (mem_reports_unfoldEdge.2 (.inr ⟨hs, rfl⟩)), hsource e hpe⟩
  · intro p hp
    obtain ⟨e, he, rfl⟩ := Option.map_eq_some_iff.1 hp
    exact hsource e he

/-- What is behind a node has been searched before the node gets a name. -/
theorem searched_progressOf (hid : g.UniqueIds) (houtputs : ∀ n ∈ outputs, n ∈ g.nodes) :
    (∀ x, ((g.progressOf o outputs).bindings.name? x).isSome →
        g.Searched (g.progressOf o outputs).log x) ∧
      ∀ n ∈ outputs, n.IsNamedOutput → g.Searched (g.progressOf o outputs).log n.id := by
  -- The two parts go together: the walk from an output stops at names, and what is behind these
  -- is in the log already, as the producer was searched when it got its name.
  induction outputs using List.reverseRecOn with
  | nil =>
    rw [progressOf_nil, sourceProgress_name? hid]
    exact ⟨fun x => searched_of_sourceName?, List.forall_mem_nil _⟩
  | append_singleton outputs n ih =>
    obtain ⟨hnames, houts⟩ := ih fun m hm => houtputs m (List.mem_append_left _ hm)
    have hn := lastNode?_of_mem hid (houtputs n (by simp))
    have hsubset : (g.progressOf o outputs).log ⊆ (g.progressOf o (outputs ++ [n])).log :=
      log_subset_append
    have hreports : ∀ d ∈
        (g.outputTree (g.progressOf o outputs).bindings.name? o.slotOrder n).reports,
        d ∈ (g.progressOf o (outputs ++ [n])).log := by
      intro d hd
      rw [log_progressOf_append]
      exact Log.mem_reportAll.2 (.inr hd)
    have hold := fun x hx => (hnames x hx).mono hsubset
    constructor
    · intro x hx
      obtain ⟨known, hx⟩ := Option.isSome_iff_exists.1 hx
      rw [progressOf_append] at hx
      obtain hx | ⟨d, hd, rfl⟩ := Progress.exists_of_name?_addOutput hx
      · exact hold x (by rw [hx]; rfl)
      · obtain ⟨hname, hp, _⟩ := eq_some_of_outputDefinition? hd
        have hnamed := Node.isNamedOutput_iff.2 ⟨_, hname⟩
        exact (searched_output hn hnamed hold hreports).2 d.node hp
    · intro m hm hname
      obtain hm | hm := List.mem_append.1 hm
      · exact (houts m hm hname).mono hsubset
      · obtain rfl := List.mem_singleton.1 hm
        exact (searched_output hn hname hold hreports).1

theorem mem_order_iff : n ∈ (Index.of g).outputOrder.order ↔ n ∈ g.nodes ∧ n.kind.isOutput = true :=
  (Index.outputOrder_perm (Index.of g)).mem_iff.trans List.mem_filter

def findings (g : Graph) (o : Options) : Log :=
  (g.progressOf o (Index.of g).outputOrder.order).log

theorem diagnostics_eq : (g.compile o).diagnostics =
    (if (Index.of g).outputOrder.cycle.isEmpty then []
      else [.cyclicOutputs (Index.of g).outputOrder.cycle]) ++ g.findings o := rfl

theorem mem_diagnostics_iff : d ∈ (g.compile o).diagnostics ↔
    (Index.of g).outputOrder.cycle ≠ [] ∧ d = .cyclicOutputs (Index.of g).outputOrder.cycle ∨
      d ∈ g.findings o := by
  rw [diagnostics_eq, List.mem_append]
  cases (Index.of g).outputOrder.cycle <;> simp

theorem warrants_of_mem (hid : g.UniqueIds) (hd : d ∈ g.findings o) : g.Warrants d :=
  warrants_of_mem_log hid (fun _ => mem_of_mem_order) hd

theorem searched_of_mem (hid : g.UniqueIds) (hn : n ∈ g.nodes) (hname : n.IsNamedOutput) :
    g.Searched (g.findings o) n.id :=
  (searched_progressOf hid fun _ => mem_of_mem_order).2 n
    (mem_order_iff.2 ⟨hn, hname.isOutput⟩) hname

theorem nodup_diagnostics (hid : g.UniqueIds) : (g.compile o).diagnostics.Nodup := by
  rw [diagnostics_eq, List.nodup_append]
  refine ⟨by split <;> simp, nodup_log, ?_⟩
  rintro _ ha d hd rfl
  split at ha
  · cases ha
  · rw [List.mem_singleton] at ha
    subst ha
    cases warrants_of_mem hid hd with
    | gap _ _ hgap => cases hgap

def BehindOutput (g : Graph) (id : NodeId) : Prop :=
  ∃ n ∈ g.nodes, n.IsNamedOutput ∧ ReflTransGen g.Leads id n.id

/-- A missing node is reported just for the edges that are followed from it, and nothing is reported
twice. -/
theorem missingNode_mem_diagnostics_iff (hid : g.UniqueIds) :
    (∀ edge node, .missingNode edge node ∈ (g.compile o).diagnostics ↔
      node ∉ g.nodes.map (·.id) ∧ ∃ e, e.id = edge ∧ e.source = node ∧ g.Follows e ∧
        g.BehindOutput e.target) ∧
      (g.compile o).diagnostics.Nodup := by
  refine ⟨fun edge node => ?_, nodup_diagnostics hid⟩
  rw [mem_diagnostics_iff, ← lastNode?_eq_none_iff]
  constructor
  · rintro (⟨_, h⟩ | h)
    · cases h
    · cases warrants_of_mem hid h with
      | gap hn hname hgap =>
        cases hgap with
        | missing he hs hwalk => exact ⟨hs, _, rfl, rfl, he, _, hn, hname, hwalk⟩
  · rintro ⟨hs, e, rfl, rfl, he, n, hn, hname, hwalk⟩
    exact .inr ((searched_of_mem hid hn hname).missing e he hs hwalk)

def looseEnds : Graph where
  nodes := [{ id := "c", kind := .inputColor "base" "red" }, { id := "m", kind := .operation .mix },
    { id := "r", kind := .operation .rotate }, { id := "i", kind := .operation .invert },
    { id := "o", kind := .output "mixed" }, { id := "p", kind := .output "" },
    { id := "q", kind := .output "turned" }, { id := "s", kind := .output "" }]
  edges := [connection "c" "m" (some "a"), connection "ghost" "m" (some "b"),
    connection "r" "m" (some "c"), connection "m" "r" (some "a"), connection "m" "o" none,
    connection "r" "p" none, connection "ghost" "p" none, connection "p" "q" none,
    connection "ghost" "i" none, connection "i" "s" none, connection "ghost" "c" none]

theorem missingNode_mem_diagnostics_iff_looseEnds :
    looseEnds.UniqueIds ∧ ¬ looseEnds.Acyclic ∧
      .missingNode "edge-ghost-m-b" "ghost" ∈ (looseEnds.compile {}).diagnostics ∧
      (∃ e, e.id = "edge-ghost-m-b" ∧ e.source = "ghost" ∧ looseEnds.Follows e ∧
        looseEnds.BehindOutput e.target) ∧
      ¬ ∃ e, e.id = "edge-ghost-p-in" ∧ e.source = "ghost" ∧ looseEnds.Follows e ∧
        looseEnds.BehindOutput e.target := by
  have hid : looseEnds.UniqueIds := by decide
  have h := (missingNode_mem_diagnostics_iff (o := {}) hid).1
  have hmem : .missingNode "edge-ghost-m-b" "ghost" ∈ (looseEnds.compile {}).diagnostics := by
    decide
  have hnot : .missingNode "edge-ghost-p-in" "ghost" ∉ (looseEnds.compile {}).diagnostics := by
    decide
  exact ⟨hid, by decide, hmem, ((h _ _).1 hmem).2,
    fun he => hnot ((h _ _).2 ⟨by decide, he⟩)⟩

/-- A node is reported to be met again only when it is on a circle behind a named output, and where
there is such a circle some node is. -/
theorem cyclicInput_mem_diagnostics (hid : g.UniqueIds) :
    (∀ x, .cyclicInput x ∈ (g.compile o).diagnostics →
      TransGen g.Leads x x ∧ g.BehindOutput x) ∧
      ((∃ x, TransGen g.Leads x x ∧ g.BehindOutput x) →
        ∃ x, .cyclicInput x ∈ (g.compile o).diagnostics) ∧
      (g.Acyclic → ∀ x, .cyclicInput x ∉ (g.compile o).diagnostics) := by
  have hsound : ∀ x, .cyclicInput x ∈ (g.compile o).diagnostics →
      TransGen g.Leads x x ∧ g.BehindOutput x := by
    intro x hx
    obtain ⟨_, h⟩ | h := mem_diagnostics_iff.1 hx
    · cases h
    · cases warrants_of_mem hid h with
      | gap hn hname hgap =>
        cases hgap with
        | cyclic hx hwalk => exact ⟨hx, _, hn, hname, hwalk⟩
  refine ⟨hsound, ?_, fun h x hx => h x ?_⟩
  · rintro ⟨x, hx, n, hn, hname, hwalk⟩
    by_contra hnone
    have hacc := (searched_of_mem (o := o) hid hn hname).cyclic fun y hy =>
      hnone ⟨y, mem_diagnostics_iff.2 (.inr hy)⟩
    exact hwalk.not_transGen_of_acc hacc hx
  · exact TransGen.mono (fun _ _ => Leads.feeds) _ _ (hsound x hx).1

/-- The rotation feeds itself too, but the mix has a name by the time it is met. -/
theorem cyclicInput_mem_diagnostics_looseEnds :
    looseEnds.UniqueIds ∧ .cyclicInput "m" ∈ (looseEnds.compile {}).diagnostics ∧
      .cyclicInput "r" ∉ (looseEnds.compile {}).diagnostics ∧
      TransGen looseEnds.Leads "m" "m" ∧ looseEnds.BehindOutput "m" ∧
      ∃ x, .cyclicInput x ∈ (looseEnds.compile { reuseBindings := false }).diagnostics := by
  have hid : looseEnds.UniqueIds := by decide
  have hmem : .cyclicInput "m" ∈ (looseEnds.compile {}).diagnostics := by decide
  obtain ⟨hcircle, hbehind⟩ := (cyclicInput_mem_diagnostics hid).1 "m" hmem
  exact ⟨hid, hmem, by decide, hcircle, hbehind,
    (cyclicInput_mem_diagnostics hid).2.1 ⟨"m", hcircle, hbehind⟩⟩

end Graph
end ColorGraph
