import ColorGraph.Proofs.EdgeOrder
/-!
The set that a search for ancestors ends with. Main statement: in whatever order it takes the ids
that wait, a search stops after so many turns with exactly the ids at the start of some path of one
edge or more, and how the edges are listed makes no difference.
-/

set_option autoImplicit false

namespace ColorGraph

namespace Graph

def IsPath (g : Graph) : NodeId → List Edge → NodeId → Prop
  | a, [], b => a = b
  | a, e :: path, b => e ∈ g.edges ∧ e.source = a ∧ g.IsPath e.target path b

/-- A path back to where it begins that leaves no id twice. -/
def IsCycle (g : Graph) (cycle : List Edge) : Prop :=
  cycle ≠ [] ∧ (cycle.map (·.source)).Nodup ∧ ∃ id, g.IsPath id cycle id

variable {g : Graph} {a b c id start : NodeId} {e : Edge} {path before after cycle : List Edge}

theorem IsPath.append (hbefore : g.IsPath a before b) (hafter : g.IsPath b after c) :
    g.IsPath a (before ++ after) c := by
  induction before generalizing a with
  | nil =>
    obtain rfl : a = b := hbefore
    exact hafter
  | cons e before ih => exact ⟨hbefore.1, hbefore.2.1, ih hbefore.2.2⟩

theorem IsPath.split (h : g.IsPath a (before ++ e :: after) b) :
    g.IsPath a before e.source ∧ g.IsPath e.source (e :: after) b := by
  induction before generalizing a with
  | nil =>
    obtain ⟨he, rfl, hrest⟩ := h
    exact ⟨rfl, he, rfl, hrest⟩
  | cons f before ih =>
    obtain ⟨hf, hs, hrest⟩ := h
    obtain ⟨hbefore, hafter⟩ := ih hrest
    exact ⟨⟨hf, hs, hbefore⟩, hafter⟩

theorem upstream_of_isPath (hne : path ≠ []) (h : g.IsPath a path b) : g.Upstream a b := by
  induction path generalizing a with
  | nil => exact absurd rfl hne
  | cons e path ih =>
    obtain ⟨he, rfl, hrest⟩ := h
    have hfeeds : g.Feeds e.source e.target := ⟨e, he, rfl, rfl⟩
    cases path with
    | nil =>
      obtain rfl : e.target = b := hrest
      exact .single hfeeds
    | cons f path => exact .head hfeeds (ih (List.cons_ne_nil f path) hrest)

theorem upstream_iff_isPath : g.Upstream a b ↔ ∃ path, path ≠ [] ∧ g.IsPath a path b := by
  constructor
  · intro h
    induction h using Relation.TransGen.head_induction_on with
    | single hf =>
      obtain ⟨e, he, rfl, rfl⟩ := hf
      exact ⟨[e], List.cons_ne_nil _ _, he, rfl, rfl⟩
    | head hf _ ih =>
      obtain ⟨e, he, rfl, rfl⟩ := hf
      obtain ⟨path, _, hpath⟩ := ih
      exact ⟨e :: path, List.cons_ne_nil _ _, he, rfl, hpath⟩
  · rintro ⟨path, hne, hpath⟩
    exact upstream_of_isPath hne hpath

/-- Without its detours, a path leaves no id twice. -/
theorem IsPath.exists_nodup (hne : path ≠ []) (h : g.IsPath a path b) :
    ∃ short, short ≠ [] ∧ (short.map (·.source)).Nodup ∧ g.IsPath a short b := by
  induction path generalizing a with
  | nil => exact absurd rfl hne
  | cons e path ih =>
    obtain ⟨he, rfl, hrest⟩ := h
    obtain ⟨tail, hnodup, htail⟩ :
        ∃ tail : List Edge, (tail.map (·.source)).Nodup ∧ g.IsPath e.target tail b := by
      by_cases hpath : path = []
      · subst hpath
        exact ⟨[], List.nodup_nil, hrest⟩
      · obtain ⟨tail, _, htail⟩ := ih hpath hrest
        exact ⟨tail, htail⟩
    by_cases hmem : e.source ∈ tail.map (·.source)
    · obtain ⟨f, hf, hsource⟩ := List.mem_map.1 hmem
      obtain ⟨before, after, rfl⟩ := List.append_of_mem hf
      rw [List.map_append, List.nodup_append] at hnodup
      exact ⟨f :: after, List.cons_ne_nil _ _, hnodup.2.1, hsource ▸ htail.split.2⟩
    · exact ⟨e :: tail, List.cons_ne_nil _ _, hnodup.cons hmem, he, rfl, htail⟩

theorem upstream_self_iff_isCycle :
    g.Upstream id id ↔ ∃ cycle, g.IsCycle cycle ∧ id ∈ cycle.map (·.source) := by
  constructor
  · intro h
    obtain ⟨path, hne, hpath⟩ := upstream_iff_isPath.1 h
    obtain ⟨cycle, hcycle, hnodup, hback⟩ := hpath.exists_nodup hne
    refine ⟨cycle, ⟨hcycle, hnodup, id, hback⟩, ?_⟩
    obtain ⟨e, rest, rfl⟩ := List.exists_cons_of_ne_nil hcycle
    exact hback.2.1 ▸ List.mem_cons_self
  · rintro ⟨cycle, ⟨_, _, base, hback⟩, hmem⟩
    obtain ⟨e, he, rfl⟩ := List.mem_map.1 hmem
    obtain ⟨before, after, rfl⟩ := List.append_of_mem he
    obtain ⟨hbefore, hafter⟩ := hback.split
    have hround := hafter.append hbefore
    exact upstream_of_isPath (by simp) hround

/-- A search for ancestors runs to its end, and it ends with the ids that paths lead from. -/
theorem ancestors_exact (g : Graph) (start : NodeId) :
    (∀ n s, Search.Turns g n (Search.upFrom g start) s →
      n ≤ ((Index.of g).sources start).length + g.edges.length ∧
      (s.waiting ≠ [] → ∃ t, Search.Turn g s t) ∧
      (s.waiting = [] → s.seen.Perm ((Index.of g).ancestors start))) ∧
    ((Index.of g).ancestors start).Nodup ∧
    (∀ x, x ∈ (Index.of g).ancestors start ↔ ∃ path, path ≠ [] ∧ g.IsPath x path start) ∧
    (start ∈ (Index.of g).ancestors start ↔
      ∃ cycle, g.IsCycle cycle ∧ start ∈ cycle.map (·.source)) ∧
    ∀ edges, edges.Perm g.edges →
      ((Index.of (g.withEdges edges)).ancestors start).Perm ((Index.of g).ancestors start) := by
  have hnodup := Index.nodup_ancestors g start
  refine ⟨fun n s hturns => ⟨?_, Search.exists_turn, fun hover => ?_⟩, hnodup, fun x => ?_, ?_,
    fun edges hperm => ?_⟩
  · have hcount := hturns.turnsLeft_eq
    have hfirst := Search.turnsLeft_upFrom g start
    omega
  · have hs := hturns.upholds (Search.upFrom_upholds g start)
    refine (List.perm_ext_iff_of_nodup hs.nodup hnodup).2 fun x => ?_
    rw [hs.mem_seen_iff hover, Index.mem_ancestors]
  · rw [Index.mem_ancestors, upstream_iff_isPath]
  · rw [Index.mem_ancestors, upstream_self_iff_isCycle]
  · refine (List.perm_ext_iff_of_nodup (Index.nodup_ancestors _ start) hnodup).2 fun x => ?_
    rw [Index.mem_ancestors, Index.mem_ancestors, upstream_withEdges hperm]

theorem ancestors_exact_pinwheel :
    Search.Turns pinwheel 6 (Search.upFrom pinwheel "m") ⟨[], ["m", "ghost", "r", "c"]⟩ ∧
      6 ≤ ((Index.of pinwheel).sources "m").length + pinwheel.edges.length ∧
      ["m", "ghost", "r", "c"].Perm ((Index.of pinwheel).ancestors "m") ∧
      (∃ path, path ≠ [] ∧ pinwheel.IsPath "ghost" path "m") ∧
      (∃ cycle, pinwheel.IsCycle cycle ∧ "m" ∈ cycle.map (·.source)) ∧
      (¬ ∃ path, path ≠ [] ∧ pinwheel.IsPath "o" path "m") ∧
      pinwheel.edges.reverse.Perm pinwheel.edges ∧
      ((Index.of (pinwheel.withEdges pinwheel.edges.reverse)).ancestors "m").Perm
        ((Index.of pinwheel).ancestors "m") := by
  have hturns : Search.Turns pinwheel 6 (Search.upFrom pinwheel "m")
      ⟨[], ["m", "ghost", "r", "c"]⟩ :=
    .more (@Search.Turn.new _ _ "c" ["r"] ["r"] (by decide) (by decide) (by decide)) <|
    .more (@Search.Turn.new _ _ "r" [] ["m", "ghost"] (by decide) (by decide) (by decide)) <|
    .more (@Search.Turn.new _ _ "ghost" ["m"] ["m"] (by decide) (by decide) (by decide)) <|
    .more (@Search.Turn.new _ _ "m" [] ["r", "c"] (by decide) (by decide) (by decide)) <|
    .more (@Search.Turn.known _ _ "c" ["r"] (by decide) (by decide)) <|
    .more (@Search.Turn.known _ _ "r" [] (by decide) (by decide)) .none
  have hperm : pinwheel.edges.reverse.Perm pinwheel.edges := List.reverse_perm _
  obtain ⟨hsearch, _, hpath, hcycle, horder⟩ := ancestors_exact pinwheel "m"
  obtain ⟨hturnsLeft, _, hover⟩ := hsearch 6 _ hturns
  exact ⟨hturns, hturnsLeft, hover rfl, (hpath "ghost").1 (by decide), hcycle.1 (by decide),
    mt (hpath "o").2 (by decide), hperm, horder _ hperm⟩

end Graph
end ColorGraph
