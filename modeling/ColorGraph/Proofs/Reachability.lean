import ColorGraph.Graph.Ancestors
import Mathlib.Logic.Relation
import Mathlib.Order.WellFoundedSet
/-!
Paths through a graph. Main statements: the ancestors of an id are the ids that a path of one edge
or more leads from, whichever of the ids that wait a search takes next, and a graph without cycles
can be walked backward only so far.
-/

set_option autoImplicit false

namespace ColorGraph

namespace Graph

def Feeds (g : Graph) (a b : NodeId) : Prop :=
  ∃ e ∈ g.edges, e.source = a ∧ e.target = b

/-- A path of one edge or more leads from `a` to `b`. -/
def Upstream (g : Graph) : NodeId → NodeId → Prop :=
  Relation.TransGen g.Feeds

def Acyclic (g : Graph) : Prop :=
  ∀ id, ¬ g.Upstream id id

def producerEdge? (g : Graph) (id : NodeId) : Option Edge :=
  (g.edgesInto id).head?

def producer? (g : Graph) (id : NodeId) : Option NodeId :=
  (g.producerEdge? id).map (·.source)

def inputEdges (g : Graph) (order : SlotOrder) (id : NodeId) : List Edge :=
  order.sort (g.edgesInto id)

variable {g : Graph} {a b id : NodeId}

theorem feeds_of_mem_edgesInto {e : Edge} (h : e ∈ g.edgesInto id) : g.Feeds e.source id := by
  obtain ⟨he, ht⟩ := List.mem_filter.1 h
  exact ⟨e, he, rfl, beq_iff_eq.1 ht⟩

theorem feeds_of_mem_inputEdges {order : SlotOrder} {e : Edge} (h : e ∈ g.inputEdges order id) :
    g.Feeds e.source id :=
  feeds_of_mem_edgesInto ((SlotOrder.sort_perm order _).mem_iff.1 h)

theorem feeds_of_producerEdge? {e : Edge} (h : g.producerEdge? id = some e) :
    g.Feeds e.source id :=
  feeds_of_mem_edgesInto (List.mem_of_mem_head? h)

theorem producer?_of_edge {e : Edge} (h : g.producerEdge? id = some e) :
    g.producer? id = some e.source := by
  rw [producer?, h, Option.map_some]

theorem producer?_of_no_edge (h : g.producerEdge? id = none) : g.producer? id = none := by
  rw [producer?, h, Option.map_none]

theorem feeds_iff_mem_sources : g.Feeds a b ↔ a ∈ (Index.of g).sources b := by
  rw [Index.sources, Index.incoming_of, List.mem_map]
  constructor
  · rintro ⟨e, he, rfl, rfl⟩
    exact ⟨e, List.mem_filter.2 ⟨he, by simp⟩, rfl⟩
  · rintro ⟨e, he, rfl⟩
    exact feeds_of_mem_edgesInto he

theorem Acyclic.wellFounded (h : g.Acyclic) : WellFounded g.Upstream := by
  let ends : Set NodeId := {x | x ∈ g.edges.map (·.source) ++ g.edges.map (·.target)}
  have hsource : ∀ {x y}, g.Feeds x y → x ∈ ends := by
    rintro x y ⟨e, he, rfl, -⟩
    exact List.mem_append_left _ (List.mem_map_of_mem he)
  have htarget : ∀ {x y}, g.Feeds x y → y ∈ ends := by
    rintro x y ⟨e, he, -, rfl⟩
    exact List.mem_append_right _ (List.mem_map_of_mem he)
  have hends : ∀ {x y}, g.Upstream x y → x ∈ ends ∧ y ∈ ends := by
    intro x y hxy
    induction hxy with
    | single hf => exact ⟨hsource hf, htarget hf⟩
    | tail _ hf ih => exact ⟨ih.1, htarget hf⟩
  have : IsStrictOrder NodeId g.Upstream :=
    { irrefl := h
      trans := fun _ _ _ => Relation.TransGen.trans }
  have hfin : ends.Finite := List.finite_toSet _
  have hwf := Set.wellFoundedOn_iff.1 (hfin.wellFoundedOn (r := g.Upstream))
  exact Subrelation.wf (fun hxy => ⟨hxy, hends hxy⟩) hwf

end Graph

namespace Index

open ColorGraph.Graph

theorem producerEdge?_of (g : Graph) (id : NodeId) :
    (of g).producerEdge? id = g.producerEdge? id := by
  rw [producerEdge?, incoming_of, Graph.producerEdge?]

theorem inputEdges_of (g : Graph) (order : SlotOrder) (id : NodeId) :
    (of g).inputEdges order id = g.inputEdges order id := by
  rw [inputEdges, incoming_of, Graph.inputEdges]

end Index

structure Search where
  waiting : List NodeId
  seen : List NodeId

namespace Search

open ColorGraph.Graph Index

def upFrom (g : Graph) (start : NodeId) : Search :=
  ⟨(of g).sources start, []⟩

/-- One turn takes out any of the ids that wait. Where it was not seen before, its sources wait
from then on. -/
inductive Turn (g : Graph) : Search → Search → Prop
  | known {s : Search} {id : NodeId} {rest : List NodeId} (taken : s.waiting.Perm (id :: rest))
      (seen : id ∈ s.seen) : Turn g s ⟨rest, s.seen⟩
  | new {s : Search} {id : NodeId} {rest waiting : List NodeId}
      (taken : s.waiting.Perm (id :: rest)) (unseen : id ∉ s.seen)
      (joined : waiting.Perm ((of g).sources id ++ rest)) : Turn g s ⟨waiting, id :: s.seen⟩

inductive Turns (g : Graph) : Nat → Search → Search → Prop
  | none {s : Search} : Turns g 0 s s
  | more {n : Nat} {s t u : Search} (first : Turn g s t) (others : Turns g n t u) :
      Turns g (n + 1) s u

def turnsLeft (g : Graph) (s : Search) : Nat :=
  s.waiting.length + unseenEdges g s.seen

def ClosedUnderSources (g : Graph) (waiting seen : List NodeId) : Prop :=
  ∀ b ∈ seen, ∀ a, g.Feeds a b → a ∈ seen ∨ a ∈ waiting

structure Upholds (g : Graph) (start : NodeId) (s : Search) : Prop where
  nodup : s.seen.Nodup
  upstream : ∀ x, x ∈ s.seen ∨ x ∈ s.waiting → g.Upstream x start
  near : ∀ a, g.Feeds a start → a ∈ s.seen ∨ a ∈ s.waiting
  closed : ClosedUnderSources g s.waiting s.seen

variable {g : Graph} {start id : NodeId} {s t : Search} {n : Nat}

theorem exists_turn (h : s.waiting ≠ []) : ∃ t, Turn g s t := by
  obtain ⟨id, rest, hw⟩ := List.exists_cons_of_ne_nil h
  have taken : s.waiting.Perm (id :: rest) := .of_eq hw
  by_cases hid : id ∈ s.seen
  · exact ⟨_, .known taken hid⟩
  · exact ⟨_, .new taken hid (.refl _)⟩

theorem Turn.turnsLeft_eq (h : Turn g s t) : t.turnsLeft g + 1 = s.turnsLeft g := by
  cases h with
  | known taken _ =>
    have hlength := taken.length_eq
    simp only [List.length_cons] at hlength
    simp only [turnsLeft]
    omega
  | new taken unseen joined =>
    have hlength := taken.length_eq
    have hjoined := joined.length_eq
    have hedges := unseenEdges_cons g unseen
    simp only [List.length_cons, List.length_append] at hlength hjoined
    simp only [turnsLeft]
    omega

theorem Turn.keeps (h : Turn g s t) {x : NodeId} (hx : x ∈ s.seen ∨ x ∈ s.waiting) :
    x ∈ t.seen ∨ x ∈ t.waiting := by
  cases h with
  | known taken seen =>
    obtain hx | hx := hx
    · exact .inl hx
    · obtain rfl | hx := List.mem_cons.1 (taken.mem_iff.1 hx)
      · exact .inl seen
      · exact .inr hx
  | new taken unseen joined =>
    obtain hx | hx := hx
    · exact .inl (List.mem_cons_of_mem _ hx)
    · obtain rfl | hx := List.mem_cons.1 (taken.mem_iff.1 hx)
      · exact .inl List.mem_cons_self
      · exact .inr (joined.mem_iff.2 (List.mem_append_right _ hx))

theorem Turn.upholds (h : Turn g s t) (hs : Upholds g start s) : Upholds g start t := by
  have hnear : ∀ a, g.Feeds a start → a ∈ t.seen ∨ a ∈ t.waiting :=
    fun a ha => h.keeps (hs.near a ha)
  have hclosed : ∀ b ∈ s.seen, ∀ a, g.Feeds a b → a ∈ t.seen ∨ a ∈ t.waiting :=
    fun b hb a ha => h.keeps (hs.closed b hb a ha)
  cases h with
  | known taken seen =>
    refine ⟨hs.nodup, fun x hx => hs.upstream x ?_, hnear, hclosed⟩
    exact hx.imp_right fun hx => taken.mem_iff.2 (List.mem_cons_of_mem _ hx)
  | @new id rest waiting taken unseen joined =>
    have hid : g.Upstream id start := hs.upstream id (.inr (taken.mem_iff.2 List.mem_cons_self))
    refine ⟨hs.nodup.cons unseen, fun x hx => ?_, hnear, fun b hb a ha => ?_⟩
    · obtain hx | hx := hx
      · obtain rfl | hx := List.mem_cons.1 hx
        · exact hid
        · exact hs.upstream x (.inl hx)
      · obtain hx | hx := List.mem_append.1 (joined.mem_iff.1 hx)
        · exact .head (feeds_iff_mem_sources.2 hx) hid
        · exact hs.upstream x (.inr (taken.mem_iff.2 (List.mem_cons_of_mem _ hx)))
    · obtain rfl | hb := List.mem_cons.1 hb
      · exact .inr (joined.mem_iff.2 (List.mem_append_left _ (feeds_iff_mem_sources.1 ha)))
      · exact hclosed b hb a ha

theorem upFrom_upholds (g : Graph) (start : NodeId) : Upholds g start (upFrom g start) where
  nodup := List.nodup_nil
  upstream _ hx := .single (feeds_iff_mem_sources.2 (hx.resolve_left List.not_mem_nil))
  near _ ha := .inr (feeds_iff_mem_sources.1 ha)
  closed _ hb := absurd hb List.not_mem_nil

theorem Turns.upholds (h : Turns g n s t) (hs : Upholds g start s) : Upholds g start t := by
  induction h with
  | none => exact hs
  | more first _ ih => exact ih (first.upholds hs)

theorem Turns.turnsLeft_eq (h : Turns g n s t) : t.turnsLeft g + n = s.turnsLeft g := by
  induction h with
  | none => rfl
  | more first _ ih =>
    have := first.turnsLeft_eq
    omega

theorem turnsLeft_upFrom (g : Graph) (start : NodeId) :
    (upFrom g start).turnsLeft g ≤ ((of g).sources start).length + g.edges.length :=
  Nat.add_le_add_left List.countP_le_length _

/-- A search that is over has seen what is upstream. -/
theorem Upholds.mem_seen_iff (hs : Upholds g start s) (hover : s.waiting = []) {x : NodeId} :
    x ∈ s.seen ↔ g.Upstream x start := by
  have hnone : ∀ {a}, a ∈ s.seen ∨ a ∈ s.waiting → a ∈ s.seen :=
    fun h => h.resolve_right (by rw [hover]; exact List.not_mem_nil)
  constructor
  · exact fun h => hs.upstream x (.inl h)
  · intro h
    induction h using Relation.TransGen.head_induction_on with
    | single hf => exact hnone (hs.near _ hf)
    | head hf _ ih => exact hnone (hs.closed _ ih _ hf)

/-- Climbing is a search that takes the id that waits in front. -/
theorem exists_turns_climb (steps : Nat) (s : Search) :
    ∃ n t, Turns g n s t ∧ t.seen = (of g).climb steps s.waiting s.seen ∧
      (s.turnsLeft g ≤ steps → t.waiting = []) := by
  induction steps generalizing s with
  | zero =>
    refine ⟨0, s, .none, rfl, fun h => List.length_eq_zero_iff.1 ?_⟩
    simp only [turnsLeft] at h
    omega
  | succ steps ih =>
    obtain ⟨waiting, seen⟩ := s
    cases waiting with
    | nil => exact ⟨0, _, .none, rfl, fun _ => rfl⟩
    | cons id rest =>
      obtain ⟨t, hturn, hclimb⟩ : ∃ t, Turn g ⟨id :: rest, seen⟩ t ∧
          (of g).climb (steps + 1) (id :: rest) seen = (of g).climb steps t.waiting t.seen := by
        by_cases hid : id ∈ seen
        · exact ⟨_, .known (.refl _) hid, by rw [climb, if_pos hid]⟩
        · exact ⟨_, .new (.refl _) hid (.refl _), by rw [climb, if_neg hid]⟩
      obtain ⟨n, u, hturns, hseen, hover⟩ := ih t
      refine ⟨n + 1, u, .more hturn hturns, hseen.trans hclimb.symm, fun h => hover ?_⟩
      have := hturn.turnsLeft_eq
      omega

theorem exists_turns_ancestors (g : Graph) (start : NodeId) :
    ∃ n t, Turns g n (upFrom g start) t ∧ t.waiting = [] ∧
      t.seen = (of g).ancestors start := by
  obtain ⟨n, t, hturns, hseen, hover⟩ := exists_turns_climb
    (((of g).sources start).length + g.edges.length) (upFrom g start)
  exact ⟨n, t, hturns, hover (turnsLeft_upFrom g start), hseen⟩

end Search

namespace Index

theorem mem_ancestors {g : Graph} {x start : NodeId} :
    x ∈ (of g).ancestors start ↔ g.Upstream x start := by
  obtain ⟨n, t, hturns, hover, hseen⟩ := Search.exists_turns_ancestors g start
  rw [← hseen]
  exact (hturns.upholds (Search.upFrom_upholds g start)).mem_seen_iff hover

theorem nodup_ancestors (g : Graph) (start : NodeId) : ((of g).ancestors start).Nodup := by
  obtain ⟨n, t, hturns, _, hseen⟩ := Search.exists_turns_ancestors g start
  rw [← hseen]
  exact (hturns.upholds (Search.upFrom_upholds g start)).nodup

end Index

instance (g : Graph) (a b : NodeId) : Decidable (g.Upstream a b) :=
  decidable_of_iff _ Index.mem_ancestors

theorem Graph.acyclic_iff {g : Graph} :
    g.Acyclic ↔ ∀ e ∈ g.edges, e.target ∉ (Index.of g).ancestors e.target := by
  simp only [Index.mem_ancestors]
  constructor
  · intro h e _
    exact h e.target
  · intro h id hid
    obtain ⟨_, _, e, he, _, rfl⟩ := Relation.TransGen.tail'_iff.1 hid
    exact h e he hid

instance (g : Graph) : Decidable g.Acyclic :=
  decidable_of_iff _ Graph.acyclic_iff.symm

end ColorGraph
