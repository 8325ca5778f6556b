import ColorGraph.Graph.Basic
/-!
The order of a node's inputs: by the text of their handles, or by the number at its end first.
-/

set_option autoImplicit false

namespace ColorGraph

attribute [local instance (2000)] instPowNat

inductive SlotOrder where
  | lexicographic
  | numeric
deriving DecidableEq, Repr

namespace SlotOrder

def suffix (handle : List Char) : List Char :=
  (handle.reverse.takeWhile (· != '-')).reverse

def figures? (cs : List Char) : Option Nat :=
  if cs ≠ [] ∧ cs.all Char.isDigit then
    some (cs.foldl (fun n c => 10 * n + (c.toNat - '0'.toNat)) 0)
  else none

/-- The number that ends a handle, when it is below `2 ^ 64`. A plus may stand before it. -/
def slotIndex? (handle : String) : Option Nat :=
  let figures :=
    match suffix handle.toList with
    | '+' :: cs => cs
    | cs => cs
  (figures? figures).filter (· < 2 ^ (64 : Nat))

/-- An absent handle counts as the empty text. Without a number a handle comes first. -/
def compare (order : SlotOrder) (a b : Option String) : Ordering :=
  let a := a.getD ""
  let b := b.getD ""
  match order with
  | lexicographic => Ord.compare a b
  | numeric => (Ord.compare (slotIndex? a) (slotIndex? b)).then (Ord.compare a b)

def precedes (order : SlotOrder) (a b : Edge) : Bool :=
  (order.compare a.targetHandle b.targetHandle).isLE

def place (order : SlotOrder) (e : Edge) : List Edge → List Edge
  | [] => [e]
  | f :: rest => if order.precedes e f then e :: f :: rest else f :: place order e rest

/-- Edges by slot; those of one slot keep their order. -/
def sort (order : SlotOrder) (edges : List Edge) : List Edge :=
  edges.foldr order.place []

theorem place_perm (order : SlotOrder) (e : Edge) (es : List Edge) :
    (order.place e es).Perm (e :: es) := by
  induction es with
  | nil => exact List.Perm.refl _
  | cons f rest ih =>
    unfold place
    split
    · exact List.Perm.refl _
    · exact (ih.cons f).trans (List.Perm.swap e f rest)

theorem sort_perm (order : SlotOrder) (es : List Edge) : (order.sort es).Perm es := by
  induction es with
  | nil => exact List.Perm.refl _
  | cons e rest ih => exact (place_perm order e _).trans (ih.cons e)

end SlotOrder
end ColorGraph
