import ColorGraph.Css.Kebab
import ColorGraph.Graph.SlotOrder
import ColorGraph.Json.Record
/-!
What a compilation can be told, and its JSON form.
-/

set_option autoImplicit false

namespace ColorGraph

namespace SlotOrder

def name : SlotOrder → String
  | lexicographic => "lexicographic"
  | numeric => "numeric"

def ofName (name : String) : Json.Read SlotOrder :=
  if name = "lexicographic" then pure lexicographic
  else if name = "numeric" then pure numeric
  else throw (.mismatch (.unknownVariant name ["lexicographic", "numeric"]))

open Json in
def readTagged : DraftMembers → Read SlotOrder
  | .done => throw (.flaw .noValue)
  | .broken fault => throw (.flaw fault.kept)
  | .member key value rest => do
    let key ← Flaw.lift key
    let order ← ofName key
    match value with
    | .null => pure ()
    | d => d.refuse "unit"
    match rest with
    | .done => pure order
    | .broken fault =>
      throw (.flaw (if fault.kept = .endInObject then .endInObject else .noValue))
    | _ => throw (.flaw .noValue)

open Json in
def read : Draft → Read SlotOrder
  | .string s => do ofName (← Flaw.lift s)
  | .object members => readTagged members
  | .broken fault => throw (.flaw fault.kept)
  | _ => throw (.flaw .noValue)

end SlotOrder

namespace Compile

structure Options where
  selector : String := ":root"
  slotOrder : SlotOrder := .lexicographic
  reuseBindings : Bool := true
  normalizeNames : Bool := false
deriving DecidableEq, Repr

namespace Options

def exportName (o : Options) (name : String) : String :=
  if o.normalizeNames then Css.kebab name else name

def toJson (o : Options) : Json :=
  .object [("selector", .string o.selector), ("slotOrder", .string o.slotOrder.name),
    ("reuseBindings", .bool o.reuseBindings), ("normalizeNames", .bool o.normalizeNames)]

structure Given where
  selector : Option String := none
  slotOrder : Option SlotOrder := none
  reuseBindings : Option Bool := none
  normalizeNames : Option Bool := none

def Given.options (g : Given) : Options :=
  let d : Options := {}
  ⟨g.selector.getD d.selector, g.slotOrder.getD d.slotOrder,
    g.reuseBindings.getD d.reuseBindings, g.normalizeNames.getD d.normalizeNames⟩

open Json in
def record : Record Given where
  name := "struct CompileOptions"
  fields := [
    .of "selector" true Given.selector (fun a s => { s with selector := some a })
      fun _ d => d.readString,
    .of "slotOrder" true Given.slotOrder (fun a s => { s with slotOrder := some a })
      fun _ d => SlotOrder.read d,
    .of "reuseBindings" true Given.reuseBindings (fun a s => { s with reuseBindings := some a })
      fun _ d => d.readBool,
    .of "normalizeNames" true Given.normalizeNames
      (fun a s => { s with normalizeNames := some a }) fun _ d => d.readBool]
  others := .ignored
  hasListForm := true

def read (depth : Nat) (d : Json.Draft) : Json.Read Options :=
  Given.options <$> record.read depth {} d

def ofText (text : String) : Json.Read Options :=
  Json.readText (read Json.maxDepth) text

end Options
end Compile
end ColorGraph
