import ColorGraph.Compile.Expand
import ColorGraph.Css.Variable
import ColorGraph.Graph.OutputOrder
/-!
Compiling a graph: one variable for each named source, in the graph's order, then one for each
named output that something feeds, in the order of the outputs.
-/

set_option autoImplicit false

namespace ColorGraph

namespace Compile

structure Definition where
  node : NodeId
  name : String
  value : Css.Expression

def Definition.toVariable (d : Definition) : Css.Variable :=
  .of d.name d.value.text

structure Report where
  «variables» : List Css.Variable
  diagnostics : List Diagnostic
deriving DecidableEq, Repr

structure Progress where
  definitions : List Definition := []
  bindings : Bindings := []
  log : Log := []

namespace Progress

def define (p : Progress) (node : NodeId) (name : String) (value : Css.Expression) : Progress :=
  { p with definitions := p.definitions ++ [⟨node, name, value⟩] }

def report (p : Progress) (d : Diagnostic) : Progress :=
  { p with log := p.log.report d }

def addNamedSource (o : Options) (p : Progress) (id : NodeId) (name literal : String) :
    Progress :=
  if name = "" then p.report (.unnamedNode id)
  else
    let name := o.exportName name
    { p with bindings := p.bindings.set id name }.define id name (.literal literal)

def addSource (o : Options) (p : Progress) (n : Node) : Progress :=
  match n.kind with
  | .inputColor name color => p.addNamedSource o n.id name (colorLiteral color)
  | .inputNumber name value => p.addNamedSource o n.id name (numberLiteral value)
  | _ => p

/-- The variable of an output, which from then on stands for its producer too. -/
def addOutput (ix : Index) (o : Options) (p : Progress) (n : Node) : Progress :=
  match n.kind with
  | .output name =>
    if name = "" then p.report (.unnamedNode n.id)
    else
      match ix.producerEdge? n.id with
      | none => p.report (.disconnectedOutput n.id)
      | some e =>
        match ix.node? e.source with
        | none => p.report (.missingNode e.id e.source)
        | some producer =>
          let scope : Scope := ⟨ix, o.slotOrder, p.bindings⟩
          match expand scope (depthFor ix.graph) [] producer p.log with
          | (none, log) => { p with log }
          | (some value, log) =>
            let name := o.exportName name
            let bindings :=
              if o.reuseBindings then p.bindings.setNew producer.id name else p.bindings
            { p with bindings, log }.define producer.id name value
  | _ => p

end Progress

def progress (ix : Index) (o : Options) (outputs : List Node) : Progress :=
  outputs.foldl (Progress.addOutput ix o) (ix.graph.nodes.foldl (Progress.addSource o) {})

end Compile

namespace Graph

open Compile

/-- The variables and diagnostics of a graph. A cycle of outputs is told before anything else. -/
def compile (g : Graph) (o : Options) : Report :=
  let ix := Index.of g
  let outputs := ix.outputOrder
  let p := progress ix o outputs.order
  let cycle := if outputs.cycle.isEmpty then [] else [Diagnostic.cyclicOutputs outputs.cycle]
  ⟨p.definitions.map Definition.toVariable, cycle ++ p.log⟩

def stylesheet (g : Graph) (o : Options) : String :=
  Css.stylesheet (g.compile o).variables o.selector

end Graph
end ColorGraph
