import ColorGraph.Compile.ReportRecord
import ColorGraph.Graph.Document
import ColorGraph.Preview.Evaluate
import ColorGraph.Proofs.OutputOrder
import ColorGraph.Proofs.Unfolding
import ColorGraph.Proofs.SharedTree
import ColorGraph.Proofs.References
import ColorGraph.Proofs.Expansion
import ColorGraph.Proofs.ClosedForm
import ColorGraph.Proofs.Diagnostics
import ColorGraph.Proofs.Inlining
import ColorGraph.Proofs.Emission
import ColorGraph.Proofs.Scoping
import ColorGraph.Proofs.Arithmetic
import ColorGraph.Proofs.InertOutputs
import ColorGraph.Proofs.Saving
import ColorGraph.Proofs.EdgeOrder
import ColorGraph.Proofs.Components
import ColorGraph.Proofs.SafePreviews
import ColorGraph.Proofs.Reopening
import ColorGraph.Proofs.NormalizedNames
import ColorGraph.Proofs.BoundedWalks
import ColorGraph.Proofs.DirectReading
import ColorGraph.Proofs.StableOrder
import ColorGraph.Proofs.SharedProducers
import ColorGraph.Proofs.ComposedPreviews
import ColorGraph.Proofs.ShadowedNodes
import ColorGraph.Proofs.SlotNumbers
import ColorGraph.Proofs.Resaving
import ColorGraph.Proofs.Overflow
import ColorGraph.Proofs.ImportedNumbers
import ColorGraph.Proofs.EqualWidthSlots
import ColorGraph.Proofs.LeadingNumbers
import ColorGraph.Proofs.ColorGrammar
import ColorGraph.Proofs.WellFormedColors
import ColorGraph.Proofs.AncestorSets
import ColorGraph.Proofs.GeneratorState
import ColorGraph.Proofs.ReportTexts
import ColorGraph.Proofs.WrittenColors
import ColorGraph.Proofs.LookUps
import ColorGraph.Proofs.KebabCase
