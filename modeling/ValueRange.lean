import ValueRange.Program.Listing
import ValueRange.Source.TypeSet
import ValueRange.Source.Returns
import ValueRange.Main
import ValueRange.Proofs.Range.Bounds
import ValueRange.Proofs.Range.Corners
import ValueRange.Proofs.Range.Operations
import ValueRange.Proofs.Range.Soundness
import ValueRange.Proofs.Range.Bitwise
import ValueRange.Proofs.Range.Lattice
import ValueRange.Proofs.Range.Conversion
import ValueRange.Proofs.Range.Monotone
import ValueRange.Proofs.Range.RightShift
import ValueRange.Proofs.Range.Transfer
import ValueRange.Proofs.Range.Remainder
import ValueRange.Proofs.Range.Region
import ValueRange.Proofs.Graph.Building
import ValueRange.Proofs.Graph.Wiring
import ValueRange.Proofs.Graph.Search
import ValueRange.Proofs.Graph.Traversal
import ValueRange.Proofs.Graph.Order
import ValueRange.Proofs.Graph.Components
import ValueRange.Proofs.Graph.Soundness
import ValueRange.Proofs.Graph.Acyclic
import ValueRange.Proofs.Graph.Points
import ValueRange.Proofs.Graph.Retention
import ValueRange.Proofs.Graph.Wraparound
import ValueRange.Proofs.Graph.Course
import ValueRange.Proofs.Graph.Envelope
import ValueRange.Proofs.Graph.Termination
import ValueRange.Proofs.Graph.Fixpoint
import ValueRange.Proofs.Graph.Branching
import ValueRange.Proofs.Graph.Paths
import ValueRange.Proofs.Graph.Joins
import ValueRange.Proofs.Graph.Writes
import ValueRange.Proofs.Graph.Formation
import ValueRange.Proofs.Program.Decoding
import ValueRange.Proofs.Graph.Assembly
import ValueRange.Proofs.Smt.Script
import ValueRange.Proofs.Safety
import ValueRange.Proofs.Graph.Exactness
import ValueRange.Proofs.Range.Optimality
import ValueRange.Proofs.Graph.Precision
import ValueRange.Proofs.Program.Ownership
import ValueRange.Proofs.Graph.Bindings
import ValueRange.Proofs.Graph.Embedding
import ValueRange.Proofs.Graph.Relocation
import ValueRange.Proofs.Graph.Alignment
import ValueRange.Proofs.Graph.Grafting
import ValueRange.Proofs.Graph.Independence
import ValueRange.Proofs.Graph.Representation
import ValueRange.Proofs.Program.Layout
import ValueRange.Proofs.Program.Naming
import ValueRange.Proofs.Program.Labels
import ValueRange.Proofs.Program.Texts
import ValueRange.Proofs.Smt.Legibility
import ValueRange.Proofs.Smt.Closure
import ValueRange.Proofs.Smt.Facts
import ValueRange.Proofs.Smt.Weakening
import ValueRange.Proofs.Smt.Symbols
import ValueRange.Proofs.Graph.Counting
import ValueRange.Proofs.Graph.CountingSolution
import ValueRange.Proofs.Graph.CountingLoops
import ValueRange.Proofs.Files
import ValueRange.Proofs.Settings
import ValueRange.Proofs.Source.CommonType
import ValueRange.Proofs.Program.Extension
import ValueRange.Proofs.Source.Dominance
import ValueRange.Proofs.Source.Form
import ValueRange.Proofs.Source.Resolution
import ValueRange.Proofs.Source.Drafting
import ValueRange.Proofs.Source.Rendering
import ValueRange.Proofs.Source.History
import ValueRange.Proofs.Source.Validity
import ValueRange.Proofs.Source.Transparency
