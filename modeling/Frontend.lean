import Frontend.Main
import Frontend.NamePool
import Frontend.Proofs.Visible
import Frontend.Proofs.Graph
import Frontend.Proofs.Certificate
import Frontend.Proofs.Runs
import Frontend.Proofs.Operands
import Frontend.Proofs.Construction
import Frontend.Proofs.WellFormed
import Frontend.Proofs.Reading
import Frontend.Proofs.Checking
import Frontend.Proofs.WellTyped
import Frontend.Proofs.Agreement
import Frontend.Proofs.Plain
import Frontend.Proofs.Obligations
import Frontend.Proofs.Resolution
import Frontend.Proofs.Computation
import Frontend.Proofs.Pipeline
import Frontend.Proofs.Preservation
import Frontend.Proofs.Sight
import Frontend.Proofs.Declarations
import Frontend.Proofs.Spelling
import Frontend.Proofs.Truncation
import Frontend.Proofs.Balance
import Frontend.Proofs.Layouts
import Frontend.Proofs.Correspondence
import Frontend.Proofs.Tiling
import Frontend.Proofs.Linkage
import Frontend.Proofs.References
import Frontend.Proofs.Symbols
import Frontend.Proofs.Junctions
import Frontend.Proofs.Places
import Frontend.Proofs.Loads
import Frontend.Proofs.Indirections
import Frontend.Proofs.Relocation
import Frontend.Proofs.RelocatedWalks
import Frontend.Proofs.RelocatedReading
import Frontend.Proofs.Placeless
import Frontend.Proofs.Idempotence
import Frontend.Proofs.Writing
import Frontend.Proofs.Yields
import Frontend.Proofs.Rereading
import Frontend.Proofs.Derivations
import Frontend.Proofs.Layers
import Frontend.Proofs.Extents
import Frontend.Proofs.Nesting
import Frontend.Proofs.Positions
import Frontend.Proofs.Frames
import Frontend.Proofs.Redeclarations
import Frontend.Proofs.Unmarked
import Frontend.Proofs.Ways
import Frontend.Proofs.Lockstep
import Frontend.Proofs.Diagnostics
import Frontend.Proofs.Everywhere
import Frontend.Proofs.Called
import Frontend.Proofs.Tasks
import Frontend.Proofs.Contents
import Frontend.Proofs.Solid
import Frontend.Proofs.Increments
import Frontend.Proofs.Inventory
import Frontend.Proofs.Literals
import Frontend.Proofs.Ranges
import Frontend.Proofs.Voids
import Frontend.Proofs.Numbering
import Frontend.Proofs.Readers
import Frontend.Proofs.Descent
import Frontend.Proofs.Tidy
import Frontend.Proofs.Rounds
import Frontend.Proofs.Surroundings
import Frontend.Proofs.Interning
import Frontend.Proofs.Unbroken
import Frontend.Proofs.Composition
import Frontend.Proofs.Restoration
import Frontend.Proofs.Lookahead
import Frontend.Proofs.Scanning
import Frontend.Proofs.Seams
import Frontend.Proofs.Quoting
import Frontend.Proofs.Numbers
import Frontend.Proofs.BareCalls
import Frontend.Proofs.TypeTexts
import Frontend.Proofs.Handles
import Frontend.Proofs.Comments
