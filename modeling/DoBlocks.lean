import DoBlocks.CommandLine.Session
import DoBlocks.Console
import DoBlocks.Expansion.Record
import DoBlocks.Main
import DoBlocks.Proofs.Equivalence
import DoBlocks.Proofs.Layout
import DoBlocks.Proofs.SingleTrip
import DoBlocks.Rendering
import DoBlocks.Proofs.Sites
import DoBlocks.Proofs.Splicing
import DoBlocks.Proofs.GrammarShape
import DoBlocks.Proofs.HostText
import DoBlocks.Proofs.Surfaces
import DoBlocks.Proofs.Naming
import DoBlocks.Proofs.Hygiene
import DoBlocks.Proofs.GuardLines
import DoBlocks.Proofs.Landmarks
import DoBlocks.Proofs.Accounts
import DoBlocks.Proofs.Allocations
import DoBlocks.Proofs.Phases
import DoBlocks.Proofs.Bookkeeping
import DoBlocks.Proofs.Exits
import DoBlocks.Proofs.HostReading
import DoBlocks.Proofs.Ranges
import DoBlocks.Proofs.Renaming
import DoBlocks.Proofs.Numbering
import DoBlocks.Proofs.Rollback
import DoBlocks.Proofs.StepProperties
import DoBlocks.Proofs.Counterparts
import DoBlocks.Proofs.Provenance
import DoBlocks.Proofs.Expressible
import DoBlocks.Proofs.Adjacency
import DoBlocks.Proofs.TokenClasses
import DoBlocks.Proofs.Splitting
import DoBlocks.Proofs.Synchrony
import DoBlocks.Proofs.Idempotence
import DoBlocks.Proofs.Obstacles
import DoBlocks.Proofs.Containment
import DoBlocks.Proofs.Verdicts
import DoBlocks.Proofs.Constructs
import DoBlocks.Proofs.Divergence
import DoBlocks.Proofs.EvaluationOrder
import DoBlocks.Proofs.LoopControl
import DoBlocks.Proofs.Inventory
import DoBlocks.Proofs.Positions
import DoBlocks.Proofs.Nesting
import DoBlocks.Proofs.Bounds
import DoBlocks.Proofs.Totality
import DoBlocks.Proofs.Coverage
import DoBlocks.Proofs.Selection
import DoBlocks.Proofs.Indentation
