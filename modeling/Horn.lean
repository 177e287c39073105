import Horn.Main
import Horn.Term.Argument
import Horn.Term.Build
import Horn.Proofs.Snapshots
import Horn.Proofs.Numbers
import Horn.Proofs.Subterms
import Horn.Proofs.Trees
import Horn.Proofs.Chains
import Horn.Proofs.Solutions
import Horn.Proofs.OccursCheck
import Horn.Proofs.Moves
import Horn.Proofs.Unification
import Horn.Proofs.Rebuilding
import Horn.Proofs.Substitution
import Horn.Proofs.Values
import Horn.Proofs.MostGeneral
import Horn.Proofs.Copies
import Horn.Proofs.FusedWalk
import Horn.Proofs.Matching
import Horn.Proofs.Resolution
import Horn.Proofs.Twins
import Horn.Proofs.Tracking
import Horn.Proofs.Agreement
import Horn.Proofs.NumericOrder
import Horn.Proofs.TreeOrder
import Horn.Proofs.StandardOrder
import Horn.Proofs.UnifiedOrder
import Horn.Proofs.Termination
import Horn.Proofs.Growth
import Horn.Proofs.Shortening
import Horn.Proofs.Safety
import Horn.Proofs.Sessions
import Horn.Proofs.Prefilter
import Horn.Proofs.Equivalence
import Horn.Proofs.Guard
import Horn.Proofs.Symmetry
import Horn.Proofs.Changes
import Horn.Proofs.Information
import Horn.Proofs.Renumbering
import Horn.Proofs.Sharing
import Horn.Proofs.Calls
import Horn.Proofs.TrailTally
import Horn.Proofs.Generation
import Horn.Proofs.Benches
import Horn.Proofs.Directions
import Horn.Proofs.SourceNames
import Horn.Proofs.Occurrences
import Horn.Proofs.CanonicalForm
import Horn.Proofs.NodeSharing
import Horn.Proofs.Locality
import Horn.Proofs.Confinement
import Horn.Proofs.Sightings
import Horn.Proofs.Instantiation
import Horn.Proofs.Allocation
import Horn.Proofs.StressRoom
import Horn.Proofs.StressRuns
import Horn.Proofs.Replacement
import Horn.Proofs.DenseNumbering
import Horn.Proofs.Decimals
import Horn.Proofs.FloatTexts
import Horn.Proofs.Rendering
import Horn.Proofs.Variants
import Horn.Proofs.Printing
import Horn.Proofs.TrailBounds
import Horn.Proofs.ExactComparison
import Horn.Proofs.Cycles
import Horn.Proofs.Handles
import Horn.Proofs.AtomTables
import Horn.Proofs.LeftToRight
import Horn.Proofs.RecursiveRebuilding
import Horn.Proofs.ArgumentPositions
import Horn.Proofs.BottomUp
