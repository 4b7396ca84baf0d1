import RecursiveQuery.Main
import RecursiveQuery.Proofs.BoundedTrees
import RecursiveQuery.Proofs.CaptureFree
import RecursiveQuery.Proofs.ClosureShape
import RecursiveQuery.Proofs.CommentBlanks
import RecursiveQuery.Proofs.ComprehensionMeaning
import RecursiveQuery.Proofs.Formatting
import RecursiveQuery.Proofs.HelperVariables
import RecursiveQuery.Proofs.LeastFixpoint
import RecursiveQuery.Proofs.PathEnumeration
import RecursiveQuery.Proofs.PatternMeaning
import RecursiveQuery.Proofs.PlanReading
import RecursiveQuery.Proofs.PlanVariables
import RecursiveQuery.Proofs.ReachedFixpoints
import RecursiveQuery.Proofs.ReadPositions
import RecursiveQuery.Proofs.RoundTrip
import RecursiveQuery.Proofs.SourceKinds
import RecursiveQuery.Proofs.SplicedBlocks
import RecursiveQuery.Proofs.SplicedFilters
import RecursiveQuery.Proofs.SuppliedNames
import RecursiveQuery.Proofs.UnfoldedCalls
