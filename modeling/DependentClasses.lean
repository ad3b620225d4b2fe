import DependentClasses.CommandLine
import DependentClasses.Main
import DependentClasses.Proofs.Parts
import DependentClasses.Proofs.FreshNames
import DependentClasses.Proofs.Computation
import DependentClasses.Proofs.ReadBack
import DependentClasses.Proofs.UnificationRules
import DependentClasses.Proofs.Binding
import DependentClasses.Proofs.Runs
import DependentClasses.Proofs.Acyclicity
import DependentClasses.Proofs.ScopeSafety
import DependentClasses.Proofs.NormalForms
import DependentClasses.Proofs.Fuel
import DependentClasses.Proofs.Stability
import DependentClasses.Proofs.Contexts
import DependentClasses.Proofs.RoundTrip
import DependentClasses.Proofs.Growth
import DependentClasses.Proofs.InclusionGrowth
import DependentClasses.Proofs.Coherence
import DependentClasses.Proofs.Elaboration
import DependentClasses.Proofs.Relisting
import DependentClasses.Proofs.Answers
import DependentClasses.Proofs.SolutionGrowth
import DependentClasses.Proofs.SimpleTypes
import DependentClasses.Proofs.Subtyping
import DependentClasses.Proofs.Subexpressions
import DependentClasses.Proofs.Endings
import DependentClasses.Proofs.Standards
import DependentClasses.Proofs.StandardSolving
import DependentClasses.Proofs.StandardInclusion
import DependentClasses.Proofs.StandardElaboration
import DependentClasses.Proofs.SelfComparison
import DependentClasses.Proofs.Renaming
import DependentClasses.Proofs.Similarity
import DependentClasses.Proofs.SimilarReadings
import DependentClasses.Proofs.Persistence
import DependentClasses.Proofs.Codes
import DependentClasses.Proofs.CodedValues
import DependentClasses.Proofs.CodedReadings
import DependentClasses.Proofs.LastingEquality
import DependentClasses.Proofs.Mirroring
import DependentClasses.Proofs.MirroredUnification
import DependentClasses.Proofs.MirroredProperties
import DependentClasses.Proofs.MirroredInclusion
import DependentClasses.Proofs.ClassWalks
import DependentClasses.Proofs.ClassOrder
import DependentClasses.Proofs.AlphaInvariance
import DependentClasses.Proofs.Reachability
import DependentClasses.Proofs.ClosedValues
import DependentClasses.Proofs.Tidiness
import DependentClasses.Proofs.TidyPrograms
import DependentClasses.Proofs.Definitions
import DependentClasses.Proofs.MillerPatterns
import DependentClasses.Proofs.Spans
import DependentClasses.Proofs.InStep
import DependentClasses.Proofs.Placements
import DependentClasses.Proofs.RulesInStep
import DependentClasses.Proofs.Places
import DependentClasses.Proofs.Readings
import DependentClasses.Proofs.JoinedSources
import DependentClasses.Proofs.PlaceIndependence
import DependentClasses.Proofs.PiecewiseRuns
import DependentClasses.Proofs.TextReadings
import DependentClasses.Proofs.Spellings
import DependentClasses.Proofs.RuleReadings
import DependentClasses.Proofs.PrintedTerms
import DependentClasses.Proofs.NamelessTerms
import DependentClasses.Proofs.Hygiene
import DependentClasses.Proofs.SimilarSolving
import DependentClasses.Proofs.TurnedEquations
import DependentClasses.Proofs.WrittenClasses
import DependentClasses.Proofs.OrderedWalks
import DependentClasses.Proofs.RelistedElaboration
import DependentClasses.Proofs.Construction
import DependentClasses.Proofs.ElaborationFuel
import DependentClasses.Proofs.ClassApplication
import DependentClasses.Proofs.SelfInclusion
import DependentClasses.Proofs.TextPlaces
import DependentClasses.Proofs.NestedSpans
import DependentClasses.Proofs.FailurePlaces
import DependentClasses.Proofs.Reports
import DependentClasses.Proofs.FreshImages
import DependentClasses.Proofs.BinderNames
