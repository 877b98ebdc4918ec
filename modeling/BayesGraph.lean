import BayesGraph.CompiledModel
import BayesGraph.Extras
import BayesGraph.Validation
import BayesGraph.Proofs.Outcome
import BayesGraph.Proofs.Table
import BayesGraph.Proofs.References
import BayesGraph.Proofs.Build
import BayesGraph.Proofs.Unrolling
import BayesGraph.Proofs.Evaluation
import BayesGraph.Proofs.Broadcasting
import BayesGraph.Proofs.ExactSums
import BayesGraph.Proofs.Terms
import BayesGraph.Proofs.Solution
import BayesGraph.Proofs.Settling
import BayesGraph.Proofs.Walks
import BayesGraph.Proofs.Registration
import BayesGraph.Proofs.EmptySlots
import BayesGraph.Proofs.Saturation
import BayesGraph.Proofs.Constants
import BayesGraph.Proofs.Safety
import BayesGraph.Proofs.LoopExpansion
import BayesGraph.Proofs.ExactReals
import BayesGraph.Proofs.Transforms
import BayesGraph.Proofs.Jacobian
import BayesGraph.Proofs.Confluence
import BayesGraph.Proofs.Declarative
import BayesGraph.Proofs.Numbering
import BayesGraph.Proofs.MarkovBlanket
import BayesGraph.Proofs.Classification
import BayesGraph.Proofs.RoundTrip
import BayesGraph.Proofs.ArrayBounds
import BayesGraph.Proofs.ExtendedReals
import BayesGraph.Proofs.Absorption
import BayesGraph.Proofs.ArithmeticErrors
import BayesGraph.Proofs.ResolvedForms
import BayesGraph.Proofs.ScalarDistributions
import BayesGraph.Proofs.Availability
import BayesGraph.Proofs.InitialPoint
import BayesGraph.Proofs.FoldingErrors
import BayesGraph.Proofs.CycleDetection
import BayesGraph.Proofs.UntransformedEvaluation
import BayesGraph.Proofs.SoundValidation
import BayesGraph.Proofs.Observation
import BayesGraph.Proofs.IntervalTransforms
import BayesGraph.Proofs.Truncation
import BayesGraph.Proofs.DerivedConstants
import BayesGraph.Proofs.ClosedConstants
import BayesGraph.Proofs.FoldingRounds
import BayesGraph.Proofs.DensityFunctions
import BayesGraph.Proofs.OutsideSupport
import BayesGraph.Proofs.Slices
import BayesGraph.Proofs.LiteralTexts
import BayesGraph.Proofs.PrintedExpressions
import BayesGraph.Proofs.OverriddenStatements
import BayesGraph.Proofs.SymmetricBlankets
import BayesGraph.Proofs.NamedValues
import BayesGraph.Proofs.DrawnSamples
import BayesGraph.Proofs.ResolutionTasks
import BayesGraph.Proofs.FailingUnrolling
import BayesGraph.Proofs.UnresolvableIndices
import BayesGraph.Proofs.MisplacedReferences
import BayesGraph.Proofs.RegistrationOrder
import BayesGraph.Proofs.FlattenedArrays
import BayesGraph.Proofs.UnambiguousNames
import BayesGraph.Proofs.RecordedEvaluation
import BayesGraph.RegistryStore
import BayesGraph.Proofs.RegistrySessions
import BayesGraph.Proofs.TransformCharts
import BayesGraph.Proofs.PrintedComments
import BayesGraph.Proofs.ArrayIdentities
import BayesGraph.Proofs.UnscoredEvaluation
