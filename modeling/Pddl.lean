import Pddl.Main
import Pddl.Proofs.Agreement
import Pddl.Proofs.ArityMatch
import Pddl.Proofs.Calls
import Pddl.Proofs.Closedness
import Pddl.Proofs.Completeness
import Pddl.Proofs.Conformance
import Pddl.Proofs.Consistency
import Pddl.Proofs.DeclarationOrder
import Pddl.Proofs.DeclaredFeatures
import Pddl.Proofs.DomainLetterCase
import Pddl.Proofs.DomainRoundTrip
import Pddl.Proofs.FailureKinds
import Pddl.Proofs.FlagClosure
import Pddl.Proofs.FlagIndependence
import Pddl.Proofs.FunctionLists
import Pddl.Proofs.InitialState
import Pddl.Proofs.LetterCase
import Pddl.Proofs.Locations
import Pddl.Proofs.NestingLimit
import Pddl.Proofs.Occurrences
import Pddl.Proofs.Placement
import Pddl.Proofs.PlanLines
import Pddl.Proofs.Precedence
import Pddl.Proofs.ProblemRoundTrip
import Pddl.Proofs.Repetition
import Pddl.Proofs.ReservedWords
import Pddl.Proofs.Scoping
import Pddl.Proofs.SectionOrder
import Pddl.Proofs.Separation
import Pddl.Proofs.Soundness
import Pddl.Proofs.Strictness
import Pddl.Proofs.Termination
import Pddl.Proofs.TrailingInput
import Pddl.Proofs.Truncation
import Pddl.Proofs.TypedLists
