import Deduction.Builder
import Deduction.Proofs.Derivability
import Deduction.Proofs.Matching
import Deduction.Proofs.SearchSoundness
import Deduction.Sharing.Shared
import Deduction.Trace.Logger
import Deduction.Proofs.Acceptance
import Deduction.Proofs.Assignments
import Deduction.Proofs.Transformations
import Deduction.Proofs.SearchErrors
import Deduction.Proofs.FirstMatch
import Deduction.Proofs.SearchReturns
import Deduction.Proofs.SearchDepth
import Deduction.Proofs.ManualDerivation
import Deduction.Proofs.RelabeledSearches
import Deduction.Proofs.Extensions
import Deduction.Proofs.CanonicalFormulas
import Deduction.Proofs.NestedCalls
import Deduction.Proofs.RuleApplication
import Deduction.Proofs.SequencedSearches
import Deduction.Proofs.SearchTrace
import Deduction.Proofs.ObtainableValues
import Deduction.Proofs.BackwardReading
import Deduction.Proofs.ManualRefusals
import Deduction.Proofs.SubstitutionAlgebra
import Deduction.Proofs.FiniteMaps
import Deduction.Proofs.Sessions
import Deduction.Proofs.Enumerations
import Deduction.Proofs.Builders
import Deduction.Proofs.Signatures
import Deduction.Proofs.Renamings
import Deduction.Proofs.SubformulaOrder
import Deduction.Proofs.Leaves
