import ConceptResolution.Main
import ConceptResolution.Subst.Lemmas
import ConceptResolution.Subst.Print
import ConceptResolution.Proofs.Substitution
import ConceptResolution.Proofs.Unification
import ConceptResolution.Proofs.Arity
import ConceptResolution.Proofs.Derivation
import ConceptResolution.Proofs.Inference
import ConceptResolution.Proofs.Forgetting
import ConceptResolution.Proofs.Unifiers
import ConceptResolution.Proofs.Completion
import ConceptResolution.Proofs.Outcome
import ConceptResolution.Proofs.Termination
import ConceptResolution.Proofs.FiniteHierarchy
import ConceptResolution.Proofs.RequestNames
import ConceptResolution.Proofs.RoundTrip
import ConceptResolution.Proofs.Covers
import ConceptResolution.Proofs.SolvedForms
import ConceptResolution.Proofs.Rearrangement
import ConceptResolution.Proofs.FailureRecord
import ConceptResolution.Proofs.Superconcepts
import ConceptResolution.Proofs.GenericInstances
import ConceptResolution.Proofs.Patterns
import ConceptResolution.Proofs.Matching
import ConceptResolution.Proofs.Queries
import ConceptResolution.Proofs.Stuck
import ConceptResolution.Proofs.Registration
import ConceptResolution.Proofs.LoadedDocuments
import ConceptResolution.Proofs.Nesting
import ConceptResolution.Proofs.UnificationCalls
import ConceptResolution.Proofs.Dispatch
