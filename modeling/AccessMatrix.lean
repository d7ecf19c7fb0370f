import AccessMatrix.Frozen
import AccessMatrix.Hierarchy.Level
import AccessMatrix.Log.Output
import AccessMatrix.Log.Threshold
import AccessMatrix.Proofs.Entries
import AccessMatrix.Proofs.Evaluation.ActorPolicies
import AccessMatrix.Proofs.Evaluation.Authority
import AccessMatrix.Proofs.Evaluation.Chain
import AccessMatrix.Proofs.Evaluation.ControllerEntries
import AccessMatrix.Proofs.Evaluation.Exactness
import AccessMatrix.Proofs.Evaluation.FailClosed
import AccessMatrix.Proofs.Evaluation.KeyedSubject
import AccessMatrix.Proofs.Evaluation.NearestFirst
import AccessMatrix.Proofs.Evaluation.RegistrationOrder
import AccessMatrix.Proofs.Evaluation.Rejection
import AccessMatrix.Proofs.Evaluation.Restated
import AccessMatrix.Proofs.Evaluation.Roleless
import AccessMatrix.Proofs.Graph.Choices
import AccessMatrix.Proofs.Graph.ClosureSearch
import AccessMatrix.Proofs.Graph.Cycles
import AccessMatrix.Proofs.Graph.PathSearch
import AccessMatrix.Proofs.Hierarchy.Ancestry
import AccessMatrix.Proofs.Hierarchy.LevelOrder
import AccessMatrix.Proofs.Hierarchy.Nested
import AccessMatrix.Proofs.Hierarchy.Tree
import AccessMatrix.Proofs.Log.Line
import AccessMatrix.Proofs.Log.Preview
import AccessMatrix.Proofs.Policy.Acceptance
import AccessMatrix.Proofs.Policy.Extension
import AccessMatrix.Proofs.Policy.Lookup
import AccessMatrix.Proofs.Policy.Order
import AccessMatrix.Proofs.Policy.Provenance
import AccessMatrix.Proofs.Policy.Redeclarations
import AccessMatrix.Proofs.Session.AccessForms
import AccessMatrix.Proofs.Session.Configuration
import AccessMatrix.Proofs.Session.Declaring
import AccessMatrix.Proofs.Session.ExplicitForm
import AccessMatrix.Proofs.Session.Extension
import AccessMatrix.Proofs.Session.Growth
import AccessMatrix.Proofs.Session.Inverse
import AccessMatrix.Proofs.Session.Moments
import AccessMatrix.Proofs.Session.Publication
import AccessMatrix.Proofs.Session.Reporting
import AccessMatrix.Proofs.Session.Shared
import AccessMatrix.Proofs.Session.Warnings
import AccessMatrix.Session.Run
