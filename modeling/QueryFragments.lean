import QueryFragments.Registry
import QueryFragments.Reach
import QueryFragments.Resolution.Plain
import QueryFragments.Resolution.Moment
import QueryFragments.Bundle
import QueryFragments.Document.Json
import QueryFragments.Source
import QueryFragments.Proofs.LastDefinition
import QueryFragments.Proofs.Shadowing
import QueryFragments.Proofs.Grounded
import QueryFragments.Proofs.Problems
import QueryFragments.Proofs.Outcome
import QueryFragments.Proofs.Dependencies
import QueryFragments.Proofs.Memory
import QueryFragments.Proofs.Trail
import QueryFragments.Proofs.Failures
import QueryFragments.Proofs.Locality
import QueryFragments.Proofs.Reports
import QueryFragments.Proofs.Bundles
import QueryFragments.Proofs.SelfContained
import QueryFragments.Proofs.Composition
import QueryFragments.Proofs.JsonForm
import QueryFragments.Proofs.Reduction
import QueryFragments.Proofs.Rotation
import QueryFragments.Proofs.Selecting
import QueryFragments.Proofs.LoneOperation
import QueryFragments.Proofs.Ending
import QueryFragments.Proofs.Returns
import QueryFragments.Proofs.Log
import QueryFragments.Proofs.Histories
