import TreeCode.Main
import TreeCode.Proofs.Arguments
import TreeCode.Proofs.Bindings
import TreeCode.Proofs.Captured
import TreeCode.Proofs.Containment
import TreeCode.Proofs.Hygiene
import TreeCode.Proofs.Nesting
import TreeCode.Proofs.RoundTrip
import TreeCode.Proofs.Satisfaction
import TreeCode.Proofs.StepLimit
import TreeCode.Proofs.Abandonment
import TreeCode.Proofs.Calls
import TreeCode.Proofs.Deployment
import TreeCode.Proofs.Lockstep
import TreeCode.Proofs.Callbacks
import TreeCode.Proofs.Refusals
import TreeCode.Proofs.Landing
import TreeCode.Proofs.Relaying
import TreeCode.Proofs.Offenders
import TreeCode.Proofs.Remainder
import TreeCode.Proofs.Rendering
import TreeCode.Proofs.Expectations
import TreeCode.Proofs.Equality
import TreeCode.Proofs.Legibility
import TreeCode.Proofs.Truncation
import TreeCode.Proofs.Resolution
import TreeCode.Proofs.Settling
