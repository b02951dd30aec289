import Resumable.Console.Stepper
import Resumable.Decimal.Reading
import Resumable.Main
import Resumable.Session
import Resumable.Text.Template
import Resumable.Proofs.Structured.Acceptance
import Resumable.Proofs.Structured.Lowering
import Resumable.Proofs.Structured.Supply
import Resumable.Proofs.Arena.Changes
import Resumable.Proofs.Arena.Forest
import Resumable.Proofs.Arena.Frame
import Resumable.Proofs.Arena.History
import Resumable.Proofs.Arena.Sharing
import Resumable.Proofs.Continuation.Account
import Resumable.Proofs.Continuation.Content
import Resumable.Proofs.Continuation.Delete
import Resumable.Proofs.Continuation.Meaning
import Resumable.Proofs.Continuation.Support
import Resumable.Proofs.Continuation.Typing
import Resumable.Proofs.Evaluation.Course
import Resumable.Proofs.Generator.Outcomes
import Resumable.Proofs.Hygiene.Preservation
import Resumable.Proofs.Unreachable.Reports
import Resumable.Proofs.Instance.Schedule
import Resumable.Proofs.Limit
import Resumable.Proofs.Pass.Distribution
import Resumable.Proofs.Pass.WellFormed
import Resumable.Proofs.Tree.Replacement
import Resumable.Proofs.Registry.Instances
import Resumable.Proofs.Registry.Resolution
import Resumable.Proofs.Console.Arguments
import Resumable.Proofs.Console.Stepping
import Resumable.Proofs.Decimal.Integer
import Resumable.Proofs.Render.Reading
import Resumable.Proofs.Render.RoundTrip
