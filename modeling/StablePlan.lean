import StablePlan.Main
import StablePlan.Proofs.Ascending
import StablePlan.Proofs.Stable.Theory
import StablePlan.Proofs.Stable.Trail
import StablePlan.Proofs.Stable.Propagation
import StablePlan.Proofs.Stable.Stability
import StablePlan.Proofs.Program.Meaning
import StablePlan.Proofs.Stable.Search
import StablePlan.Proofs.Stable.Descent
import StablePlan.Proofs.Program.Extension
import StablePlan.Proofs.Program.Unfolding
import StablePlan.Proofs.Stable.Record
import StablePlan.Proofs.Stable.Solve
import StablePlan.Proofs.Stable.Consequences
import StablePlan.Proofs.Stable.Constraints
import StablePlan.Proofs.Stable.Budget
import StablePlan.Proofs.Stable.Failing
import StablePlan.Proofs.Stable.Released
import StablePlan.Proofs.Program.Obeys
import StablePlan.Proofs.Stable.Shifting
import StablePlan.Proofs.Stable.Loading
import StablePlan.Proofs.Symbol.Order
import StablePlan.Proofs.Serial.Ordering
import StablePlan.Proofs.Serial.Execution
import StablePlan.Proofs.Serial.Minimum
import StablePlan.Proofs.Serial.Verdicts
import StablePlan.Proofs.Transition.Records
import StablePlan.Proofs.Transition.Coherence
import StablePlan.Proofs.Transition.Collecting
import StablePlan.Proofs.Transition.Stating
import StablePlan.Proofs.Transition.Upkeep
import StablePlan.Proofs.Transition.Review
import StablePlan.Proofs.Transition.Resolving
import StablePlan.Proofs.Transition.Settling
import StablePlan.Proofs.Transition.Run
import StablePlan.Proofs.Transition.Mirroring
import StablePlan.Proofs.Transition.Tidying
import StablePlan.Proofs.Transition.Fixpoint
import StablePlan.Proofs.Transition.Residue
import StablePlan.Proofs.Transition.Closure
import StablePlan.Proofs.Transition.Inferring
import StablePlan.Proofs.Transition.Deriving
import StablePlan.Proofs.Transition.Concluding
import StablePlan.Proofs.Transition.Remaining
import StablePlan.Proofs.Transition.Confluence
import StablePlan.Proofs.Text.Decimal
import StablePlan.Proofs.Text.Lines
import StablePlan.Proofs.Text.Quoted
import StablePlan.Proofs.Symbol.Reading
import StablePlan.Proofs.Program.Writing
import StablePlan.Proofs.Program.Rereading
import StablePlan.Proofs.Program.Labels
import StablePlan.Proofs.Transition.Replay
import StablePlan.Proofs.Program.Renaming
import StablePlan.Proofs.Transition.Layout
import StablePlan.Proofs.Transition.Naming
import StablePlan.Proofs.Unrolling.Reading
import StablePlan.Proofs.Unrolling.Stepping
import StablePlan.Proofs.Unrolling.Grounding
import StablePlan.Proofs.Unrolling.Assuming
import StablePlan.Proofs.Unrolling.Externals
import StablePlan.Proofs.Unrolling.Trajectory
import StablePlan.Proofs.Unrolling.Telling
import StablePlan.Proofs.Unrolling.Ledger
import StablePlan.Proofs.Unrolling.Recording
import StablePlan.Proofs.Unrolling.Pieces
import StablePlan.Proofs.Unrolling.Showing
import StablePlan.Proofs.Unrolling.Answers
import StablePlan.Proofs.Plan.Calls
import StablePlan.Proofs.Unrolling.TwoBands
import StablePlan.Proofs.Plan.Steering
import StablePlan.Proofs.Plan.Solving
import StablePlan.Proofs.Plan.Attempt
import StablePlan.Proofs.Plan.Deciding
import StablePlan.Proofs.Plan.Order
import StablePlan.Proofs.Plan.Plans
import StablePlan.Proofs.Plan.Search
import StablePlan.Proofs.Plan.History
import StablePlan.Proofs.Plan.Course
import StablePlan.Proofs.Plan.Blocking
import StablePlan.Proofs.Plan.Rejection
import StablePlan.Proofs.Plan.Acceptance
import StablePlan.Proofs.Plan.Shortest
import StablePlan.Proofs.Lengths.Dialogue
import StablePlan.Proofs.Lengths.Queue
import StablePlan.Proofs.Lengths.Pool
import StablePlan.Proofs.Lengths.Strategy
import StablePlan.Proofs.Lengths.Ending
import StablePlan.Proofs.Lengths.Effort
import StablePlan.Proofs.Unrolling.Switching
import StablePlan.Proofs.Transition.Census
import StablePlan.Proofs.Symbol.Joining
import StablePlan.Proofs.Plan.Admission
import StablePlan.Proofs.Plan.Conversation
import StablePlan.Proofs.Plan.Retrying
