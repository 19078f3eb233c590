import Backtrack.Config.Offers
import Backtrack.Config.Violation
import Backtrack.Custom.Contract
import Backtrack.Custom.Observed
import Backtrack.Fixture.Basic
import Backtrack.Proofs.Budget
import Backtrack.Proofs.CallTree
import Backtrack.Proofs.Canonicity
import Backtrack.Proofs.Compilation
import Backtrack.Proofs.Completeness
import Backtrack.Proofs.Consumption
import Backtrack.Proofs.Descent
import Backtrack.Proofs.Earning
import Backtrack.Proofs.Literal
import Backtrack.Proofs.Nesting
import Backtrack.Proofs.NodeCount
import Backtrack.Proofs.Observation
import Backtrack.Proofs.Passage
import Backtrack.Proofs.Readability
import Backtrack.Proofs.Refinement
import Backtrack.Proofs.Repetition
import Backtrack.Proofs.RoundTrip
import Backtrack.Proofs.Transparency
import Backtrack.Proofs.Trust
import Backtrack.Proofs.Unread
import Backtrack.Search.Invariant
import Backtrack.Search.Offers
import Backtrack.Workbench.Acceptance
import Backtrack.Workbench.Basic
