import Courseware.Record.Groups
import Courseware.Record.Items
import Courseware.Record.Permissions
import Courseware.Record.Results
import Courseware.Record.Settings
import Courseware.Report
import Courseware.Session
import Courseware.Store.Cells
import Courseware.Store.TierRows
import Courseware.Proofs.Ends
import Courseware.Proofs.Orphans
import Courseware.Proofs.Teams
import Courseware.Proofs.Feeding
import Courseware.Proofs.Leaving
import Courseware.Proofs.Refusal
import Courseware.Proofs.Recovery
import Courseware.Proofs.Granting
import Courseware.Proofs.Commuting
import Courseware.Proofs.Upheld
import Courseware.Proofs.Consent
import Courseware.Proofs.Approval
import Courseware.Proofs.ItemGraph
import Courseware.Proofs.Solution
import Courseware.Proofs.Effective
import Courseware.Proofs.Failures
import Courseware.Proofs.Inherited
import Courseware.Proofs.Cone
import Courseware.Proofs.Reported
import Courseware.Proofs.Cascade
import Courseware.Proofs.Replays
import Courseware.Proofs.Leaves
import Courseware.Proofs.Separate
import Courseware.Proofs.Resting
import Courseware.Proofs.Identifiers
import Courseware.Proofs.Canonical
import Courseware.Proofs.Ranking
import Courseware.Proofs.Budget
import Courseware.Proofs.Saturation
