import Courseware.Call
import Courseware.Record

/-!
# Reports

How answers are shown: like records, but with named values by their names, and with what follows
from a value shown beside it.
-/

namespace Courseware

namespace Value

def name {α : Type} [Vocabulary α] (a : α) : Value := text (Vocabulary.name a)

def time (t : Timestamp) : Value := int t.toInt

/-- A value, or `null` for none. -/
def opt {α : Type} (value : α → Value) : Option α → Value
  | some a => value a
  | none => null

def pairs (ps : List (Int × Int)) : Value := list (ps.map fun p => list [int p.1, int p.2])

end Value

def MembershipState.report (s : MembershipState) : Value :=
  .record [("relation", .opt .name s.standing), ("leave_requested", .bool s.leaveRequested),
    ("active", .bool s.isActive)]

def ClosureChange.report (c : ClosureChange) : Value :=
  .record [("changed_groups", .list (c.changedGroups.keys.map .int)), ("upserted", .int c.upserted),
    ("deleted", .int c.deleted), ("empty", .bool c.isEmpty)]

def PermissionOutcome.report (o : PermissionOutcome) : Value :=
  .record [("recomputed", .int o.recomputed), ("changed", .pairs o.changed.keys),
    ("newly_visible", .pairs o.newlyVisible.keys)]

/-- Levels with all that they allow. -/
def Levels.report (l : Levels) : Value :=
  .record [("can_view", .text (Level.render l.canView)),
    ("can_grant_view", .text (Level.render l.canGrantView)),
    ("can_watch", .text (Level.render l.canWatch)), ("can_edit", .text (Level.render l.canEdit)),
    ("is_owner", .bool l.isOwner), ("is_grayed", .bool l.isGrayed),
    ("can", .list ([l.seesInfo, l.seesContent, l.seesDescendants, l.seesSolution, l.grantsView,
      l.watchesResults, l.watchesAnswers, l.editsChildren, l.editsAll].map .bool))]

def Tiers.report (t : Tiers) : Value :=
  .list (t.toList.map fun e =>
    .list [.name e.1, .int e.2.level, .opt .time e.2.since.toOption])

def Aggregate.report (a : Aggregate) : Value :=
  .record [("score", .float a.score), ("obtained", .opt .time a.obtainedAt),
    ("validated", .opt .time a.validatedAt), ("tried", .int a.tasksTried.toInt),
    ("activity", .time a.activityAt)]

def TransitionResult.report (r : TransitionResult) : Value :=
  .record [("child", .int r.child), ("edge_id", .opt .int r.edgeId), ("new_state", r.state.report),
    ("changed", .bool r.changed), ("status", .name r.status)]

def Reply.report : Reply → Value
  | done => .null
  | flag value => .bool value
  | closure change => change.report
  | deletion d =>
    .record [("removed", .bool d.removed), ("deleted_groups", .list (d.deletedGroups.map .int)),
      ("closure", d.closure.report)]
  | transition o =>
    .record [("action", .name o.action), ("closure", o.closure.report),
      ("results", .list (o.results.map (·.report)))]
  | permissions outcome => outcome.report
  | attempt id => .int id
  | answer id => .int id
  | grade .recorded => .text "Recorded"
  | grade .replayed => .text "Replayed"
  | results o =>
    .record [("propagated", .int o.propagated), ("recomputed", .int o.recomputed),
      ("created", .int o.created)]

end Courseware
