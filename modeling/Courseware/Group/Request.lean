import Courseware.Group.Action
import Courseware.Group.Closure

/-!
# Requests to change memberships

A request asks for one action on the memberships of several children of one group. It is checked
against the rights of the actor and the locks of the group, then child after child against the
life cycle; any refusal refuses the whole request.
-/

namespace Courseware

structure RelationRequest where
  parent : GroupId
  children : List GroupId
  action : Action
  /-- The user who asks. -/
  actor : GroupId
  role : Option String
  expiresAt : Option Timestamp
  /-- Whether the user approves that the membership can be locked. -/
  approvesLock : Bool
  deriving DecidableEq

inductive TransitionStatus where
  | success | unchanged | invalid
  deriving DecidableEq

instance : Vocabulary TransitionStatus where
  all := [.success, .unchanged, .invalid]
  name | .success => "Success" | .unchanged => "Unchanged" | .invalid => "Invalid"
  tag | .success => "Success" | .unchanged => "Unchanged" | .invalid => "Invalid"

/-- What came of a request for one child. -/
structure TransitionResult where
  child : GroupId
  edgeId : Option EdgeId
  state : MembershipState
  changed : Bool
  status : TransitionStatus
  deriving DecidableEq

structure TransitionOutcome where
  /-- The action as it was carried out. -/
  action : Action
  results : List TransitionResult
  closure : ClosureChange
  deriving DecidableEq

namespace Store

/-- The action that a request comes to. Managers who ask to join are accepted at once; other join
requests are for groups with free access, administration is for managers, and nobody leaves while
leaving is locked. -/
def admittedAction (group : Group) (r : RelationRequest) (manages : Bool) (now : Timestamp) :
    Except Fault Action :=
  if r.action.isAdmin && !manages then .error .accessDenied
  else
    match r.action with
    | .userCreatesJoinRequest =>
      if manages then .ok .userCreatesAcceptedJoinRequest
      else if group.freeAccess then .ok .userCreatesJoinRequest
      else .error .accessDenied
    | .userCreatesAcceptedJoinRequest =>
      if manages then .ok .userCreatesAcceptedJoinRequest else .error .accessDenied
    | .userLeavesGroup =>
      if group.isLeavingLocked now then
        .error (.forbidden (.leavingBefore r.parent (group.leavingLockedUntil.getD .latest)))
      else .ok .userLeavesGroup
    | action => .ok action

/-- Refuses a second team for the same item. -/
def ensureNoOtherTeam (s : Store) (group : Group) (r : RelationRequest) (child : GroupId)
    (now : Timestamp) : Except Fault Unit :=
  match group.kind, group.teamItem with
  | .team, some item =>
    match s.teamMemberships child item r.parent now with
    | team :: _ => .error (.unprocessable (.otherTeam child team item))
    | [] => .ok ()
  | _, _ => .ok ()

/-- The approval to write down when a child joins: where one is required, users give it with the
request, and managers rely on the one stored with the membership. -/
def requiredApproval (group : Group) (r : RelationRequest) (action : Action) (stored : Bool)
    (now : Timestamp) : Except Fault (Option Bool) :=
  if !group.isMembershipLocked now then .ok none
  else if (if action.isAdmin then stored else r.approvesLock) then .ok (some true)
  else .error (.unprocessable (.approvalMissing r.parent))

/-- Carries out an action on one membership; also tells whether it became active or stopped being
so. -/
def moveChild (s : Store) (group : Group) (r : RelationRequest) (action : Action)
    (child : GroupId) (now : Timestamp) : Except Fault ((TransitionResult × Bool) × Store) := do
  let membership := s.memberships.get? (r.parent, child)
  let current := MembershipState.ofMembership membership
  let approved := membership.any (·.lockApproved)
  if action.isLeaveRequest && approved && group.isMembershipLocked now then
    .error (.forbidden (.membershipLocked r.parent))
  match nextState action current with
  | .unchanged => return ((⟨child, membership.map (·.id), current, false, .unchanged⟩, false), s)
  | .invalid => return ((⟨child, membership.map (·.id), current, false, .invalid⟩, false), s)
  | .apply standing leaveRequested =>
    let activates := decide (standing = .active) && !current.isActive
    let approval ←
      if activates || decide (standing = .requestSent) then do
        s.ensureNoOtherTeam group r child now
        requiredApproval group r action approved now
      else .ok none
    if activates then s.ensureNoCycle r.parent child
    let (id, s) ← Fault.lift (s.putMembership r.parent child standing leaveRequested
      ⟨r.role, r.expiresAt, approval⟩ now)
    return ((⟨child, some id, ⟨some standing, leaveRequested⟩, true, .success⟩,
      decide (decide (standing = .active) ≠ current.isActive)), s)

/-- Carries out an action on the children of a request, one after the other. -/
def moveChildren (s : Store) (group : Group) (r : RelationRequest) (action : Action)
    (now : Timestamp) : List GroupId → Except Fault ((List TransitionResult × Bool) × Store)
  | [] => .ok (([], false), s)
  | child :: rest => do
    let ((result, flipped), s) ← s.moveChild group r action child now
    let ((results, flippedLater), s) ← s.moveChildren group r action now rest
    return ((result :: results, flipped || flippedLater), s)

/-- Carries out a request. The closure is recomputed once, if a membership became active or stopped
being so. -/
def applyRequest (s : Store) (r : RelationRequest) (now : Timestamp) :
    Except Fault (TransitionOutcome × Store) := do
  let group ← match s.groups.get? r.parent with
    | some group => .ok group
    | none => .error (if r.action.isJoinRequest then .accessDenied else .notFound (.group r.parent))
  let action ← admittedAction group r (s.manages r.actor r.parent now) now
  let ((results, flipped), s) ← s.moveChildren group r action now r.children
  if flipped then
    let (change, s) := s.recomputeClosure
    return (⟨action, results, change⟩, s)
  else return (⟨action, results, .none⟩, s)

end Store

end Courseware
