import Courseware.Group

/-!
# The life cycle of a membership

Users and managers act on a membership; each action leads from some states to one state and is
refused in the others. `nextState` is the whole table.
-/

namespace Courseware

/-- What a user does to a membership of their own, or a manager to a membership of the group. -/
inductive Action where
  | userAcceptsInvitation
  | userRefusesInvitation
  | userCreatesJoinRequest
  | userCreatesAcceptedJoinRequest
  | userCreatesLeaveRequest
  | userCancelsLeaveRequest
  | userLeavesGroup
  | adminCreatesInvitation
  | adminAcceptsJoinRequest
  | adminRefusesJoinRequest
  | adminAcceptsLeaveRequest
  | adminRefusesLeaveRequest
  | adminRemovesMember
  deriving DecidableEq

instance : Vocabulary Action where
  all := [.userAcceptsInvitation, .userRefusesInvitation, .userCreatesJoinRequest,
    .userCreatesAcceptedJoinRequest, .userCreatesLeaveRequest, .userCancelsLeaveRequest,
    .userLeavesGroup, .adminCreatesInvitation, .adminAcceptsJoinRequest, .adminRefusesJoinRequest,
    .adminAcceptsLeaveRequest, .adminRefusesLeaveRequest, .adminRemovesMember]
  name
    | .userAcceptsInvitation => "userAcceptsInvitation"
    | .userRefusesInvitation => "userRefusesInvitation"
    | .userCreatesJoinRequest => "userCreatesJoinRequest"
    | .userCreatesAcceptedJoinRequest => "userCreatesAcceptedJoinRequest"
    | .userCreatesLeaveRequest => "userCreatesLeaveRequest"
    | .userCancelsLeaveRequest => "userCancelsLeaveRequest"
    | .userLeavesGroup => "userLeavesGroup"
    | .adminCreatesInvitation => "adminCreatesInvitation"
    | .adminAcceptsJoinRequest => "adminAcceptsJoinRequest"
    | .adminRefusesJoinRequest => "adminRefusesJoinRequest"
    | .adminAcceptsLeaveRequest => "adminAcceptsLeaveRequest"
    | .adminRefusesLeaveRequest => "adminRefusesLeaveRequest"
    | .adminRemovesMember => "adminRemovesMember"
  tag
    | .userAcceptsInvitation => "UserAcceptsInvitation"
    | .userRefusesInvitation => "UserRefusesInvitation"
    | .userCreatesJoinRequest => "UserCreatesJoinRequest"
    | .userCreatesAcceptedJoinRequest => "UserCreatesAcceptedJoinRequest"
    | .userCreatesLeaveRequest => "UserCreatesLeaveRequest"
    | .userCancelsLeaveRequest => "UserCancelsLeaveRequest"
    | .userLeavesGroup => "UserLeavesGroup"
    | .adminCreatesInvitation => "AdminCreatesInvitation"
    | .adminAcceptsJoinRequest => "AdminAcceptsJoinRequest"
    | .adminRefusesJoinRequest => "AdminRefusesJoinRequest"
    | .adminAcceptsLeaveRequest => "AdminAcceptsLeaveRequest"
    | .adminRefusesLeaveRequest => "AdminRefusesLeaveRequest"
    | .adminRemovesMember => "AdminRemovesMember"

namespace Action

/-- Whether only managers of the group may do it. -/
def isAdmin : Action → Bool
  | adminCreatesInvitation | adminAcceptsJoinRequest | adminRefusesJoinRequest
  | adminAcceptsLeaveRequest | adminRefusesLeaveRequest | adminRemovesMember => true
  | _ => false

/-- Whether it makes or takes back a request to leave. -/
def isLeaveRequest : Action → Bool
  | userCreatesLeaveRequest | userCancelsLeaveRequest => true
  | _ => false

/-- Whether it asks to join, be it granted in advance or not. -/
def isJoinRequest : Action → Bool
  | userCreatesJoinRequest | userCreatesAcceptedJoinRequest => true
  | _ => false

end Action

/-- The state of a membership as far as actions are concerned; without a standing there is none. -/
structure MembershipState where
  standing : Option Standing
  leaveRequested : Bool
  deriving DecidableEq

namespace MembershipState

def absent : MembershipState := ⟨none, false⟩

def isActive (s : MembershipState) : Bool := decide (s.standing = some .active)

end MembershipState

/-- The state of a stored membership, or of none. -/
def MembershipState.ofMembership : Option Membership → MembershipState
  | some m => ⟨some m.standing, m.leaveRequested⟩
  | none => .absent

/-- What an action does to a state. -/
inductive Transition where
  /-- It leads to this state. -/
  | apply (standing : Standing) (leaveRequested : Bool)
  /-- The state is the one that the action leads to. -/
  | unchanged
  /-- The action is not for this state. -/
  | invalid
  deriving DecidableEq

open Standing in
/-- What `action` does to a membership in the given state. -/
def nextState (action : Action) (current : MembershipState) : Transition :=
  match action, current.standing, current.leaveRequested with
  | .userAcceptsInvitation, some invitationSent, _ => .apply active false
  | .userAcceptsInvitation, some active, _ => .unchanged
  | .userAcceptsInvitation, _, _ => .invalid
  | .userRefusesInvitation, some invitationSent, _ => .apply invitationRefused false
  | .userRefusesInvitation, some invitationRefused, _ => .unchanged
  | .userRefusesInvitation, _, _ => .invalid
  | .userCreatesJoinRequest, some invitationSent, _ => .apply active false
  | .userCreatesJoinRequest, some requestSent, _ => .unchanged
  | .userCreatesJoinRequest, some active, _ => .invalid
  | .userCreatesJoinRequest, _, _ => .apply requestSent false
  | .userCreatesAcceptedJoinRequest, some active, _ => .unchanged
  | .userCreatesAcceptedJoinRequest, _, _ => .apply active false
  | .userCreatesLeaveRequest, some active, false => .apply active true
  | .userCreatesLeaveRequest, some active, true => .unchanged
  | .userCreatesLeaveRequest, _, _ => .invalid
  | .userCancelsLeaveRequest, some active, true => .apply active false
  | .userCancelsLeaveRequest, _, _ => .invalid
  | .userLeavesGroup, some active, _ => .apply left false
  | .userLeavesGroup, some left, _ => .unchanged
  | .userLeavesGroup, _, _ => .invalid
  | .adminRemovesMember, some active, _ => .apply left false
  | .adminRemovesMember, some left, _ => .unchanged
  | .adminRemovesMember, _, _ => .invalid
  | .adminCreatesInvitation, some requestSent, _ => .apply active false
  | .adminCreatesInvitation, some invitationSent, _ => .unchanged
  | .adminCreatesInvitation, some active, _ => .invalid
  | .adminCreatesInvitation, _, _ => .apply invitationSent false
  | .adminAcceptsJoinRequest, some requestSent, _ => .apply active false
  | .adminAcceptsJoinRequest, _, _ => .invalid
  | .adminRefusesJoinRequest, some requestSent, _ => .apply requestRefused false
  | .adminRefusesJoinRequest, _, _ => .invalid
  | .adminAcceptsLeaveRequest, some active, true => .apply left false
  | .adminAcceptsLeaveRequest, _, _ => .invalid
  | .adminRefusesLeaveRequest, some active, true => .apply active false
  | .adminRefusesLeaveRequest, _, _ => .invalid

end Courseware
