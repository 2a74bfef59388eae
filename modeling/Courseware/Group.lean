import Courseware.Ids
import Courseware.Validity
import Courseware.Vocabulary

/-!
# Groups and memberships

Groups form a hierarchy. A membership ties a child group to a parent group and goes through a life
cycle of standings; while its standing is `active` and its end has not come, the child is a member.
-/

namespace Courseware

inductive GroupKind where
  | classroom | team | club | friends | other
  /-- The group that stands for one user. -/
  | user
  /-- A root of the hierarchy. -/
  | base
  deriving DecidableEq

instance : Vocabulary GroupKind where
  all := [.classroom, .team, .club, .friends, .other, .user, .base]
  name
    | .classroom => "Class" | .team => "Team" | .club => "Club" | .friends => "Friends"
    | .other => "Other" | .user => "User" | .base => "Base"
  tag
    | .classroom => "Class" | .team => "Team" | .club => "Club" | .friends => "Friends"
    | .other => "Other" | .user => "UserSelf" | .base => "AdminRoot"

/-- Users and roots are never deleted along with a detached part of the hierarchy. -/
def GroupKind.isProtected : GroupKind → Bool
  | user | base => true
  | _ => false

structure Group where
  name : String
  kind : GroupKind
  freeAccess : Bool
  /-- Until when members cannot leave. -/
  leavingLockedUntil : Option Timestamp
  /-- Until when joining takes an approval of the membership lock. -/
  approvalRequiredUntil : Option Timestamp
  /-- The item that a team works on. -/
  teamItem : Option ItemId
  deriving DecidableEq

namespace Group

def isMembershipLocked (g : Group) (now : Timestamp) : Bool :=
  g.approvalRequiredUntil.any fun date => decide (now < date)

def isLeavingLocked (g : Group) (now : Timestamp) : Bool :=
  g.leavingLockedUntil.any fun date => decide (now < date)

end Group

/-- Where a membership stands in its life cycle. -/
inductive Standing where
  | invitationSent | invitationRefused | requestSent | requestRefused | active | left
  deriving DecidableEq

instance : Vocabulary Standing where
  all := [.invitationSent, .invitationRefused, .requestSent, .requestRefused, .active, .left]
  name
    | .invitationSent => "invitationSent" | .invitationRefused => "invitationRefused"
    | .requestSent => "requestSent" | .requestRefused => "requestRefused"
    | .active => "active" | .left => "left"
  tag
    | .invitationSent => "InvitationSent" | .invitationRefused => "InvitationRefused"
    | .requestSent => "RequestSent" | .requestRefused => "RequestRefused"
    | .active => "Active" | .left => "Left"

structure Membership where
  id : EdgeId
  role : String
  standing : Standing
  /-- Whether the member has approved that the membership can be locked. -/
  lockApproved : Bool
  leaveRequested : Bool
  expiry : Expiry
  /-- When the standing last changed. -/
  changedAt : Timestamp
  deriving DecidableEq

namespace Membership

def isActive (m : Membership) : Bool := decide (m.standing = .active)

/-- Active and not ended at `now`. -/
def isEffective (m : Membership) (now : Timestamp) : Bool := m.isActive && !m.expiry.isPast now

end Membership

/-- What is known about a group and one of its ancestors. -/
structure Ancestry where
  isSelf : Bool
  expiry : Expiry
  deriving DecidableEq

/-- What a call may set on a membership besides its standing; what is unset stays as it is. -/
structure MembershipTerms where
  role : Option String
  expiresAt : Option Timestamp
  lockApproved : Option Bool
  deriving DecidableEq

def MembershipTerms.unset : MembershipTerms := ⟨none, none, none⟩

end Courseware
