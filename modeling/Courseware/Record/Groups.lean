import Courseware.Group.Request
import Courseware.Record

/-!
# Groups and memberships as records

Rows are written with their keys.
-/

namespace Courseware

instance : Recorded (GroupId × Group) :=
  .ofFields ["id", "name", "group_type", "free_access", "lock_user_deletion_until",
      "require_lock_membership_approval_until", "team_item_id"]
    (fun (id, g) =>
      (id, g.name, g.kind, g.freeAccess, g.leavingLockedUntil, g.approvalRequiredUntil, g.teamItem,
        ()))
    (fun (id, name, kind, freeAccess, leavingLockedUntil, approvalRequiredUntil, teamItem, ()) =>
      (id, { name, kind, freeAccess, leavingLockedUntil, approvalRequiredUntil, teamItem }))

instance : Recorded ((GroupId × GroupId) × Membership) :=
  .ofFields ["id", "parent", "child", "role", "relation_type", "lock_membership_approved",
      "leave_requested", "expires_at", "status_changed_at"]
    (fun ((parent, child), m) =>
      (m.id, parent, child, m.role, m.standing, m.lockApproved, m.leaveRequested,
        m.expiry.toOption, m.changedAt, ()))
    (fun (id, parent, child, role, standing, lockApproved, leaveRequested, expiresAt, changedAt,
        ()) =>
      ((parent, child),
        { id, role, standing, lockApproved, leaveRequested, changedAt
          expiry := .ofOption expiresAt }))

instance : Recorded ((GroupId × GroupId) × Ancestry) :=
  .ofFields ["ancestor", "child", "is_self", "expires_at"]
    (fun ((ancestor, child), a) => (ancestor, child, a.isSelf, a.expiry.toOption, ()))
    (fun (ancestor, child, isSelf, expiresAt, ()) =>
      ((ancestor, child), ⟨isSelf, .ofOption expiresAt⟩))

instance : Recorded MembershipTerms :=
  .ofFields ["role", "expires_at", "lock_membership_approved"]
    (fun t => (t.role, t.expiresAt, t.lockApproved, ()))
    (fun (role, expiresAt, lockApproved, ()) => { role, expiresAt, lockApproved })

instance : Recorded MembershipState :=
  .ofFields ["relation", "leave_requested"]
    (fun s => (s.standing, s.leaveRequested, ()))
    (fun (standing, leaveRequested, ()) => { standing, leaveRequested })

/-- What a user approves of along with a request. -/
structure Approvals where
  lockMembership : Bool
  deriving DecidableEq

instance : Recorded Approvals :=
  .ofFields ["lock_membership"] (fun a => (a.lockMembership, ())) (fun (lock, ()) => ⟨lock⟩)

instance : Recorded RelationRequest :=
  .ofFields ["parent", "children", "action", "actor", "role", "expires_at", "approvals"]
    (fun r =>
      (r.parent, r.children, r.action, r.actor, r.role, r.expiresAt, Approvals.mk r.approvesLock,
        ()))
    (fun (parent, children, action, actor, role, expiresAt, approvals, ()) =>
      { parent, children, action, actor, role, expiresAt
        approvesLock := approvals.lockMembership })

instance : Recorded TransitionResult :=
  .ofFields ["child", "edge_id", "new_state", "changed", "status"]
    (fun r => (r.child, r.edgeId, r.state, r.changed, r.status, ()))
    (fun (child, edgeId, state, changed, status, ()) => { child, edgeId, state, changed, status })

end Courseware
