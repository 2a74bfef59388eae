import Courseware.Store

/-!
# Stored groups

Groups, memberships, managers and what is known about ancestors, row by row.
-/

namespace Courseware.Store

/-- Adds a group, which is its own ancestor from the start. -/
def insertGroup (s : Store) (id : GroupId) (group : Group) : Except StoreFault Store :=
  if s.groups.contains id then .error (.taken "groups.id")
  else
    .ok { s with
      groups := s.groups.insert id group
      ancestors :=
        if s.ancestors.contains (id, id) then s.ancestors
        else s.ancestors.insert (id, id) ⟨true, .never⟩ }

/-- Removes a group and everything that refers to it. -/
def dropGroup (s : Store) (id : GroupId) : Store :=
  { s with
    groups := s.groups.erase id
    memberships := s.memberships.filter fun k _ => k.1 ≠ id && k.2 ≠ id
    ancestors := s.ancestors.filter fun k _ => k.1 ≠ id && k.2 ≠ id
    managers := s.managers.filter fun k _ => k.1 ≠ id && k.2 ≠ id
    grants := s.grants.filter fun k _ => k.1 ≠ id
    generated := s.generated.filter fun k _ => k.1 ≠ id
    attempts := s.attempts.filter fun k _ => k.1 ≠ id
    results := s.results.filter fun k _ => k.participant ≠ id
    answers := s.answers.filter fun _ a => a.result.participant ≠ id
    gradings := s.gradings.filter fun k _ =>
      (s.answers.get? k).all fun a => a.result.participant ≠ id }

/-- Removes groups one after the other, counting those that were there. -/
def deleteGroups (s : Store) : List GroupId → Nat × Store
  | [] => (0, s)
  | id :: rest =>
    if s.groups.contains id then
      let (count, s) := (s.dropGroup id).deleteGroups rest
      (count + 1, s)
    else s.deleteGroups rest

/-! ### Memberships -/

/-- The membership after it gets a new standing: unset terms keep their values, except for the end
of a membership that becomes active, and the date of the standing moves only with the standing. -/
def renewed (m : Membership) (standing : Standing) (leaveRequested : Bool)
    (terms : MembershipTerms) (now : Timestamp) : Membership where
  id := m.id
  role := terms.role.getD m.role
  standing := standing
  lockApproved := terms.lockApproved.getD m.lockApproved
  leaveRequested := leaveRequested
  expiry :=
    match terms.expiresAt with
    | some date => .date date
    | none => if standing = .active ∧ m.standing ≠ .active then .never else m.expiry
  changedAt := if m.standing = standing then m.changedAt else now

/-- A membership as it starts. -/
def founded (id : EdgeId) (standing : Standing) (leaveRequested : Bool)
    (terms : MembershipTerms) (now : Timestamp) : Membership where
  id := id
  role := terms.role.getD "member"
  standing := standing
  lockApproved := terms.lockApproved.getD false
  leaveRequested := leaveRequested
  expiry := .ofOption terms.expiresAt
  changedAt := now

/-- Starts a membership or gives it a new standing; answers its number. A number is used up in
either case. -/
def putMembership (s : Store) (parent child : GroupId) (standing : Standing)
    (leaveRequested : Bool) (terms : MembershipTerms) (now : Timestamp) :
    Except StoreFault (EdgeId × Store) := do
  demand (s.groups.contains parent && s.groups.contains child)
  let next := s.lastEdgeId + 1
  let membership :=
    match s.memberships.get? (parent, child) with
    | some m => renewed m standing leaveRequested terms now
    | none => founded next standing leaveRequested terms now
  return (membership.id,
    { s with
      memberships := s.memberships.insert (parent, child) membership
      lastEdgeId := next })

/-- Removes a membership and tells whether there was one. -/
def deleteMembership (s : Store) (parent child : GroupId) : Bool × Store :=
  (s.memberships.contains (parent, child),
    { s with memberships := s.memberships.erase (parent, child) })

/-- The network of active memberships, ended ones included. -/
def activeNetwork (s : Store) : Network GroupId :=
  (s.memberships.filter fun _ m => m.isActive).map fun _ m => m.expiry

/-- The parents of a group by active memberships. -/
def activeParents (s : Store) (child : GroupId) : List GroupId :=
  (s.memberships.toList.filter fun e => e.1.2 = child && e.2.isActive).map (·.1.1)

/-- The teams for an item, other than one, of which a group is an effective member. -/
def teamMemberships (s : Store) (child : GroupId) (item : ItemId) (apart : GroupId)
    (now : Timestamp) : List GroupId :=
  (s.groups.toList.filter fun e =>
    e.2.kind = .team && e.2.teamItem = some item && e.1 ≠ apart &&
      (s.memberships.get? (e.1, child)).any (·.isEffective now)).map (·.1)

/-! ### Ancestors and managers -/

/-- Records ancestors, in place of what was recorded about the same pairs. -/
def upsertAncestors (s : Store) (rows : List ((GroupId × GroupId) × Ancestry)) : Store :=
  { s with ancestors := s.ancestors.insertAll rows }

def deleteAncestors (s : Store) (pairs : List (GroupId × GroupId)) : Store :=
  { s with ancestors := s.ancestors.eraseAll pairs }

/-- The ancestors of a group, itself among them. -/
def ancestorsOf (s : Store) (child : GroupId) : List (GroupId × Ancestry) :=
  (s.ancestors.toList.filter fun e => e.1.2 = child).map fun e => (e.1.1, e.2)

/-- The descendants of a group, itself among them. -/
def descendantsOf (s : Store) (ancestor : GroupId) : List (GroupId × Ancestry) :=
  (s.ancestors.toList.filter fun e => e.1.1 = ancestor).map fun e => (e.1.2, e.2)

/-- Whether a group is recorded as an ancestor, ended or not. -/
def isAncestor (s : Store) (ancestor child : GroupId) : Bool :=
  s.ancestors.contains (ancestor, child)

/-- Whether a group is recorded as an ancestor whose end has not come. -/
def isAncestorAt (s : Store) (ancestor child : GroupId) (now : Timestamp) : Bool :=
  (s.ancestors.get? (ancestor, child)).any fun a => !a.expiry.isPast now

/-- Makes the members of one group managers of another; tells whether they were not yet. -/
def addManager (s : Store) (group manager : GroupId) : Except StoreFault (Bool × Store) :=
  if s.managers.contains (group, manager) then .ok (false, s)
  else do
    demand (s.groups.contains group && s.groups.contains manager)
    return (true, { s with managers := s.managers.add (group, manager) })

/-- Whether a group of which `actor` is a member manages `group` or an ancestor of it. -/
def manages (s : Store) (actor group : GroupId) (now : Timestamp) : Bool :=
  s.managers.any fun k _ => s.isAncestorAt k.2 actor now && s.isAncestorAt k.1 group now

end Courseware.Store
