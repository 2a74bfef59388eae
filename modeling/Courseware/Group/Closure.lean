import Courseware.Store.Groups

/-!
# The closure of memberships

The ancestors of every group are kept along with the memberships: a group is an ancestor as long as
some walk of active memberships leads down from it, until the latest end among these walks. Ended
memberships still count, so that they keep blocking cycles. Relations are created and removed here
together with the closure.
-/

namespace Courseware

/-- How a recomputation changed what is known about ancestors. -/
structure ClosureChange where
  /-- The groups of which some ancestor was added, removed or altered. -/
  changedGroups : KeySet GroupId
  upserted : Nat
  deleted : Nat
  deriving DecidableEq

namespace ClosureChange

def none : ClosureChange := ⟨∅, 0, 0⟩

def isEmpty (c : ClosureChange) : Bool := c.changedGroups.isEmpty

/-- Both changes, one after the other. -/
def merge (a b : ClosureChange) : ClosureChange :=
  ⟨a.changedGroups.union b.changedGroups, a.upserted + b.upserted, a.deleted + b.deleted⟩

/-- The change as far as it concerns other groups than the given ones. -/
def without (c : ClosureChange) (groups : List GroupId) : ClosureChange :=
  { c with changedGroups := c.changedGroups.filter fun g _ => g ∉ groups }

end ClosureChange

namespace Store

/-- What there is to know about ancestors: each group with all it reaches by active memberships. -/
def closure (s : Store) : Table (GroupId × GroupId) Ancestry :=
  .ofList (s.groups.keys.flatMap fun a =>
    (s.activeNetwork.widest a).toList.map fun e => ((a, e.1), ⟨decide (a = e.1), e.2⟩))

/-- Brings what is known about ancestors up to date, by writing the difference, and tells it. -/
def recomputeClosure (s : Store) : ClosureChange × Store :=
  let closure := s.closure
  let written := closure.filter fun k a => s.ancestors.get? k ≠ some a
  let removed := s.ancestors.filter fun k _ => !closure.contains k
  (⟨.ofKeys ((written.keys ++ removed.keys).map (·.2)), written.size, removed.size⟩,
    (s.upsertAncestors written.toList).deleteAncestors removed.keys)

/-- Refuses a relation that would close a cycle. -/
def ensureNoCycle (s : Store) (parent child : GroupId) : Except Fault Unit :=
  if parent = child ∨ s.isAncestor child parent then .error (.relationCycle parent child)
  else .ok ()

/-- Makes `child` an active member of `parent`. A membership there was before is forgotten, its end
included. -/
def createRelation (s : Store) (parent child : GroupId) (terms : MembershipTerms)
    (now : Timestamp) : Except Fault (ClosureChange × Store) := do
  s.ensureNoCycle parent child
  let s := (s.deleteMembership parent child).2
  let (_, s) ← Fault.lift (s.putMembership parent child .active false terms now)
  return s.recomputeClosure

/-- Makes each child an active member of its parent. -/
def activateAll (s : Store) (now : Timestamp) : List (GroupId × GroupId) → Except StoreFault Store
  | [] => .ok s
  | (parent, child) :: rest => do
    let (_, s) ← s.putMembership parent child .active false .unset now
    s.activateAll now rest

/-- Makes each child an active member of its parent, without looking for cycles: for groups too new
to be on one. -/
def createRelations (s : Store) (pairs : List (GroupId × GroupId)) (now : Timestamp) :
    Except Fault (ClosureChange × Store) := do
  let s ← Fault.lift (s.activateAll now pairs)
  return s.recomputeClosure

/-- What came of removing a relation. -/
structure RelationDeletion where
  removed : Bool
  deletedGroups : List GroupId
  closure : ClosureChange
  deriving DecidableEq

/-- The unprotected groups below `root`, itself among them. -/
def unprotectedBelow (s : Store) (root : GroupId) : KeySet GroupId :=
  .ofKeys ((s.descendantsOf root).filterMap fun e =>
    (s.groups.get? e.1).bind fun g => if g.kind.isProtected then none else some e.1)

/-- The unprotected groups below `root` all of whose ancestors are among these groups. -/
def orphansBelow (s : Store) (root : GroupId) : List GroupId :=
  let candidates := s.unprotectedBelow root
  candidates.keys.filter fun g => (s.ancestorsOf g).all fun e => candidates.contains e.1

/-- Removes the membership of `child` in `parent`. If it was the last active one of `child`, the
call fails unless orphans may be deleted; then the groups go that are left without an ancestor
outside of the detached part. -/
def deleteRelation (s : Store) (parent child : GroupId) (allowOrphans : Bool) :
    Except Fault (RelationDeletion × Store) :=
  match s.memberships.get? (parent, child) with
  | none => .ok (⟨false, [], .none⟩, s)
  | some m =>
    let orphaned := m.isActive && (s.activeParents child).all fun p => p = parent
    if orphaned && !allowOrphans then .error (.orphaned child)
    else
      let (change, s) := (s.deleteMembership parent child).2.recomputeClosure
      let orphans := if orphaned then s.orphansBelow child else []
      if orphans.isEmpty then .ok (⟨true, [], change⟩, s)
      else
        let (again, s) := (s.deleteGroups orphans).2.recomputeClosure
        .ok (⟨true, orphans, (change.merge again).without orphans⟩, s)

end Store

end Courseware
