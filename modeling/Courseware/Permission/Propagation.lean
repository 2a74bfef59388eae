import Courseware.Group.Closure
import Courseware.Store.Permissions
import Courseware.Worklist

/-!
# Working out permissions

The access of a group to an item is due to the grants on the item to the group and its ancestors,
and to the access of the group to what the item is part of. Pairs are recomputed from these until
nothing is marked any more: a pair that changes marks the same group on every part of its item.
-/

namespace Courseware

/-- What came of working out permissions. -/
structure PermissionOutcome where
  /-- How many times a pair was recomputed. -/
  recomputed : Nat
  /-- The pairs whose tiers were written or removed. -/
  changed : KeySet Pair
  /-- The pairs that show at least information now and did not before. -/
  newlyVisible : KeySet Pair
  deriving DecidableEq

namespace PermissionOutcome

def none : PermissionOutcome := ⟨0, ∅, ∅⟩

def merge (a b : PermissionOutcome) : PermissionOutcome :=
  ⟨a.recomputed + b.recomputed, a.changed.union b.changed, a.newlyVisible.union b.newlyVisible⟩

end PermissionOutcome

namespace Store

/-- The tiers due to the grants on an item to a group and its ancestors. -/
def grantedTiers (s : Store) (pair : Pair) (now : Timestamp) : Tiers :=
  (s.effectiveGrants pair.1 pair.2 now).foldl (fun t e => t.addGrant e.2) ∅

/-- The tiers that a pair is due: those granted and those inherited from what the item is part of,
custom chapters excepted. -/
def dueTiers (s : Store) (pair : Pair) (now : Timestamp) : Tiers :=
  ((s.wholesOf pair.2).foldl
    (fun t w =>
      if w.2.2.customChapter then t
      else t.merge ((s.tiersOf (pair.1, w.1)).inherit w.2.1.partialAccess))
    (s.grantedTiers pair now)).normalize

/-- Whether a pair shows at least information by its stored levels. -/
def showsInfo (s : Store) (pair : Pair) : Bool :=
  (s.generated.get? pair).any (·.levels.isVisible)

/-- Gives a pair the tiers that it is due; tells whether they are new. If they are not, the stored
levels are still brought up to `now`. -/
def recomputePair (s : Store) (pair : Pair) (now : Timestamp) : Bool × Store :=
  let due := s.dueTiers pair now
  match s.generated.get? pair with
  | some g => if g.tiers = due then (false, s.refresh pair now) else (true, s.setTiers pair due now)
  | none => if due.isEmpty then (false, s) else (true, s.setTiers pair due now)

/-- Whether a pair is about to show information for the first time. -/
def becomesVisible (s : Store) (pair : Pair) (now : Timestamp) : Bool :=
  (Levels.ofTiers (s.dueTiers pair now) now).isVisible && !s.showsInfo pair

end Store

/-- Permissions being worked out: the store, what is still marked, and the outcome so far. -/
structure PermissionRun where
  store : Store
  worklist : Worklist Pair
  outcome : PermissionOutcome

namespace PermissionRun

/-- Recomputes a pair; if it changed, its parts are marked for their turn. -/
def visit (now : Timestamp) (r : PermissionRun) (pair : Pair) : PermissionRun :=
  let visible := r.store.becomesVisible pair now
  let (changed, store) := r.store.recomputePair pair now
  { store
    worklist := if changed then r.worklist.mark pair .children else r.worklist
    outcome :=
      { recomputed := r.outcome.recomputed + 1
        changed := if changed then r.outcome.changed.add pair else r.outcome.changed
        newlyVisible :=
          if visible then r.outcome.newlyVisible.add pair else r.outcome.newlyVisible } }

/-- The pairs that inherit from a pair: the same group on the parts of the item, unless that is a
custom chapter. -/
def heirs (s : Store) (pair : Pair) : List Pair :=
  match s.items.get? pair.2 with
  | some item => if item.customChapter then [] else (s.partsOf pair.2).map fun p => (pair.1, p.1)
  | none => []

/-- Marks the heirs of a pair. -/
def spread (r : PermissionRun) (pair : Pair) : PermissionRun :=
  { r with worklist := r.worklist.extend (heirs r.store pair) .itself }

/-- Recomputes every marked pair, then marks the heirs of those that changed. -/
def pass (now : Timestamp) (r : PermissionRun) : PermissionRun :=
  let (pairs, worklist) := r.worklist.take .itself
  let r := pairs.foldl (visit now) { r with worklist }
  let (changed, worklist) := r.worklist.take .children
  changed.foldl spread { r with worklist }

/-- Passes until nothing is marked. -/
def loop (now : Timestamp) : Nat → PermissionRun → PermissionRun
  | 0, r => r
  | passes + 1, r => if r.worklist.isEmpty then r else loop now passes (r.pass now)

end PermissionRun

namespace Store

/-- More passes than it takes to carry a change through every chain of parts, for each of the grants
and rows there are. -/
def passLimit (s : Store) (w : Worklist Pair) : Nat :=
  (s.items.size + 2) * (s.grants.size + s.generated.size + w.size + 2) * 32

/-- Recomputes the marked pairs and all that depends on them. -/
def propagatePermissions (s : Store) (w : Worklist Pair) (now : Timestamp) :
    PermissionOutcome × Store :=
  let r := PermissionRun.loop now (s.passLimit w) ⟨s, w, .none⟩
  (r.outcome, r.store)

/-! ### The pairs that a change concerns -/

/-- A grant concerns the item at the group and all its descendants. -/
def pairsForGrant (s : Store) (group : GroupId) (item : ItemId) : List Pair :=
  (s.descendantsOf group).map fun e => (e.1, item)

/-- A change of ancestors concerns what the changed groups have and what is granted to their
ancestors. -/
def pairsForClosure (s : Store) (change : ClosureChange) (now : Timestamp) : List Pair :=
  let groups := change.changedGroups.keys
  s.generatedPairs groups ++
    groups.flatMap fun g => (s.grantedItems g now).keys.map fun item => (g, item)

/-- A link concerns the part at every group with access to either end. -/
def pairsForLink (s : Store) (parent child : ItemId) : List Pair :=
  (s.groupsWithGenerated [parent, child]).keys.map fun g => (g, child)

/-! ### The passage of time -/

/-- Brings the levels of pairs up to `now`; answers those that show information now and did not
before. -/
def refreshAll (s : Store) (now : Timestamp) : List Pair → KeySet Pair × Store
  | [] => (∅, s)
  | pair :: rest =>
    let refreshed := s.refresh pair now
    let (visible, after) := refreshed.refreshAll now rest
    (if refreshed.showsInfo pair && !s.showsInfo pair then visible.add pair else visible, after)

/-- Brings permissions up to `now`: where tiers came into effect the levels are looked up again, and
where ancestors were lost the tiers are recomputed. -/
def sweepPermissions (s : Store) (now : Timestamp) : PermissionOutcome × Store :=
  let expired := s.pairsWithExpiredAncestor now
  let (visible, s) := s.refreshAll now (s.pairsWithActivation now)
  let (outcome, s) := s.propagatePermissions (.ofKeys expired) now
  (PermissionOutcome.merge ⟨0, ∅, visible⟩ outcome, s)

end Store

end Courseware
