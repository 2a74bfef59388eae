import Courseware.Permission.Propagation
import Courseware.Result.Propagation

/-!
# Settling what a change touches

Permissions are worked out for the pairs that a change concerns. Where an item has become visible,
the results on its parts are marked, since results above them may exist now; then all results are
settled.
-/

namespace Courseware.Store

/-- Marks the results on the parts of each pair's item, of participants below its group. -/
def markBelow (s : Store) (now : Timestamp) : List Pair → Store
  | [] => s
  | pair :: rest => (s.markPartResultsBelow pair.1 pair.2 now).2.markBelow now rest

/-- Settles the results below newly visible items, and with them all results. -/
def settleVisible (s : Store) (outcome : PermissionOutcome) (now : Timestamp) :
    Except Fault (ResultOutcome × Store) :=
  (s.markBelow now outcome.newlyVisible.keys).propagateResults now

/-- Works out permissions for the given pairs and settles results. -/
def settlePairs (s : Store) (pairs : List Pair) (now : Timestamp) :
    Except Fault (PermissionOutcome × Store) := do
  let (outcome, s) := s.propagatePermissions (.ofKeys pairs) now
  let (_, s) ← s.settleVisible outcome now
  return (outcome, s)

/-- Settles what a change of ancestors touches. -/
def settleClosure (s : Store) (change : ClosureChange) (now : Timestamp) : Except Fault Store := do
  let (_, s) ← s.settlePairs (s.pairsForClosure change now) now
  return s

end Courseware.Store
