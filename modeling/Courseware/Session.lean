import Courseware.Call
import Courseware.Lock

/-!
# Sessions

A session holds the committed store, the working copy of an open transaction, the locks that are
held, the source of identifiers and the clock. A call takes the lock of its area and a transaction of
its own, and gives both back: what it did is committed if it succeeds and gone if it fails, except
that identifiers stay drawn.
-/

namespace Courseware

structure Session where
  committed : Store
  /-- The store as an open transaction sees it. -/
  working : Option Store
  locks : Locks
  ids : IdSource
  clock : Timestamp
  policy : RetryPolicy

namespace Session

/-- A session on an empty store. -/
def start (ids : IdSource) (clock : Timestamp) (policy : RetryPolicy) : Session :=
  ⟨.empty, none, .empty, ids, clock, policy⟩

/-- The store as it is seen: that of the open transaction, else the committed one. -/
def visible (s : Session) : Store := s.working.getD s.committed

/-! ### Locks and transactions -/

def acquire (s : Session) (lock : String) : Except StoreFault Session := do
  let locks ← s.locks.acquire lock
  return { s with locks }

def release (s : Session) (lock : String) : Session := { s with locks := s.locks.release lock }

/-- Opens a transaction. A second one would wait for the first for ever. -/
def begin (s : Session) : Except StoreFault Session :=
  match s.working with
  | none => .ok { s with working := some s.committed }
  | some _ => .error .deadlock

/-- Ends the open transaction and keeps what it did. -/
def commit (s : Session) : Except StoreFault Session :=
  match s.working with
  | some store => .ok { s with committed := store, working := none }
  | none => .error .transactionMissing

/-- Ends the open transaction and drops what it did. -/
def rollback (s : Session) : Except StoreFault Session :=
  match s.working with
  | some _ => .ok { s with working := none }
  | none => .error .transactionMissing

/-- The rows, which can be got at in an open transaction only. -/
def rows (s : Session) : Except StoreFault Store := s.working.elim (.error .transactionMissing) .ok

/-- Carries out an operation on the rows. If it fails it is as if it had not been tried. -/
def operate {ε α : Type} (s : Session) (lift : StoreFault → ε)
    (operation : Store → Except ε (α × Store)) : Except ε (α × Session) := do
  let store ← s.rows.mapError lift
  let (value, store) ← operation store
  return (value, { s with working := some store })

/-- Goes on in the open transaction, or in one that is opened before and committed after. -/
def inTransaction {ε α : Type} (s : Session) (lift : StoreFault → ε)
    (body : Session → Except ε (α × Session)) : Except ε (α × Session) :=
  match s.working with
  | some _ => body s
  | none => do
    let s ← s.begin.mapError lift
    let (value, s) ← body s
    let s ← s.commit.mapError lift
    return (value, s)

/-! ### Questions that may be settled without the rows -/

/-- Refuses a relation that would close a cycle. No group can be put below itself, whatever there
is. -/
def ensureNoCycle (s : Session) (parent child : GroupId) : Except Fault Unit :=
  if parent = child then .error (.relationCycle parent child)
  else do
    let store ← Fault.lift s.rows
    store.ensureNoCycle parent child

/-- The pairs of some groups that have a row; there is nothing to look for without a group. -/
def generatedPairs (s : Session) (groups : List GroupId) : Except StoreFault (List Pair) :=
  if groups.isEmpty then .ok [] else s.rows.map (·.generatedPairs groups)

/-- The groups with a row on one of some items; there is nothing to look for without an item. -/
def groupsWithGenerated (s : Session) (items : List ItemId) :
    Except StoreFault (KeySet GroupId) :=
  if items.isEmpty then .ok ∅ else s.rows.map (·.groupsWithGenerated items)

/-- Works out the access of the marked pairs and of all that follows from it; without a mark there
is nothing to do. -/
def propagatePermissions (s : Session) (worklist : Worklist Pair) (now : Timestamp) :
    Except StoreFault (PermissionOutcome × Session) :=
  if worklist.isEmpty then .ok (.none, s)
  else s.operate id fun store => .ok (store.propagatePermissions worklist now)

/-! ### Calls -/

/-- Runs a call in a transaction of its own. -/
def transact (s : Session) (call : Call) : Except Fault Reply × Session :=
  match s.begin with
  | .error fault => (.error (.ofStore fault), s)
  | .ok opened =>
    let (outcome, ids) := call.run s.policy s.clock s.ids opened.visible
    match outcome with
    | .error fault =>
      match opened.rollback with
      | .ok closed => (.error fault, { closed with ids })
      | .error _ => (.error fault, { opened with ids })
    | .ok (reply, store) =>
      match Session.commit { opened with working := some store } with
      | .ok closed => (.ok reply, { closed with ids })
      | .error fault => (.error (.ofStore fault), { opened with ids })

/-- Carries out a call while holding the lock of its area. -/
def perform (s : Session) (call : Call) : Except Fault Reply × Session :=
  match s.acquire call.area.lock with
  | .error fault => (.error (.ofStore fault), s)
  | .ok locked =>
    let (outcome, done) := locked.transact call
    (outcome, done.release call.area.lock)

/-! ### Runs -/

/-- What happens to a session. -/
inductive Step where
  | call (call : Call)
  | advance (span : Duration)
  | setClock (time : Timestamp)
  deriving DecidableEq

/-- The session after a step. -/
def step (s : Session) : Step → Session
  | .call call => (s.perform call).2
  | .advance span => { s with clock := s.clock.advance span }
  | .setClock time => { s with clock := time }

/-- The session after some steps. -/
def run (s : Session) (steps : List Step) : Session := steps.foldl step s

/-! ### Lookups -/

def group? (s : Session) (id : GroupId) : Option Group := s.visible.groups.get? id

def membership? (s : Session) (parent child : GroupId) : Option Membership :=
  s.visible.memberships.get? (parent, child)

/-- The ancestors of a group whose end has not come. -/
def ancestors (s : Session) (group : GroupId) : List (GroupId × Ancestry) :=
  (s.visible.ancestorsOf group).filter fun e => !e.2.expiry.isPast s.clock

def generated? (s : Session) (group : GroupId) (item : ItemId) : Option Generated :=
  s.visible.generated.get? (group, item)

def tiers (s : Session) (group : GroupId) (item : ItemId) : Tiers := s.visible.tiersOf (group, item)

/-- What a user may do with an item, through any of the groups it belongs to. -/
def userLevels (s : Session) (user : GroupId) (item : ItemId) : Levels :=
  s.visible.userLevels user item s.clock

def result? (s : Session) (key : ResultKey) : Option Result := s.visible.results.get? key

/-- The best result of a participant on an item across all attempts. -/
def best? (s : Session) (participant : GroupId) (item : ItemId) : Option (ResultKey × Result) := do
  let best ← bestResult ((s.visible.resultsOn participant item).map fun e => (e.1, e.2.values))
  let result ← s.visible.results.get? best.1
  return (best.1, result)

end Session

end Courseware
