import Courseware.Group.Request
import Courseware.Retry
import Courseware.Settlement

/-!
# Calls

What can be asked for. A call checks that what it is about is there, makes its change, and settles
everything that the change touches; `Call.run` answers with the store after it, or with the fault
that it met.
-/

namespace Courseware

/-- Whether a grading counted. -/
inductive GradeStatus where
  | recorded
  /-- The answer was graded before. -/
  | replayed
  deriving DecidableEq

inductive Call where
  | createGroup (id : GroupId) (group : Group)
  | createRelation (parent child : GroupId) (terms : MembershipTerms)
  | createRelations (pairs : List (GroupId × GroupId))
  | deleteRelation (parent child : GroupId) (allowOrphans : Bool)
  | transition (request : RelationRequest)
  | setManager (group manager : GroupId)
  | createItem (id : ItemId) (item : Item)
  | createLink (parent child : ItemId) (link : Link)
  | deleteLink (parent child : ItemId)
  | grant (group : GroupId) (item : ItemId) (giver : GroupId) (grant : Grant)
  | revoke (group : GroupId) (item : ItemId) (giver : GroupId)
  | sweep
  | createAttempt (participant : GroupId) (rootItem : Option ItemId) (parent : Option AttemptId)
  | submitAnswer (result : ResultKey) (author : GroupId) (text : String)
  | recordGrade (event : GradingEvent)
  | setEditRule (result : ResultKey) (rule : Option (EditRule × Score))
  | propagateResults
  deriving DecidableEq

/-- What a call answers. -/
inductive Reply where
  | done
  | flag (value : Bool)
  | closure (change : ClosureChange)
  | deletion (deletion : Store.RelationDeletion)
  | transition (outcome : TransitionOutcome)
  | permissions (outcome : PermissionOutcome)
  | attempt (id : AttemptId)
  | answer (id : AnswerId)
  | grade (status : GradeStatus)
  | results (outcome : ResultOutcome)
  deriving DecidableEq

namespace Reply

/-- Answers with the value of an outcome. -/
def onSuccess {α : Type} (reply : α → Reply) (outcome : Except Fault (α × Store)) :
    Except Fault (Reply × Store) :=
  outcome.map fun (value, s) => (reply value, s)

/-- Answers only that it is done. -/
def doneOnSuccess (outcome : Except Fault Store) : Except Fault (Reply × Store) :=
  outcome.map fun s => (done, s)

end Reply

/-- The parts of the store that are changed under a lock of their own. -/
inductive Area where
  | groups | permissions | results
  deriving DecidableEq

def Area.lock : Area → String
  | groups => "groups_groups"
  | permissions => "permissions"
  | results => "results"

/-- The area that a call changes. -/
def Call.area : Call → Area
  | createGroup .. | createRelation .. | createRelations .. | deleteRelation .. | transition ..
  | setManager .. => .groups
  | createItem .. | createLink .. | deleteLink .. | grant .. | revoke .. | sweep => .permissions
  | createAttempt .. | submitAnswer .. | recordGrade .. | setEditRule .. | propagateResults =>
    .results

namespace Store

def requireGroup (s : Store) (id : GroupId) : Except Fault Unit :=
  if s.groups.contains id then .ok () else .error (.notFound (.group id))

def requireItem (s : Store) (id : ItemId) : Except Fault Unit :=
  if s.items.contains id then .ok () else .error (.notFound (.item id))

/-! ### Groups -/

/-- Makes one existing group a member of another. -/
def relate (s : Store) (parent child : GroupId) (terms : MembershipTerms) (now : Timestamp) :
    Except Fault (ClosureChange × Store) := do
  s.requireGroup parent
  s.requireGroup child
  let (change, s) ← s.createRelation parent child terms now
  let s ← s.settleClosure change now
  return (change, s)

def relateAll (s : Store) (pairs : List (GroupId × GroupId)) (now : Timestamp) :
    Except Fault (ClosureChange × Store) := do
  let (change, s) ← s.createRelations pairs now
  let s ← s.settleClosure change now
  return (change, s)

def unrelate (s : Store) (parent child : GroupId) (allowOrphans : Bool) (now : Timestamp) :
    Except Fault (RelationDeletion × Store) := do
  let (deletion, s) ← s.deleteRelation parent child allowOrphans
  let s ← s.settleClosure deletion.closure now
  return (deletion, s)

def request (s : Store) (r : RelationRequest) (now : Timestamp) :
    Except Fault (TransitionOutcome × Store) := do
  let (outcome, s) ← s.applyRequest r now
  let s ← s.settleClosure outcome.closure now
  return (outcome, s)

/-- Makes the members of one existing group managers of another. -/
def appoint (s : Store) (group manager : GroupId) : Except Fault (Bool × Store) := do
  s.requireGroup group
  s.requireGroup manager
  Fault.lift (s.addManager group manager)

/-! ### Items and permissions -/

/-- Refuses a link that would close a cycle. -/
def ensureNoItemCycle (links : Network ItemId) (parent child : ItemId) : Except Fault Unit :=
  if links.reaches child parent then .error (.itemCycle parent child) else .ok ()

def createLink (s : Store) (parent child : ItemId) (link : Link) (now : Timestamp) :
    Except Fault Store := do
  s.requireItem parent
  s.requireItem child
  ensureNoItemCycle s.linkNetwork parent child
  let s ← Fault.lift (s.putLink parent child link)
  let pairs := s.pairsForLink parent child
  let (_, s) := s.markItemResults child .toBePropagated
  let (_, s) ← s.settlePairs pairs now
  return s

def removeLink (s : Store) (parent child : ItemId) (now : Timestamp) :
    Except Fault (Bool × Store) :=
  let pairs := s.pairsForLink parent child
  match s.deleteLink parent child with
  | (false, s) => .ok (false, s)
  | (true, s) => do
    let (_, s) := s.markItemResults parent .toBeRecomputed
    let (_, s) ← s.settlePairs pairs now
    return (true, s)

def giveGrant (s : Store) (group : GroupId) (item : ItemId) (giver : GroupId) (grant : Grant)
    (now : Timestamp) : Except Fault (PermissionOutcome × Store) := do
  s.requireGroup group
  s.requireGroup giver
  s.requireItem item
  let s ← Fault.lift (s.putGrant group item giver grant)
  s.settlePairs (s.pairsForGrant group item) now

def revokeGrant (s : Store) (group : GroupId) (item : ItemId) (giver : GroupId)
    (now : Timestamp) : Except Fault (PermissionOutcome × Store) :=
  match s.deleteGrant group item giver with
  | (false, s) => .ok (.none, s)
  | (true, s) => s.settlePairs (s.pairsForGrant group item) now

def sweep (s : Store) (now : Timestamp) : Except Fault (PermissionOutcome × Store) := do
  let (outcome, s) := s.sweepPermissions now
  let (_, s) ← s.settleVisible outcome now
  return (outcome, s)

/-! ### Attempts and results -/

/-- Starts an attempt under the participant's next number; one that is started for an item gets a
result on it. -/
def startAttempt (s : Store) (policy : RetryPolicy) (participant : GroupId)
    (rootItem : Option ItemId) (parent : Option AttemptId) (now : Timestamp) :
    Except Fault (AttemptId × Store) := do
  s.requireGroup participant
  rootItem.forM s.requireItem
  let (id, s) ← Fault.lift (policy.retry (fun _ () =>
    let id := s.nextAttemptId participant
    ((s.insertAttempt participant id ⟨rootItem, parent, now⟩).map (id, ·), ())) ()).1
  match rootItem with
  | none => return (id, s)
  | some item =>
    let (_, s) ← Fault.lift (s.insertResult ⟨participant, id, item⟩ .toBePropagated now)
    let (_, s) ← s.propagateResults now
    return (id, s)

/-- Marks a result to be recomputed, creating it if it is missing. -/
def touchLeaf (s : Store) (key : ResultKey) (now : Timestamp) : Except Fault Store := do
  let (created, s) ← Fault.lift (s.insertResult key .toBeRecomputed now)
  return if created then s else s.setProgress key .toBeRecomputed

/-- Gets a result ready for a new answer. -/
def expectAnswer (s : Store) (key : ResultKey) (now : Timestamp) : Except Fault Store := do
  if !s.attempts.contains (key.participant, key.attempt) then
    .error (.notFound (.attempt key.attempt key.participant))
  s.requireItem key.item
  s.touchLeaf key now

/-- Adds an answer under the first fresh identifier among the next ones. -/
def insertFreshAnswer (s : Store) (policy : RetryPolicy) (ids : IdSource) (answer : Answer) :
    Except StoreFault (AnswerId × Store) × IdSource :=
  policy.retry
    (fun _ ids =>
      let (id, ids) := ids.draw
      ((s.insertAnswer id answer).map (id, ·), ids))
    ids

/-- Adds an answer to a result that it leaves to be recomputed. -/
def addAnswer (s : Store) (policy : RetryPolicy) (ids : IdSource) (answer : Answer)
    (now : Timestamp) : Except Fault (AnswerId × Store) × IdSource :=
  match s.expectAnswer answer.result now with
  | .error fault => (.error fault, ids)
  | .ok s =>
    let (outcome, ids) := s.insertFreshAnswer policy ids answer
    (Fault.lift outcome, ids)

/-- Records the grading of a stored answer, unless it has one. -/
def gradeAnswer (s : Store) (answer : AnswerId) (event : GradingEvent) (now : Timestamp) :
    Except Fault (GradeStatus × Store) :=
  if s.gradings.contains answer then .ok (.replayed, s)
  else do
    let s ← Fault.lift (s.insertGrading answer ⟨event.score, event.gradedAt⟩)
    let s ← s.touchLeaf event.result now
    let (_, s) ← s.propagateResults now
    return (.recorded, s)

/-- Records a grading; without an answer, an empty one is added first. -/
def recordGrade (s : Store) (policy : RetryPolicy) (ids : IdSource) (event : GradingEvent)
    (now : Timestamp) : Except Fault (GradeStatus × Store) × IdSource :=
  match event.answer with
  | some id =>
    match s.answers.get? id with
    | none => (.error (.notFound (.answer id)), ids)
    | some answer =>
      if answer.result ≠ event.result then (.error (.unprocessable (.foreignAnswer id)), ids)
      else (s.gradeAnswer id event now, ids)
  | none =>
    let (outcome, ids) :=
      s.addAnswer policy ids ⟨event.result, event.result.participant, "", now⟩ now
    (outcome.bind fun (id, s) => s.gradeAnswer id event now, ids)

def submitAnswer (s : Store) (policy : RetryPolicy) (ids : IdSource) (key : ResultKey)
    (author : GroupId) (text : String) (now : Timestamp) :
    Except Fault (AnswerId × Store) × IdSource :=
  let (outcome, ids) := s.addAnswer policy ids ⟨key, author, text, now⟩ now
  (outcome.bind fun (id, s) => do
    let (_, s) ← s.propagateResults now
    return (id, s), ids)

def changeEditRule (s : Store) (key : ResultKey) (rule : Option (EditRule × Score))
    (now : Timestamp) : Except Fault Store :=
  match s.setEditRule key rule with
  | (false, _) => .error (.notFound (.result key.participant key.item))
  | (true, s) => do
    let (_, s) ← (s.setProgress key .toBeRecomputed).propagateResults now
    return s

end Store

namespace Call

/-- Carries out a call on a store. The identifiers that it draws stay drawn whatever comes of it. -/
def run (policy : RetryPolicy) (now : Timestamp) (call : Call) (ids : IdSource) (s : Store) :
    Except Fault (Reply × Store) × IdSource :=
  match call with
  | createGroup id group => (Reply.doneOnSuccess (Fault.lift (s.insertGroup id group)), ids)
  | createRelation parent child terms =>
    (Reply.onSuccess .closure (s.relate parent child terms now), ids)
  | createRelations pairs => (Reply.onSuccess .closure (s.relateAll pairs now), ids)
  | deleteRelation parent child allowOrphans =>
    (Reply.onSuccess .deletion (s.unrelate parent child allowOrphans now), ids)
  | transition request => (Reply.onSuccess .transition (s.request request now), ids)
  | setManager group manager => (Reply.onSuccess .flag (s.appoint group manager), ids)
  | createItem id item => (Reply.doneOnSuccess (Fault.lift (s.insertItem id item)), ids)
  | createLink parent child link => (Reply.doneOnSuccess (s.createLink parent child link now), ids)
  | deleteLink parent child => (Reply.onSuccess .flag (s.removeLink parent child now), ids)
  | grant group item giver levels =>
    (Reply.onSuccess .permissions (s.giveGrant group item giver levels now), ids)
  | revoke group item giver => (Reply.onSuccess .permissions (s.revokeGrant group item giver now), ids)
  | sweep => (Reply.onSuccess .permissions (s.sweep now), ids)
  | createAttempt participant rootItem parent =>
    (Reply.onSuccess .attempt (s.startAttempt policy participant rootItem parent now), ids)
  | submitAnswer key author text =>
    let (outcome, ids) := s.submitAnswer policy ids key author text now
    (Reply.onSuccess .answer outcome, ids)
  | recordGrade event =>
    let (outcome, ids) := s.recordGrade policy ids event now
    (Reply.onSuccess .grade outcome, ids)
  | setEditRule key rule => (Reply.doneOnSuccess (s.changeEditRule key rule now), ids)
  | propagateResults => (Reply.onSuccess .results (s.propagateResults now), ids)

end Call

end Courseware
