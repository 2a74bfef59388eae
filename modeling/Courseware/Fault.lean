import Courseware.Ids
import Courseware.Timestamp
import Courseware.Vocabulary

/-!
# Why a call fails

Faults of the store are about its transactions, locks and constraints; faults of a call are about
what was asked for. Each is told apart by its cause, and `message` has the wording.
-/

namespace Courseware

/-- Rules on stored rows other than uniqueness. -/
inductive Constraint where
  /-- A row refers to a row that is not there. -/
  | foreignKey
  /-- A column got no number. -/
  | notNull (column : String)
  deriving DecidableEq

def Constraint.message : Constraint → String
  | foreignKey => "error returned from database: (code: 787) FOREIGN KEY constraint failed"
  | notNull column =>
    s!"error returned from database: (code: 1299) NOT NULL constraint failed: {column}"

inductive StoreFault where
  /-- Rows were asked for outside of a transaction. -/
  | transactionMissing
  | closed
  /-- A new row has the key of a stored one. -/
  | duplicateKey (violation : String)
  | lockTimeout (lock : String)
  | deadlock
  /-- Every identifier that was tried is taken. -/
  | generatorExhausted (attempts : Nat)
  | broken (constraint : Constraint)
  | undecodable (field : String) (cause : DecodeFault)
  deriving DecidableEq

namespace StoreFault

/-- The columns of a unique key already hold these values. -/
def taken (columns : String) : StoreFault := duplicateKey s!"UNIQUE constraint failed: {columns}"

def message : StoreFault → String
  | transactionMissing => "no transaction was started"
  | closed => "store was closed"
  | duplicateKey violation => s!"duplicate key: {violation}"
  | lockTimeout lock => s!"timed out waiting for lock '{lock}'"
  | deadlock => "deadlock detected"
  | generatorExhausted attempts =>
    s!"could not generate a unique identifier after {attempts} attempts"
  | broken constraint => constraint.message
  | undecodable field cause => s!"could not decode stored '{field}' value: {cause.message}"

end StoreFault

/-- What was asked for and is not there. -/
inductive Subject where
  | group (id : GroupId)
  | item (id : ItemId)
  | attempt (id : AttemptId) (participant : GroupId)
  | answer (id : AnswerId)
  | result (participant : GroupId) (item : ItemId)
  | called (text : String)
  deriving DecidableEq

def Subject.text : Subject → String
  | group id => s!"group {id}"
  | item id => s!"item {id}"
  | attempt id p => s!"attempt {id} of participant {p}"
  | answer id => s!"answer {id}"
  | result p i => s!"result of participant {p} on item {i}"
  | called text => text

/-- Why a member is kept from acting. -/
inductive Ban where
  | leavingBefore (group : GroupId) (date : Timestamp)
  | membershipLocked (group : GroupId)
  | called (text : String)
  deriving DecidableEq

def Ban.text : Ban → String
  | leavingBefore group date =>
    s!"membership of group {group} can't be left before {date.text}"
  | membershipLocked group => s!"membership of group {group} is locked"
  | called text => text

/-- Why a request contradicts what is stored. -/
inductive Conflict where
  | otherTeam (child team : GroupId) (item : ItemId)
  | approvalMissing (group : GroupId)
  | foreignAnswer (answer : AnswerId)
  | called (text : String)
  deriving DecidableEq

def Conflict.text : Conflict → String
  | otherTeam child team item =>
    s!"group {child} is already a member of team {team} for item {item}"
  | approvalMissing group => s!"missing approval of the membership lock of group {group}"
  | foreignAnswer answer => s!"answer {answer} belongs to another result"
  | called text => text

inductive Fault where
  /-- The new relation would close a cycle of groups. -/
  | relationCycle (parent child : GroupId)
  /-- The new link would close a cycle of items. -/
  | itemCycle (parent child : ItemId)
  /-- The group would lose its last parent. -/
  | orphaned (group : GroupId)
  | lockTimeout (lock : String)
  | deadlock
  | generatorExhausted (attempts : Nat)
  | accessDenied
  | forbidden (ban : Ban)
  | unprocessable (conflict : Conflict)
  | notFound (subject : Subject)
  /-- Results were left that can never settle. -/
  | stalled (pending : Nat)
  | unknownLevel (kind name : String)
  | unexpected (fault : StoreFault)
  deriving DecidableEq

namespace Fault

def message : Fault → String
  | relationCycle parent child => s!"relation {parent} -> {child} would create a cycle"
  | itemCycle parent child => s!"item relation {parent} -> {child} would create a cycle"
  | orphaned group => s!"group {group} would become an orphan"
  | lockTimeout lock => s!"timed out waiting for lock: {lock}"
  | deadlock => "deadlock detected"
  | generatorExhausted attempts =>
    s!"could not generate a unique identifier after {attempts} attempts"
  | accessDenied => "insufficient access rights"
  | forbidden ban => s!"forbidden: {ban.text}"
  | unprocessable conflict => s!"unprocessable entity: {conflict.text}"
  | notFound subject => s!"{subject.text} not found"
  | stalled pending => s!"result propagation stalled with {pending} pending rows"
  | unknownLevel kind name => s!"unknown {kind} level '{name}'"
  | unexpected fault => fault.message

/-- Whether the same call may succeed when it is repeated. -/
def isRetryable : Fault → Bool
  | lockTimeout _ | deadlock => true
  | _ => false

/-- What a fault of the store means for the call that met it. -/
def ofStore : StoreFault → Fault
  | .lockTimeout lock => lockTimeout lock
  | .deadlock => deadlock
  | .generatorExhausted attempts => generatorExhausted attempts
  | fault => unexpected fault

/-- The outcome of a store operation as a step of a call. -/
def lift {α : Type} (outcome : Except StoreFault α) : Except Fault α := outcome.mapError ofStore

end Fault

end Courseware
