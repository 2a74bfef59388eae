import Courseware.Score
import Courseware.Table
import Courseware.Timestamp
import Courseware.Vocabulary
import Courseware.Ids

/-!
# Attempts and results

A participant works on items in attempts. Each attempt has one result per item; at the leaves it
comes from graded answers, above them from the results of the parts.
-/

namespace Courseware

/-- A manual correction of a score. -/
inductive EditRule where
  /-- The value replaces the score. -/
  | set
  /-- The value is added to the score. -/
  | diff
  deriving DecidableEq

instance : Vocabulary EditRule where
  all := [.set, .diff]
  name | .set => "set" | .diff => "diff"
  tag | .set => "Set" | .diff => "Diff"

/-- Where a result stands in the propagation. -/
inductive Progress where
  | done
  /-- It changed, and what it is part of does not know yet. -/
  | toBePropagated
  /-- Something it is made of changed. -/
  | toBeRecomputed
  deriving DecidableEq

instance : Vocabulary Progress where
  all := [.done, .toBePropagated, .toBeRecomputed]
  name
    | .done => "done" | .toBePropagated => "to_be_propagated"
    | .toBeRecomputed => "to_be_recomputed"
  tag
    | .done => "Done" | .toBePropagated => "ToBePropagated" | .toBeRecomputed => "ToBeRecomputed"

def Progress.isPending (p : Progress) : Bool := decide (p ≠ .done)

instance : Key Timestamp := Key.lift Timestamp.toInt Timestamp.toInt_inj.1

structure Attempt where
  /-- The item that the attempt was started for, if any. -/
  rootItem : Option ItemId
  /-- The attempt that this one belongs to. -/
  parent : Option AttemptId
  createdAt : Timestamp
  deriving DecidableEq

/-- A participant's attempt on an item. -/
structure ResultKey where
  participant : GroupId
  attempt : AttemptId
  item : ItemId
  deriving DecidableEq

/-- Results are ordered by participant, then by attempt, then by item. -/
instance : Key ResultKey :=
  Key.lift (fun k => (k.participant, k.attempt, k.item)) (by
    rintro ⟨⟩ ⟨⟩ h
    simpa using h)

/-- The values of a result that are computed. -/
structure Aggregate where
  score : Score
  obtainedAt : Option Timestamp
  validatedAt : Option Timestamp
  tasksTried : Int64
  activityAt : Timestamp
  deriving DecidableEq

namespace Aggregate

/-- The values of a result that nothing has happened to yet. -/
def fresh (now : Timestamp) : Aggregate := ⟨.zero, none, none, 0, now⟩

/-- Whether both have the same values, scores compared as numbers. -/
def same (a b : Aggregate) : Bool :=
  a.score.same b.score && decide (a.obtainedAt = b.obtainedAt) &&
    decide (a.validatedAt = b.validatedAt) && decide (a.tasksTried = b.tasksTried) &&
    decide (a.activityAt = b.activityAt)

def isValidated (a : Aggregate) : Bool := a.validatedAt.isSome

end Aggregate

structure Result where
  values : Aggregate
  editRule : Option EditRule
  editValue : Option Score
  progress : Progress
  deriving DecidableEq

structure Answer where
  result : ResultKey
  author : GroupId
  text : String
  submittedAt : Timestamp
  deriving DecidableEq

structure Grading where
  score : Score
  gradedAt : Timestamp
  deriving DecidableEq

/-- A score for work on a result, as a grader reports it. Without an answer it stands for an empty
answer by the participant. -/
structure GradingEvent where
  result : ResultKey
  answer : Option AnswerId
  score : Score
  gradedAt : Timestamp
  deriving DecidableEq

end Courseware
