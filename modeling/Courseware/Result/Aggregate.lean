import Courseware.Item
import Courseware.Result

/-!
# Working out results

The result of a leaf follows from its graded answers, and that of any other item from the best
results of its parts. Both are functions of those alone, apart from the latest activity, which never
moves back.
-/

namespace Courseware

/-- Orders results from best to worst: the higher score, then the validated one, then the one
obtained earlier, then the lower attempt. -/
def compareResults (a b : ResultKey × Aggregate) : Ordering :=
  (b.2.score.compareTotal a.2.score).then
    ((if a.2.isValidated = b.2.isValidated then .eq else if a.2.isValidated then .lt else .gt
      : Ordering).then
      ((match a.2.obtainedAt, b.2.obtainedAt with
        | some s, some t => s.compare t
        | some _, none => .lt
        | none, some _ => .gt
        | none, none => .eq : Ordering).then
        (compare a.1.attempt b.1.attempt)))

/-- The best of some results; of equally good ones the first. -/
def bestResult : List (ResultKey × Aggregate) → Option (ResultKey × Aggregate)
  | [] => none
  | r :: rest =>
    match bestResult rest with
    | some s => if compareResults s r = .lt then some s else some r
    | none => some r

/-- The results from best to worst; equally good ones keep their order. -/
def rankResults (results : List (ResultKey × Aggregate)) : List (ResultKey × Aggregate) :=
  results.mergeSort fun a b => decide (compareResults a b ≠ .gt)

/-- The score after a manual correction, from 0 to 100. -/
def applyEditRule (base : Score) (rule : Option EditRule) (value : Option Score) : Score :=
  Score.clamp <| match rule, value with
    | some .set, some value => value
    | some .diff, some value => base.add value
    | _, _ => base

/-- A part of an item with the best result on it. -/
structure Part where
  category : Category
  unscored : Bool
  weight : Int64
  best : Option Aggregate
  deriving DecidableEq

namespace Part

/-- The weighted average of the scores, parts without a result counting as 0. -/
def averageScore (parts : List Part) : Score :=
  let weight : Int64 := (parts.map (·.weight)).foldl (· + ·) 0
  let total := Score.sum (parts.filterMap fun p =>
    p.best.map fun b => b.score.mul (.ofInt64 p.weight))
  if 0 < weight then total.div (.ofInt64 weight) else .zero

/-- When the whole is validated: with its last validated part, or, if it is validated by
categories, with the last of the parts linked for validation, all of which have to be. -/
def validatedAt (validation : Validation) (parts : List Part) : Option Timestamp :=
  let dates := fun (ps : List Part) => ps.map fun p => p.best.bind (·.validatedAt)
  match validation with
  | .standard => Timestamp.latestOf ((dates parts).filterMap id)
  | .categories =>
    let required := dates (parts.filter fun p => p.category = .validation)
    if required.all Option.isSome then Timestamp.latestOf (required.filterMap id) else none

end Part

/-- The values of a result from those of its parts. -/
def aggregateParts (validation : Validation) (parts : List Part) (activity : Timestamp) :
    Aggregate :=
  let scored := parts.filter fun p => !p.unscored
  let bests := scored.filterMap (·.best)
  { score := Part.averageScore scored
    obtainedAt := Timestamp.latestOf (bests.filterMap (·.obtainedAt))
    validatedAt := Part.validatedAt validation scored
    tasksTried := (bests.map (·.tasksTried)).foldl (· + ·) 0
    activityAt := (bests.map (·.activityAt)).foldl Timestamp.max activity }

/-- The values of a result from its answers with their scores, as far as they are graded: the best
score, obtained with the earliest answer that has it, and validated with the earliest answer of full
score. -/
def aggregateAnswers (answers : List (Timestamp × Option Score)) (activity : Timestamp) :
    Aggregate :=
  let graded := answers.filterMap fun a => a.2.map fun score => (a.1, score)
  let score := (graded.map (·.2)).foldl Score.max .zero
  { score
    obtainedAt := Timestamp.earliestOf ((graded.filter fun g => g.2.same score).map (·.1))
    validatedAt := Timestamp.earliestOf ((graded.filter fun g => Score.full.atMost g.2).map (·.1))
    tasksTried := if answers.isEmpty then 0 else 1
    activityAt := (answers.map (·.1)).foldl Timestamp.max activity }

/-- The values of a result after its manual correction. -/
def Aggregate.corrected (a : Aggregate) (rule : Option EditRule) (value : Option Score) :
    Aggregate :=
  { a with score := applyEditRule a.score rule value }

end Courseware
