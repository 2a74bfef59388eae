import Courseware.Store.Groups

/-!
# Stored results

Attempts, results, answers and gradings, row by row. A score that is no number cannot be stored.
-/

namespace Courseware.Store

/-- The number after the highest of a participant's attempts, or 0. -/
def nextAttemptId (s : Store) (participant : GroupId) : AttemptId :=
  match ((s.attempts.keys.filter fun k => k.1 = participant).map (·.2)).max? with
  | some id => AttemptId.next id
  | none => 0

def insertAttempt (s : Store) (participant : GroupId) (id : AttemptId) (attempt : Attempt) :
    Except StoreFault Store :=
  if s.attempts.contains (participant, id) then
    .error (.taken "attempts.participant_id, attempts.id")
  else do
    demand (s.groups.contains participant && attempt.rootItem.all s.items.contains)
    return { s with attempts := s.attempts.insert (participant, id) attempt }

/-- Adds a result that nothing has happened to yet; tells whether there was none. -/
def insertResult (s : Store) (key : ResultKey) (progress : Progress) (now : Timestamp) :
    Except StoreFault (Bool × Store) :=
  if s.results.contains key then .ok (false, s)
  else do
    demand (s.attempts.contains (key.participant, key.attempt) && s.items.contains key.item)
    return (true,
      { s with results := s.results.insert key ⟨.fresh now, none, none, progress⟩ })

/-- A participant's results on an item, by attempt. -/
def resultsOn (s : Store) (participant : GroupId) (item : ItemId) : List (ResultKey × Result) :=
  s.results.toList.filter fun e => e.1.participant = participant && e.1.item = item

def resultsIn (s : Store) (progress : Progress) : List (ResultKey × Result) :=
  s.results.toList.filter fun e => e.2.progress = progress

def setProgress (s : Store) (key : ResultKey) (progress : Progress) : Store :=
  { s with results := s.results.modify key fun r => { r with progress } }

/-- Writes computed values, with the score as a column holds it. -/
def writeValues (s : Store) (key : ResultKey) (values : Aggregate) (progress : Progress) :
    Except StoreFault Store :=
  match values.score.stored? with
  | none => .error (.broken (.notNull "results.score_computed"))
  | some score =>
    .ok { s with
      results := s.results.modify key fun r => { r with values := { values with score }, progress } }

/-- Sets or clears the manual correction of a result and tells whether there is that result. A value
that is no number is left out. -/
def setEditRule (s : Store) (key : ResultKey) (rule : Option (EditRule × Score)) : Bool × Store :=
  (s.results.contains key,
    { s with
      results := s.results.modify key fun r =>
        { r with editRule := rule.map (·.1), editValue := rule.bind (·.2.stored?) } })

/-- Moves the latest activity of a result up to `now`. -/
def touchResult (s : Store) (key : ResultKey) (now : Timestamp) : Store :=
  { s with
    results := s.results.modify key fun r =>
      { r with values := { r.values with activityAt := r.values.activityAt.max now } } }

/-- Whether a result belongs to `attempt`, or to an attempt started for its item below `attempt`. -/
def feeds (s : Store) (key : ResultKey) (attempt : AttemptId) : Bool :=
  (s.attempts.get? (key.participant, key.attempt)).any fun a =>
    key.attempt = attempt || (a.rootItem = some key.item && a.parent = some attempt)

/-- The results on a part that count for a participant's attempt on the whole. -/
def linkedResults (s : Store) (participant : GroupId) (attempt : AttemptId) (part : ItemId) :
    List (ResultKey × Result) :=
  (s.resultsOn participant part).filter fun e => s.feeds e.1 attempt

/-- Marks the settled results that pass a test, and counts them. -/
def markResults (s : Store) (p : ResultKey → Bool) (progress : Progress) : Nat × Store :=
  ((s.results.toList.filter fun e => e.2.progress = .done && p e.1).length,
    { s with
      results := s.results.map fun k r =>
        if r.progress = .done && p k then { r with progress } else r })

/-- Marks the settled results on an item. -/
def markItemResults (s : Store) (item : ItemId) (progress : Progress) : Nat × Store :=
  s.markResults (fun k => k.item = item) progress

/-- Marks the settled results on parts of an item, of participants below a group, to be
propagated. -/
def markPartResultsBelow (s : Store) (group : GroupId) (item : ItemId) (now : Timestamp) :
    Nat × Store :=
  s.markResults
    (fun k => s.links.contains (item, k.item) && s.isAncestorAt group k.participant now)
    .toBePropagated

def insertAnswer (s : Store) (id : AnswerId) (answer : Answer) : Except StoreFault Store :=
  if s.answers.contains id then .error (.taken "answers.id")
  else do
    demand (s.results.contains answer.result)
    return { s with answers := s.answers.insert id answer }

/-- The answers of a result with their gradings, oldest first. -/
def gradedAnswers (s : Store) (key : ResultKey) : List (AnswerId × Answer × Option Grading) :=
  (Table.ofList (s.answers.toList.filterMap fun e =>
    if e.2.result = key then
      some ((e.2.submittedAt, e.1), (e.1, e.2, s.gradings.get? e.1))
    else none)).toList.map (·.2)

def insertGrading (s : Store) (answer : AnswerId) (grading : Grading) : Except StoreFault Store :=
  match grading.score.stored? with
  | none => .error (.broken (.notNull "gradings.score"))
  | some score =>
    if s.gradings.contains answer then .error (.taken "gradings.answer_id")
    else do
      demand (s.answers.contains answer)
      return { s with gradings := s.gradings.insert answer { grading with score } }

end Courseware.Store
