import Courseware.Result.Aggregate
import Courseware.Store.Permissions
import Courseware.Store.Results

/-!
# Passing results upward

A result that changed marks the results on what its item is part of, and these are recomputed once
nothing that they are made of is pending. Results that are missing above are created as long as
they lie within what the attempt was started for and the participant can see something above them.
-/

namespace Courseware

/-- What came of passing results upward. -/
structure ResultOutcome where
  propagated : Nat
  recomputed : Nat
  created : Nat
  deriving DecidableEq

def ResultOutcome.none : ResultOutcome := ⟨0, 0, 0⟩

namespace Store

/-- The attempt in which a result counts further up: the attempt that its own belongs to if that was
started for the item, else its own. -/
def upwardAttempt (s : Store) (key : ResultKey) : Option AttemptId :=
  match s.attempts.get? (key.participant, key.attempt) with
  | some a => if a.rootItem = some key.item then a.parent else some key.attempt
  | none => some key.attempt

/-- Whether a missing result may be created on the way up. -/
def mayCreate (s : Store) (key : ResultKey) (item : Item) (now : Timestamp) : Bool :=
  !item.explicitEntry &&
    (match (s.attempts.get? (key.participant, key.attempt)).bind (·.rootItem) with
      | some root => s.isWithin root key.item
      | none => true) &&
    s.seesFromAbove key.participant key.item now

/-- Marks results to be recomputed, creating those that are missing and may be created; answers
which of them had a change of their own to pass on, and how many are new. -/
def markWholes (s : Store) (participant : GroupId) (attempt : AttemptId) (now : Timestamp) :
    List (ItemId × Link × Item) → Except Fault ((List ResultKey × Nat) × Store)
  | [] => .ok (([], 0), s)
  | (whole, _, item) :: rest =>
    let key := ⟨participant, attempt, whole⟩
    match s.results.get? key with
    | some r => do
      let ((waiting, created), s) ←
        (s.setProgress key .toBeRecomputed).markWholes participant attempt now rest
      return ((if r.progress = .toBePropagated then key :: waiting else waiting, created), s)
    | none =>
      if s.mayCreate key item now then do
        let (_, s) ← Fault.lift (s.insertResult key .toBeRecomputed now)
        let ((waiting, created), s) ← s.markWholes participant attempt now rest
        return ((waiting, created + 1), s)
      else s.markWholes participant attempt now rest

/-- Settles a result and marks the results above it. -/
def passUp (s : Store) (key : ResultKey) (now : Timestamp) :
    Except Fault ((List ResultKey × Nat) × Store) :=
  match s.results.get? key with
  | none => .ok (([], 0), s)
  | some r =>
    let s := if r.progress = .toBePropagated then s.setProgress key .done else s
    match s.upwardAttempt key with
    | none => .ok (([], 0), s)
    | some attempt => s.markWholes key.participant attempt now (s.wholesOf key.item)

/-- Passes up results from a queue, at the end of which results join that still have to pass on a
change of their own. -/
def passUpAll (s : Store) (now : Timestamp) :
    Nat → List ResultKey → ResultOutcome → Except Fault (ResultOutcome × Store)
  | 0, _, outcome => .ok (outcome, s)
  | _, [], outcome => .ok (outcome, s)
  | turns + 1, key :: queue, outcome => do
    let ((waiting, created), s) ← s.passUp key now
    s.passUpAll now turns (queue ++ waiting)
      { outcome with
        propagated := outcome.propagated + 1
        created := outcome.created + created }

/-- The results on the parts of a result's item that it is made of. -/
def sources (s : Store) (key : ResultKey) : List (Link × Item × List (ResultKey × Result)) :=
  (s.partsOf key.item).map fun p =>
    (p.2.1, p.2.2, s.linkedResults key.participant key.attempt p.1)

/-- Whether something that a result is made of is pending. -/
def isWaiting (s : Store) (key : ResultKey) : Bool :=
  (s.sources key).any fun p => p.2.2.any fun e => e.2.progress.isPending

/-- The values of a result before its manual correction: from its parts, or from its answers if the
item has no parts. -/
def baseValues (s : Store) (key : ResultKey) (r : Result) : Aggregate :=
  match s.items.get? key.item with
  | none => r.values
  | some item =>
    let parts := s.sources key
    if parts.isEmpty then
      aggregateAnswers
        ((s.gradedAnswers key).map fun a => (a.2.1.submittedAt, a.2.2.map (·.score)))
        r.values.activityAt
    else
      aggregateParts item.validation
        (parts.map fun p =>
          { category := p.1.category
            unscored := p.2.1.unscored
            weight := p.1.weight
            best := (bestResult (p.2.2.map fun e => (e.1, e.2.values))).map (·.2) })
        r.values.activityAt

/-- The values that a result is due. -/
def dueValues (s : Store) (key : ResultKey) (r : Result) : Aggregate :=
  (s.baseValues key r).corrected r.editRule r.editValue

/-- Gives a result the values that it is due; it is settled if they are not new. -/
def recomputeResult (s : Store) (key : ResultKey) (r : Result) : Except Fault Store :=
  let due := s.dueValues key r
  Fault.lift (s.writeValues key due (if due.same r.values then .done else .toBePropagated))

/-- Recomputes results of which nothing that they are made of is pending, and counts them. -/
def recomputeReady (s : Store) : List (ResultKey × Result) → Except Fault (Nat × Store)
  | [] => .ok (0, s)
  | (key, r) :: rest =>
    if s.isWaiting key then s.recomputeReady rest
    else do
      let s ← s.recomputeResult key r
      let (count, s) ← s.recomputeReady rest
      return (count + 1, s)

/-- Rounds of passing up and recomputing, until every result is settled. A round that gets nowhere is
a fault. -/
def settleRounds (now : Timestamp) :
    Nat → ResultOutcome → Store → Except Fault (ResultOutcome × Store)
  | 0, _, s => .error (.stalled (s.resultsIn .toBeRecomputed).length)
  | rounds + 1, outcome, s => do
    let changed := s.resultsIn .toBePropagated
    let (outcome, s) ← s.passUpAll now (2 * s.results.size + 1) (changed.map (·.1)) outcome
    let due := s.resultsIn .toBeRecomputed
    if changed.isEmpty && due.isEmpty then return (outcome, s)
    let (count, s) ← s.recomputeReady due
    if changed.isEmpty && count = 0 then .error (.stalled due.length)
    else settleRounds now rounds { outcome with recomputed := outcome.recomputed + count } s

/-- Far more rounds than there are levels of items. -/
def roundLimit (s : Store) : Nat := (s.items.size + s.results.size + 2) * 4096

/-- Settles every pending result. -/
def propagateResults (s : Store) (now : Timestamp) : Except Fault (ResultOutcome × Store) :=
  settleRounds now s.roundLimit .none s

end Store

end Courseware
