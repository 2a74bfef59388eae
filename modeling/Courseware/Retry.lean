import Courseware.Fault

/-!
# Trying again

Rows with generated identifiers are inserted in the hope that the identifier is fresh. When it is
taken, the insertion is tried again with another one, up to a number of attempts, waiting a little
longer each time.
-/

namespace Courseware

/-- How often to try, and how long to wait in between. -/
structure RetryPolicy where
  maxAttempts : Nat
  initialBackoff : Duration
  minIncrement : Duration
  maxIncrement : Duration
  maxBackoff : Duration
  deriving DecidableEq

namespace RetryPolicy

/-- Three attempts; waits start at nothing and grow by 5 to 20 milliseconds up to 100. -/
def standard : RetryPolicy where
  maxAttempts := 3
  initialBackoff := .zero
  minIncrement := .ofMillis 5
  maxIncrement := .ofMillis 20
  maxBackoff := .ofMillis 100

/-- The same number of attempts without any waiting. -/
def withoutBackoff (p : RetryPolicy) : RetryPolicy :=
  { p with
    initialBackoff := .zero
    minIncrement := .zero
    maxIncrement := .zero
    maxBackoff := .zero }

/-- By how much a wait grows: the least increment if the range of increments is empty, else one of
the range picked by `chance`. -/
def increment (p : RetryPolicy) (chance : Nat) : Duration :=
  let low := p.minIncrement.millis
  let high := p.maxIncrement.millis
  .ofMillis (if high ≤ low then low else low + chance % (high - low))

/-- The wait after `wait`: larger by an increment, and never above the ceiling. -/
def nextBackoff (p : RetryPolicy) (wait : Duration) (chance : Nat) : Duration :=
  if p.maxBackoff.nanos ≤ wait.nanos then p.maxBackoff
  else (wait.add (p.increment chance)).min p.maxBackoff

/-- The first wait, followed by one after each increment. -/
def backoffs (p : RetryPolicy) (chances : List Nat) : List Duration :=
  go p.initialBackoff chances
where
  go (wait : Duration) : List Nat → List Duration
    | [] => [wait]
    | chance :: rest => wait :: go (p.nextBackoff wait chance) rest

end RetryPolicy

/-- Runs `attempt` with the numbers `n`, `n + 1`, … while it meets a taken key, `left` times at
most. -/
def retryFrom {σ α : Type} (attempt : Nat → σ → Except StoreFault α × σ) (limit : Nat) :
    (left n : Nat) → σ → Except StoreFault α × σ
  | 0, _, s => (.error (.generatorExhausted limit), s)
  | left + 1, n, s =>
    match attempt n s with
    | (.error (.duplicateKey _), s) => retryFrom attempt limit left (n + 1) s
    | outcome => outcome

/-- Runs `attempt` until it does not meet a taken key, as often as the policy allows. Any other
outcome is final. -/
def RetryPolicy.retry {σ α : Type} (p : RetryPolicy)
    (attempt : Nat → σ → Except StoreFault α × σ) (s : σ) : Except StoreFault α × σ :=
  retryFrom attempt p.maxAttempts p.maxAttempts 0 s

end Courseware
