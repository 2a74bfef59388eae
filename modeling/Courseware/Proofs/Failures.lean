import Courseware.Proofs.Run

/-!
# Calls that fail

A call works inside two layers: the lock of its area, and in it a transaction of its own. Whatever
it has written by the time it fails is dropped with the transaction and the lock is given back, so
that nothing is left of it but the identifiers it has drawn (`undone_perform`). A run therefore goes
on as if each call that fails had been replaced by drawing as many identifiers
(`run_withoutFailures`).
-/

namespace Courseware

/-! ### Identifiers that are drawn -/

/-- The source after some identifiers have been drawn and thrown away. -/
def IdSource.discard (s : IdSource) : Nat → IdSource
  | 0 => s
  | n + 1 => s.draw.2.discard n

theorem IdSource.discard_eq (s : IdSource) (n : Nat) :
    s.discard n = { s with drawn := s.drawn + n } := by
  induction n generalizing s with
  | zero => rfl
  | succ n ih =>
    rw [discard, ih, mk.injEq]
    exact ⟨rfl, Nat.succ_add_eq_add_succ s.drawn n⟩

@[simp] theorem IdSource.drawn_discard (s : IdSource) (n : Nat) :
    (s.discard n).drawn = s.drawn + n := by
  rw [discard_eq]

/-- Attempts that draw one identifier each draw at most as many as there are attempts. -/
theorem retryFrom_drawn {α : Type} {attempt : Nat → IdSource → Except StoreFault α × IdSource}
    (hdraw : ∀ n ids, (attempt n ids).2 = ids.draw.2) (limit left n : Nat) (ids : IdSource) :
    ∃ k ≤ left, (retryFrom attempt limit left n ids).2 = ids.discard k := by
  induction left generalizing n ids with
  | zero => exact ⟨0, Nat.le_refl 0, rfl⟩
  | succ left ih =>
    have hone := hdraw n ids
    rw [retryFrom]
    rcases hattempt : attempt n ids with ⟨outcome, rest⟩
    rw [hattempt] at hone
    obtain rfl : rest = ids.draw.2 := hone
    cases outcome with
    | ok a => exact ⟨1, by omega, rfl⟩
    | error fault =>
      cases fault with
      | duplicateKey constraint =>
        obtain ⟨k, hk, hrest⟩ := ih (n + 1) ids.draw.2
        exact ⟨k + 1, by omega, hrest⟩
      | _ => exact ⟨1, by omega, rfl⟩

namespace Store

variable {policy : RetryPolicy} {now : Timestamp}

theorem addAnswer_drawn (s : Store) (ids : IdSource) (answer : Answer) :
    ∃ k ≤ policy.maxAttempts, (s.addAnswer policy ids answer now).2 = ids.discard k := by
  rw [addAnswer]
  cases s.expectAnswer answer.result now with
  | error fault => exact ⟨0, Nat.zero_le _, rfl⟩
  | ok t => exact retryFrom_drawn (fun _ _ => rfl) _ _ _ _

theorem recordGrade_drawn (s : Store) (ids : IdSource) (event : GradingEvent) :
    ∃ k ≤ policy.maxAttempts, (s.recordGrade policy ids event now).2 = ids.discard k := by
  rw [recordGrade]
  cases event.answer with
  | none => exact addAnswer_drawn s ids _
  | some id =>
    refine ⟨0, Nat.zero_le _, ?_⟩
    dsimp only
    split
    · rfl
    · split <;> rfl

end Store

/-- Only answers take identifiers, and no call takes more than it may try. -/
theorem Call.run_drawn (policy : RetryPolicy) (now : Timestamp) (call : Call) (ids : IdSource)
    (s : Store) : ∃ k ≤ policy.maxAttempts, (call.run policy now ids s).2 = ids.discard k := by
  cases call with
  | submitAnswer key author text => exact s.addAnswer_drawn ids _
  | recordGrade event => exact s.recordGrade_drawn ids event
  | _ => exact ⟨0, Nat.zero_le _, rfl⟩

namespace Session

variable {s : Session} {α : Type}

/-! ### The two layers around a call -/

/-- Does something while holding a lock, which is given back whatever comes of it. -/
def whileHolding (lock : String) (body : Session → Except Fault α × Session) (s : Session) :
    Except Fault α × Session :=
  match s.acquire lock with
  | .error fault => (.error (.ofStore fault), s)
  | .ok locked => ((body locked).1, (body locked).2.release lock)

/-- Does something in a transaction, which is committed if that succeeds and rolled back if not. -/
def inOwnTransaction (body : Session → Except Fault α × Session) (s : Session) :
    Except Fault α × Session :=
  match s.begin with
  | .error fault => (.error (.ofStore fault), s)
  | .ok opened =>
    match body opened with
    | (.error fault, broken) =>
      match broken.rollback with
      | .ok closed => (.error fault, closed)
      | .error _ => (.error fault, broken)
    | (.ok value, done) =>
      match done.commit with
      | .ok closed => (.ok value, closed)
      | .error fault => (.error (.ofStore fault), done)

/-- Carries out a call on the rows of the open transaction. A call that fails may have written
something before: it leaves the rows `torn`. -/
def carryOut (torn : Store) (call : Call) (s : Session) : Except Fault Reply × Session :=
  match call.run s.policy s.clock s.ids s.visible with
  | (.ok (reply, store), ids) => (.ok reply, { s with working := some store, ids })
  | (.error fault, ids) => (.error fault, { s with working := some torn, ids })

/-- How a call that fails has left the rows makes no difference. -/
theorem perform_eq_whileHolding (torn : Store) (call : Call) (s : Session) :
    s.perform call = s.whileHolding call.area.lock (inOwnTransaction (carryOut torn call)) := by
  rw [perform, whileHolding]
  cases s.acquire call.area.lock with
  | error fault => rfl
  | ok locked =>
    have htransact : locked.transact call = locked.inOwnTransaction (carryOut torn call) := by
      obtain ⟨committed, working, locks, ids, clock, policy⟩ := locked
      cases working with
      | some store => rfl
      | none =>
        rcases hrun : call.run policy clock ids committed with ⟨outcome, ids'⟩
        cases outcome <;>
          simp [transact, inOwnTransaction, carryOut, begin, visible, rollback, commit, hrun]
    dsimp only
    rw [htransact]

/-! ### What is left of a failure -/

/-- If it fails, it leaves the session as it was, except that identifiers have been drawn. -/
def Undone (body : Session → Except Fault α × Session) : Prop :=
  ∀ s fault, (body s).1 = .error fault → ∃ n, (body s).2 = { s with ids := s.ids.discard n }

/-- What a call had written when it failed is dropped with its transaction. -/
theorem undone_inOwnTransaction (torn : Store) (call : Call) :
    Undone (inOwnTransaction (carryOut torn call)) := by
  intro s fault hfail
  obtain ⟨committed, working, locks, ids, clock, policy⟩ := s
  cases working with
  | some store => exact ⟨0, rfl⟩
  | none =>
    obtain ⟨k, -, hdrawn⟩ := call.run_drawn policy clock ids committed
    rcases hrun : call.run policy clock ids committed with ⟨outcome, ids'⟩
    rw [hrun] at hdrawn
    obtain rfl : ids' = ids.discard k := hdrawn
    cases outcome with
    | error fault' =>
      refine ⟨k, ?_⟩
      simp [inOwnTransaction, carryOut, begin, visible, rollback, hrun]
    | ok p =>
      simp [inOwnTransaction, carryOut, begin, visible, commit, hrun] at hfail

/-- The lock that is given back is the one that was taken. -/
theorem Undone.whileHolding {body : Session → Except Fault α × Session} (hbody : Undone body)
    (lock : String) : Undone (whileHolding lock body) := by
  intro s fault hfail
  rw [Session.whileHolding] at hfail ⊢
  cases hacquire : s.acquire lock with
  | error fault' => exact ⟨0, rfl⟩
  | ok locked =>
    rw [hacquire] at hfail
    obtain ⟨n, hleft⟩ := hbody locked fault hfail
    obtain ⟨locks, hlocks, hlocked⟩ := bind_eq_ok.1 hacquire
    obtain rfl := Except.ok.inj hlocked
    rw [Locks.acquire] at hlocks
    split at hlocks
    · exact absurd hlocks (by simp)
    · obtain rfl := Except.ok.inj hlocks
      refine ⟨n, ?_⟩
      dsimp only
      rw [hleft, release, Locks.release, List.erase_cons_head]

theorem undone_perform (call : Call) : Undone fun s => s.perform call := by
  intro s fault hfail
  dsimp only at hfail ⊢
  rw [perform_eq_whileHolding .empty] at hfail ⊢
  exact (undone_inOwnTransaction .empty call).whileHolding _ s fault hfail

theorem committed_of_error {s : Session} {call : Call} {fault : Fault}
    (h : (s.perform call).1 = .error fault) : (s.perform call).2.committed = s.committed := by
  obtain ⟨n, hleft⟩ := undone_perform call s fault h
  dsimp only at hleft
  rw [hleft]

/-! ### Runs without the calls that fail -/

/-- What happens to a session where calls that fail are left out. -/
inductive Event where
  | step (step : Step)
  /-- Identifiers are drawn and thrown away. -/
  | draw (count : Nat)
  deriving DecidableEq

/-- The session after an event. -/
def handle (s : Session) : Event → Session
  | .step step => s.step step
  | .draw count => { s with ids := s.ids.discard count }

/-- The session after some events. -/
def handleAll (s : Session) (events : List Event) : Session := events.foldl handle s

/-- What a session answers to an event: only calls are answered. -/
def reply? (s : Session) : Event → Option (Except Fault Reply)
  | .step (.call call) => some (s.perform call).1
  | .step (.advance _) | .step (.setClock _) | .draw _ => none

/-- What is answered in the course of some events. -/
def replies (s : Session) : List Event → List (Except Fault Reply)
  | [] => []
  | event :: rest => (s.reply? event).toList ++ (s.handle event).replies rest

/-- A step, or in place of a call that fails the drawing of as many identifiers. -/
def instead (s : Session) : Step → Event
  | .call call =>
    match (s.perform call).1 with
    | .ok _ => .step (.call call)
    | .error _ => .draw ((s.perform call).2.ids.drawn - s.ids.drawn)
  | step => .step step

/-- Some steps with each call that fails replaced. -/
def withoutFailures (s : Session) : List Step → List Event
  | [] => []
  | step :: rest => s.instead step :: (s.step step).withoutFailures rest

/-- Where a call fails, drawing as many identifiers comes to the same. -/
theorem handle_instead (s : Session) (step : Step) : s.handle (s.instead step) = s.step step := by
  cases step with
  | advance span => rfl
  | setClock time => rfl
  | call call =>
    rw [instead]
    cases hreply : (s.perform call).1 with
    | ok reply => rfl
    | error fault =>
      obtain ⟨n, hleft⟩ := undone_perform call s fault hreply
      dsimp only at hleft ⊢
      rw [handle, step, hleft, IdSource.drawn_discard, Nat.add_sub_cancel_left]

/-- What is put in place of a step is answered as the step is, if that succeeds, or else not. -/
theorem reply?_instead (s : Session) (step : Step) :
    s.reply? (s.instead step) = (s.reply? (.step step)).filter (·.isOk) := by
  cases step with
  | advance span => rfl
  | setClock time => rfl
  | call call =>
    rw [instead]
    cases hreply : (s.perform call).1 with
    | ok reply =>
      dsimp only
      rw [reply?, hreply]
      rfl
    | error fault =>
      dsimp only
      rw [reply?, reply?, hreply]
      rfl

theorem handleAll_withoutFailures (s : Session) (steps : List Step) :
    s.handleAll (s.withoutFailures steps) = s.run steps := by
  induction steps generalizing s with
  | nil => rfl
  | cons step rest ih =>
    rw [withoutFailures, handleAll, List.foldl_cons, handle_instead]
    exact ih (s.step step)

theorem withoutFailures_take (s : Session) (steps : List Step) (n : Nat) :
    (s.withoutFailures steps).take n = s.withoutFailures (steps.take n) := by
  induction steps generalizing s n with
  | nil => simp [withoutFailures]
  | cons step rest ih =>
    cases n with
    | zero => rfl
    | succ n =>
      rw [withoutFailures, List.take_succ_cons, List.take_succ_cons, withoutFailures, ih]

theorem replies_withoutFailures (s : Session) (steps : List Step) :
    s.replies (s.withoutFailures steps) = (s.replies (steps.map .step)).filter (·.isOk) := by
  induction steps generalizing s with
  | nil => rfl
  | cons step rest ih =>
    have hone : (s.reply? (s.instead step)).toList =
        (s.reply? (.step step)).toList.filter (·.isOk) := by
      rw [reply?_instead]
      cases s.reply? (.step step) with
      | none => rfl
      | some reply => cases reply <;> rfl
    calc s.replies (s.withoutFailures (step :: rest))
        = (s.reply? (s.instead step)).toList ++
            (s.handle (s.instead step)).replies ((s.step step).withoutFailures rest) := rfl
      _ = (s.reply? (.step step)).toList.filter (·.isOk) ++
            ((s.step step).replies (rest.map .step)).filter (·.isOk) := by
          rw [hone, handle_instead, ih]
      _ = (s.replies ((step :: rest).map .step)).filter (·.isOk) := (List.filter_append _ _).symm

/-- Calls that fail cannot be told from drawing as many identifiers: with that in their place, a run
goes through the same sessions and all other calls are answered the same. After every step no lock
is held and no transaction is open. It makes no difference either what a call had written before it
failed. -/
theorem run_withoutFailures (ids : IdSource) (clock : Timestamp) (policy : RetryPolicy)
    (steps : List Step) :
    (∀ n, (start ids clock policy).handleAll
        (((start ids clock policy).withoutFailures steps).take n) =
          (start ids clock policy).run (steps.take n)) ∧
      (start ids clock policy).replies ((start ids clock policy).withoutFailures steps) =
        ((start ids clock policy).replies (steps.map .step)).filter (·.isOk) ∧
      (∀ n, ((start ids clock policy).run (steps.take n)).Idle) ∧
      ∀ (s : Session) (call : Call) (torn : Store),
        s.perform call = s.whileHolding call.area.lock (inOwnTransaction (carryOut torn call)) := by
  refine ⟨fun n => ?_, replies_withoutFailures _ steps, fun n => ?_, fun s call torn => ?_⟩
  · rw [withoutFailures_take, handleAll_withoutFailures]
  · exact idle_run (idle_start ids clock policy) (steps.take n)
  · exact perform_eq_whileHolding torn call s

/-- Two answers for which the source has the same identifier only. -/
def collidingAnswers : List Step :=
  [ .call (.createGroup 1 ⟨"", .user, true, none, none, none⟩),
    .call (.createItem 10 .plain),
    .call (.createAttempt 1 (some 10) none),
    .call (.submitAnswer ⟨1, 0, 10⟩ 1 "first"),
    .call (.submitAnswer ⟨1, 0, 10⟩ 1 "second") ]

/-- The second one is left as a draw of as many identifiers as it may try. -/
example : ((start (.ofList [7]) .zero .standard).withoutFailures collidingAnswers)[4]? =
    some (.draw 3) := by
  decide +kernel

end Session

end Courseware
