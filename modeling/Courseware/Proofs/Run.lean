import Courseware.Session
import Courseware.Proofs.Table

/-!
# Runs of a session

Between two steps no lock is held and no transaction is open, so a call works on the committed store
and either commits what it computes or leaves the store alone. What holds of a session at the start
of a run and is kept by every step holds at its end.
-/

namespace Courseware

theorem bind_eq_ok {ε α β : Type} {x : Except ε α} {f : α → Except ε β} {b : β} :
    (x >>= f) = .ok b ↔ ∃ a, x = .ok a ∧ f a = .ok b := by
  cases x with
  | error e => simp [bind, Except.bind]
  | ok a => simp [bind, Except.bind]

theorem bind_eq_error {ε α β : Type} {x : Except ε α} {f : α → Except ε β} {e : ε} :
    (x >>= f) = .error e ↔ x = .error e ∨ ∃ a, x = .ok a ∧ f a = .error e := by
  cases x with
  | error e' => simp [bind, Except.bind]
  | ok a => simp [bind, Except.bind]

theorem ite_error_eq_error {ε α : Type} {c : Prop} [Decidable c] {e e' : ε} {a : α} :
    (if c then .error e' else .ok a : Except ε α) = .error e ↔ e = e' ∧ c := by
  by_cases hc : c
  · simp [hc, eq_comm]
  · simp [hc]

@[simp] theorem Fault.lift_ok {α : Type} (a : α) : Fault.lift (.ok a) = .ok a := rfl

@[simp] theorem Fault.lift_error {α : Type} (fault : StoreFault) :
    Fault.lift (.error fault : Except StoreFault α) = .error (.ofStore fault) :=
  rfl

theorem Fault.lift_eq_ok {α : Type} {x : Except StoreFault α} {a : α} :
    Fault.lift x = .ok a ↔ x = .ok a := by
  cases x <;> simp

/-! ### Why a step fails -/

/-- If it fails, it is for a reason of the given kind. -/
def FailsFor (p : Fault → Prop) {α : Type} (outcome : Except Fault α) : Prop :=
  ∀ fault, outcome = .error fault → p fault

section FailsFor

variable {p : Fault → Prop} {α β : Type}

theorem failsFor_ok (a : α) : FailsFor p (.ok a) := by
  intro fault h
  exact absurd h (by simp)

theorem failsFor_error {fault : Fault} (h : p fault) :
    FailsFor p (.error fault : Except Fault α) := by
  intro fault' heq
  exact Except.error.inj heq ▸ h

theorem failsFor_lift (hstore : ∀ fault, p (.ofStore fault)) (outcome : Except StoreFault α) :
    FailsFor p (Fault.lift outcome) := by
  cases outcome with
  | ok a => exact failsFor_ok a
  | error fault => exact failsFor_error (hstore fault)

theorem FailsFor.bind {x : Except Fault α} {f : α → Except Fault β} (hx : FailsFor p x)
    (hf : ∀ a, x = .ok a → FailsFor p (f a)) : FailsFor p (x >>= f) := by
  intro fault h
  rcases bind_eq_error.1 h with hfail | ⟨a, ha, hfail⟩
  · exact hx fault hfail
  · exact hf a ha fault hfail

end FailsFor

theorem Reply.onSuccess_eq_ok {α : Type} {reply : α → Reply} {outcome : Except Fault (α × Store)}
    {r : Reply} {s : Store} :
    Reply.onSuccess reply outcome = .ok (r, s) ↔ ∃ a, outcome = .ok (a, s) ∧ reply a = r := by
  cases outcome with
  | error fault => simp [Reply.onSuccess, Except.map]
  | ok p =>
    obtain ⟨a, t⟩ := p
    simp only [Reply.onSuccess, Except.map, Except.ok.injEq, Prod.mk.injEq]
    constructor
    · rintro ⟨rfl, rfl⟩
      exact ⟨a, ⟨rfl, rfl⟩, rfl⟩
    · rintro ⟨b, ⟨rfl, rfl⟩, rfl⟩
      exact ⟨rfl, rfl⟩

theorem Reply.onSuccess_eq_error {α : Type} {reply : α → Reply}
    {outcome : Except Fault (α × Store)} {fault : Fault} :
    Reply.onSuccess reply outcome = .error fault ↔ outcome = .error fault := by
  cases outcome <;> simp [Reply.onSuccess, Except.map]

theorem Reply.doneOnSuccess_eq_ok {outcome : Except Fault Store} {r : Reply} {s : Store} :
    Reply.doneOnSuccess outcome = .ok (r, s) ↔ outcome = .ok s ∧ r = .done := by
  cases outcome with
  | error fault => simp [Reply.doneOnSuccess, Except.map]
  | ok t =>
    simp only [Reply.doneOnSuccess, Except.map, Except.ok.injEq, Prod.mk.injEq]
    constructor
    · rintro ⟨rfl, rfl⟩
      exact ⟨rfl, rfl⟩
    · rintro ⟨rfl, rfl⟩
      exact ⟨rfl, rfl⟩

theorem Reply.doneOnSuccess_eq_error {outcome : Except Fault Store} {fault : Fault} :
    Reply.doneOnSuccess outcome = .error fault ↔ outcome = .error fault := by
  cases outcome <;> simp [Reply.doneOnSuccess, Except.map]

/-- What a sweep comes to. Without this, matching the call against its outcome runs the sweep. -/
theorem Call.run_sweep (policy : RetryPolicy) (now : Timestamp) (ids : IdSource) (s : Store) :
    (Call.run policy now .sweep ids s).1 = Reply.onSuccess .permissions (s.sweep now) := by
  rw [Call.run]

namespace Session

/-- No lock is held and no transaction is open. -/
structure Idle (s : Session) : Prop where
  working : s.working = none
  locks : s.locks = .empty

theorem idle_start (ids : IdSource) (clock : Timestamp) (policy : RetryPolicy) :
    (start ids clock policy).Idle :=
  ⟨rfl, rfl⟩

/-- What a call comes to on the committed store. -/
def outcomeOf (s : Session) (call : Call) : Except Fault (Reply × Store) :=
  (call.run s.policy s.clock s.ids s.committed).1

/-- The session after a call with the given outcome. -/
def settle (s : Session) (call : Call) : Except Fault (Reply × Store) → Session
  | .ok (_, store) =>
    { s with committed := store, ids := (call.run s.policy s.clock s.ids s.committed).2 }
  | .error _ => { s with ids := (call.run s.policy s.clock s.ids s.committed).2 }

theorem perform_eq {s : Session} (hs : s.Idle) (call : Call) :
    s.perform call = ((s.outcomeOf call).map (·.1), s.settle call (s.outcomeOf call)) := by
  obtain ⟨committed, working, locks, ids, clock, policy⟩ := s
  obtain ⟨rfl, rfl⟩ := hs
  rcases hrun : call.run policy clock ids committed with ⟨outcome, ids'⟩
  cases outcome with
  | error fault =>
    simp [perform, acquire, Locks.acquire, Locks.isLocked, Locks.empty, transact, begin, visible,
      rollback, release, Locks.release, hrun, outcomeOf, settle, Except.map, bind, Except.bind,
      pure, Except.pure]
  | ok p =>
    obtain ⟨reply, store⟩ := p
    simp [perform, acquire, Locks.acquire, Locks.isLocked, Locks.empty, transact, begin, visible,
      commit, release, Locks.release, hrun, outcomeOf, settle, Except.map, bind, Except.bind,
      pure, Except.pure]

/-- A call that succeeds has got its lock and its transaction, and what it computed is committed. -/
theorem perform_ok {s : Session} {call : Call} {reply : Reply}
    (h : (s.perform call).1 = .ok reply) :
    ∃ store, s.outcomeOf call = .ok (reply, store) ∧ (s.perform call).2.committed = store := by
  obtain ⟨committed, working, locks, ids, clock, policy⟩ := s
  rw [perform] at h ⊢
  cases hlock : acquire ⟨committed, working, locks, ids, clock, policy⟩ call.area.lock with
  | error fault => simp [hlock] at h
  | ok locked =>
    obtain ⟨locks', -, hlocked⟩ := bind_eq_ok.1 hlock
    obtain rfl := Except.ok.inj hlocked
    rw [hlock] at h
    rcases hrun : call.run policy clock ids committed with ⟨outcome, ids'⟩
    cases working with
    | some store => simp [transact, begin] at h
    | none =>
      cases outcome with
      | error fault => simp [transact, begin, visible, rollback, hrun] at h
      | ok p =>
        simp only [transact, begin, visible, commit, Option.getD_some, hrun, Except.ok.injEq] at h
        subst h
        refine ⟨p.2, by rw [outcomeOf, hrun], ?_⟩
        simp [transact, begin, visible, commit, release, hrun]

theorem outcome_of_isOk {s : Session} {call : Call} (hok : (s.perform call).1.isOk = true) :
    ∃ reply, s.outcomeOf call = .ok (reply, (s.perform call).2.committed) := by
  cases hreply : (s.perform call).1 with
  | error fault => exact absurd (hreply ▸ hok) (by simp [Except.isOk, Except.toBool])
  | ok reply =>
    obtain ⟨store, hout, hcommitted⟩ := perform_ok hreply
    exact ⟨reply, hcommitted.symm ▸ hout⟩

theorem perform_error {s : Session} (hs : s.Idle) {call : Call} {fault : Fault}
    (h : (s.perform call).1 = .error fault) :
    s.outcomeOf call = .error fault ∧ (s.perform call).2.committed = s.committed := by
  rw [perform_eq hs] at h ⊢
  cases hout : s.outcomeOf call with
  | error fault' =>
    rw [hout] at h
    exact ⟨by simpa [Except.map] using h, rfl⟩
  | ok p => simp [hout, Except.map] at h

theorem perform_eq_error {s : Session} (hs : s.Idle) {call : Call} {fault : Fault} :
    (s.perform call).1 = .error fault ↔ s.outcomeOf call = .error fault := by
  rw [perform_eq hs]
  cases s.outcomeOf call <;> simp [Except.map]

theorem perform_of_outcome {s : Session} (hs : s.Idle) {call : Call} {reply : Reply}
    {store : Store} (h : s.outcomeOf call = .ok (reply, store)) :
    (s.perform call).1 = .ok reply ∧ (s.perform call).2.committed = store := by
  rw [perform_eq hs, h]
  exact ⟨rfl, rfl⟩

/-- A call that changes nothing and draws no identifier leaves the session as it is. -/
theorem perform_of_run_eq {s : Session} (hs : s.Idle) {call : Call} {reply : Reply}
    (hrun : call.run s.policy s.clock s.ids s.committed = (.ok (reply, s.committed), s.ids)) :
    s.perform call = (.ok reply, s) := by
  rw [perform_eq hs, outcomeOf, hrun, settle, hrun]
  rfl

theorem idle_settle {s : Session} (hs : s.Idle) (call : Call)
    (outcome : Except Fault (Reply × Store)) : (s.settle call outcome).Idle := by
  cases outcome with
  | error fault => exact ⟨hs.working, hs.locks⟩
  | ok p => exact ⟨hs.working, hs.locks⟩

theorem idle_step {s : Session} (hs : s.Idle) (step : Step) : (s.step step).Idle := by
  cases step with
  | call call =>
    rw [Session.step, perform_eq hs]
    exact idle_settle hs call _
  | advance span => exact ⟨hs.working, hs.locks⟩
  | setClock time => exact ⟨hs.working, hs.locks⟩

theorem idle_run {s : Session} (hs : s.Idle) (steps : List Step) : (s.run steps).Idle := by
  induction steps generalizing s with
  | nil => exact hs
  | cons step rest ih => exact ih (idle_step hs step)

/-- The committed store after a step is that of a successful call, or the one before. -/
theorem committed_step {s : Session} (hs : s.Idle) (step : Step) :
    (s.step step).committed = s.committed ∨
      ∃ call reply, step = .call call ∧
        s.outcomeOf call = .ok (reply, (s.step step).committed) := by
  cases step with
  | call call =>
    rw [Session.step, perform_eq hs]
    cases hout : s.outcomeOf call with
    | error fault => exact Or.inl rfl
    | ok p => exact Or.inr ⟨call, p.1, rfl, hout⟩
  | advance span => exact Or.inl rfl
  | setClock time => exact Or.inl rfl

@[simp] theorem clock_step_call {s : Session} (hs : s.Idle) (call : Call) :
    (s.step (.call call)).clock = s.clock := by
  rw [Session.step, perform_eq hs]
  cases s.outcomeOf call <;> rfl

theorem membership?_of_idle {s : Session} (hs : s.Idle) (parent child : GroupId) :
    s.membership? parent child = s.committed.memberships.get? (parent, child) := by
  rw [membership?, visible, hs.working]
  rfl

theorem group?_of_idle {s : Session} (hs : s.Idle) (id : GroupId) :
    s.group? id = s.committed.groups.get? id := by
  rw [group?, visible, hs.working]
  rfl

/-! ### Conditions along a run -/

/-- Every step of a run meets a condition in the session before it. -/
def Along (p : Session → Step → Prop) : Session → List Step → Prop
  | _, [] => True
  | s, step :: rest => p s step ∧ Along p (s.step step) rest

instance decidableAlong {p : Session → Step → Prop} [∀ s step, Decidable (p s step)] :
    ∀ (s : Session) (steps : List Step), Decidable (s.Along p steps)
  | _, [] => isTrue trivial
  | s, step :: rest => @instDecidableAnd _ _ _ (decidableAlong (s.step step) rest)

theorem Along.mono {p q : Session → Step → Prop} (hpq : ∀ s step, p s step → q s step) {s : Session}
    {steps : List Step} (h : s.Along p steps) : s.Along q steps := by
  induction steps generalizing s with
  | nil => trivial
  | cons step rest ih => exact ⟨hpq s step h.1, ih h.2⟩

/-- What every step of a run keeps holds at its end. -/
theorem run_induction {I : Session → Prop} {p : Session → Step → Prop}
    (hstep : ∀ s step, s.Idle → I s → p s step → I (s.step step)) {s : Session} (hs : s.Idle)
    (hI : I s) {steps : List Step} (hp : s.Along p steps) : I (s.run steps) := by
  induction steps generalizing s with
  | nil => exact hI
  | cons step rest ih => exact ih (idle_step hs step) (hstep s step hs hI hp.1) hp.2

/-- Some step of a run meets a condition in the session before it. -/
def Sometime (p : Session → Step → Prop) : Session → List Step → Prop
  | _, [] => False
  | s, step :: rest => p s step ∨ Sometime p (s.step step) rest

/-- What a step keeps as soon as something has happened, holds at the end of a run if that was so
before the run or has happened in the course of it. -/
theorem run_history {I : Prop → Session → Prop} {p q : Session → Step → Prop}
    (hstep : ∀ happened s step, s.Idle → I happened s → q s step →
      I (happened ∨ p s step) (s.step step)) {s : Session} (hs : s.Idle) (happened : Prop)
    (hI : I happened s) {steps : List Step} (hq : s.Along q steps) :
    I (happened ∨ s.Sometime p steps) (s.run steps) := by
  induction steps generalizing s happened with
  | nil =>
    rw [Sometime, or_false]
    exact hI
  | cons step rest ih =>
    have hrest := ih (idle_step hs step) _ (hstep happened s step hs hI hq.1) hq.2
    rwa [or_assoc] at hrest

theorem along_true (s : Session) (steps : List Step) : s.Along (fun _ _ => True) steps := by
  induction steps generalizing s with
  | nil => trivial
  | cons step rest ih => exact ⟨trivial, ih _⟩

theorem along_of_forall {p : Session → Step → Prop} {steps : List Step}
    (h : ∀ step ∈ steps, ∀ s, p s step) (s : Session) : s.Along p steps := by
  induction steps generalizing s with
  | nil => trivial
  | cons step rest ih =>
    exact ⟨h step List.mem_cons_self s, ih (fun later hlater => h later (.tail _ hlater)) _⟩

/-- What holds of the empty store and is kept by every successful call holds of every store that a
run commits. -/
theorem committed_run {P : Store → Prop} (hempty : P .empty)
    (hcall : ∀ policy now call ids s reply s', P s →
      (Call.run policy now call ids s).1 = .ok (reply, s') → P s')
    (ids : IdSource) (clock : Timestamp) (policy : RetryPolicy) (steps : List Step) :
    P ((start ids clock policy).run steps).committed := by
  refine run_induction (I := fun s => P s.committed) ?_ (idle_start ids clock policy) hempty
    (along_true _ steps)
  intro s step hs hP _
  rcases committed_step hs step with heq | ⟨call, reply, -, hout⟩
  · rw [heq]
    exact hP
  · exact hcall _ _ _ _ _ _ _ hP hout

theorem run_append (s : Session) (steps rest : List Step) :
    s.run (steps ++ rest) = (s.run steps).run rest :=
  List.foldl_append

end Session

end Courseware
