import Courseware.Proofs.Failures
import Courseware.Proofs.Integrity

/-!
# Identifiers of new answers

A new answer gets the first of the next identifiers that no stored answer has. Each identifier that
is tried stays drawn, so a call has drawn exactly those up to the one that its answer got, or as
many as it may try if all of them are taken (`answer_takes_firstFresh`). In the latter case nothing
is left of the call, not even of the result that it got ready for the answer.
-/

namespace Courseware

namespace IdSource

/-- The identifier that is handed out after `k` others. -/
def upcoming (ids : IdSource) (k : Nat) : Int := ids.sequence (ids.drawn + k)

theorem upcoming_zero (ids : IdSource) : ids.upcoming 0 = ids.draw.1 := rfl

theorem upcoming_draw (ids : IdSource) (k : Nat) :
    ids.draw.2.upcoming k = ids.upcoming (k + 1) := by
  rw [upcoming, upcoming]
  exact congrArg ids.sequence (by simp only [draw]; omega)

end IdSource

/-! ### Attempts with one identifier each -/

section Retry

variable {α : Type} (insert : Int → Except StoreFault α)

/-- Tries an insertion with the next identifier. -/
def attemptNext (_ : Nat) (ids : IdSource) : Except StoreFault α × IdSource :=
  (insert ids.draw.1, ids.draw.2)

/-- As long as the identifiers are taken, further ones are tried. -/
theorem retryFrom_skip {k : Nat} {ids : IdSource}
    (htaken : ∀ j < k, ∃ violation, insert (ids.upcoming j) = .error (.duplicateKey violation))
    (limit left n : Nat) :
    retryFrom (attemptNext insert) limit (k + left) n ids =
      retryFrom (attemptNext insert) limit left (n + k) (ids.discard k) := by
  induction k generalizing n ids with
  | zero => rw [Nat.zero_add, Nat.add_zero, IdSource.discard]
  | succ k ih =>
    obtain ⟨violation, hfirst⟩ := htaken 0 (Nat.succ_pos k)
    have hrest : ∀ j < k, ∃ violation,
        insert (ids.draw.2.upcoming j) = .error (.duplicateKey violation) := by
      intro j hj
      rw [IdSource.upcoming_draw]
      exact htaken (j + 1) (Nat.succ_lt_succ hj)
    rw [Nat.succ_add, retryFrom, attemptNext, ← IdSource.upcoming_zero, hfirst]
    dsimp only
    rw [ih hrest, IdSource.discard, Nat.add_right_comm, Nat.add_assoc]

/-- The first identifier that is not taken decides, and no other is drawn after it. -/
theorem retryFrom_first {k : Nat} {ids : IdSource}
    (htaken : ∀ j < k, ∃ violation, insert (ids.upcoming j) = .error (.duplicateKey violation))
    (hfree : ∀ violation, insert (ids.upcoming k) ≠ .error (.duplicateKey violation))
    {limit left : Nat} (hk : k < left) (n : Nat) :
    retryFrom (attemptNext insert) limit left n ids =
      (insert (ids.upcoming k), ids.discard (k + 1)) := by
  obtain ⟨more, rfl⟩ := Nat.exists_eq_add_of_lt hk
  have hdrawn : (ids.discard k).draw = (ids.upcoming k, ids.discard (k + 1)) := by
    rw [IdSource.discard_eq, IdSource.discard_eq]
    rfl
  rw [Nat.add_assoc, retryFrom_skip insert htaken, retryFrom, attemptNext, hdrawn]
  dsimp only
  split
  · rename_i heq
    exact absurd (congrArg Prod.fst heq) (hfree _)
  · rfl

/-- If all of them are taken, each has been drawn. -/
theorem retryFrom_exhausted {left : Nat} {ids : IdSource}
    (htaken : ∀ j < left, ∃ violation, insert (ids.upcoming j) = .error (.duplicateKey violation))
    (limit n : Nat) :
    retryFrom (attemptNext insert) limit left n ids =
      (.error (.generatorExhausted limit), ids.discard left) := by
  have hskip := retryFrom_skip insert htaken limit 0 n
  rwa [Nat.add_zero, retryFrom] at hskip

end Retry

namespace Store

variable {s t : Store} {now : Timestamp} {policy : RetryPolicy} {ids : IdSource} {answer : Answer}

/-- The store with one more answer. -/
def withAnswer (s : Store) (id : AnswerId) (answer : Answer) : Store :=
  { s with answers := s.answers.insert id answer }

/-- The identifier handed out after `k` others is the first that no stored answer has. -/
structure FirstFresh (s : Store) (ids : IdSource) (k : Nat) : Prop where
  fresh : s.answers.contains (ids.upcoming k) = false
  taken : ∀ j < k, s.answers.contains (ids.upcoming j) = true

theorem insertAnswer_taken {id : AnswerId} (h : s.answers.contains id = true) :
    s.insertAnswer id answer = .error (.taken "answers.id") := by
  rw [insertAnswer, if_pos h]

theorem insertAnswer_fresh {id : AnswerId} (h : s.answers.contains id = false)
    (hresult : s.results.contains answer.result = true) :
    s.insertAnswer id answer = .ok (s.withAnswer id answer) := by
  rw [insertAnswer, if_neg (by simp [h]), demand, if_pos hresult]
  rfl

theorem insertFreshAnswer_first {k : Nat} (hfirst : s.FirstFresh ids k)
    (hk : k < policy.maxAttempts) (hresult : s.results.contains answer.result = true) :
    s.insertFreshAnswer policy ids answer =
      (.ok (ids.upcoming k, s.withAnswer (ids.upcoming k) answer), ids.discard (k + 1)) := by
  have hfree := insertAnswer_fresh hfirst.fresh hresult
  have htaken : ∀ j < k, ∃ violation, (s.insertAnswer (ids.upcoming j) answer).map
      (ids.upcoming j, ·) = .error (.duplicateKey violation) := by
    intro j hj
    exact ⟨_, by rw [insertAnswer_taken (hfirst.taken j hj)]; rfl⟩
  refine (retryFrom_first (fun id => (s.insertAnswer id answer).map (id, ·)) htaken ?_ hk
    0).trans ?_
  · intro violation
    simp [hfree, Except.map]
  · rw [hfree]
    rfl

theorem insertFreshAnswer_exhausted
    (htaken : ∀ j < policy.maxAttempts, s.answers.contains (ids.upcoming j) = true) :
    s.insertFreshAnswer policy ids answer =
      (.error (.generatorExhausted policy.maxAttempts), ids.discard policy.maxAttempts) := by
  refine retryFrom_exhausted (fun id => (s.insertAnswer id answer).map (id, ·)) ?_ _ 0
  intro j hj
  exact ⟨_, by rw [insertAnswer_taken (htaken j hj)]; rfl⟩

/-! ### The result that an answer is to -/

/-- The attempt and the item of a result are stored. -/
def Expects (s : Store) (key : ResultKey) : Prop :=
  s.attempts.contains (key.participant, key.attempt) = true ∧ s.items.contains key.item = true

/-- What is not there of a result's attempt and item. -/
def missingOf (s : Store) (key : ResultKey) : Subject :=
  if s.attempts.contains (key.participant, key.attempt) then .item key.item
  else .attempt key.attempt key.participant

theorem expectAnswer_missing {key : ResultKey} (h : ¬ s.Expects key) :
    s.expectAnswer key now = .error (.notFound (s.missingOf key)) := by
  rw [expectAnswer, missingOf]
  cases hattempt : s.attempts.contains (key.participant, key.attempt) with
  | false => rfl
  | true =>
    have hitem : s.items.contains key.item = false := by
      rw [← Bool.not_eq_true]
      exact fun hitem => h ⟨hattempt, hitem⟩
    simp [requireItem, hitem, bind, Except.bind]

/-- The result is there afterwards, and nothing but results is touched. -/
theorem expectAnswer_found {key : ResultKey} (h : s.Expects key) (now : Timestamp) :
    ∃ t, s.expectAnswer key now = .ok t ∧ s.touchLeaf key now = .ok t ∧
      t.results.contains key = true ∧ s.ResultsGrow t := by
  obtain ⟨hattempt, hitem⟩ := h
  have hexpect : s.expectAnswer key now = s.touchLeaf key now := by
    simp [expectAnswer, requireItem, hattempt, hitem, bind, Except.bind]
  obtain ⟨created, u, hinsert, hstored⟩ : ∃ created u,
      s.insertResult key .toBeRecomputed now = .ok (created, u) ∧
        u.results.contains key = true := by
    rw [insertResult]
    split
    · rename_i hthere
      exact ⟨false, s, rfl, hthere⟩
    · refine ⟨true, _, by simp only [demand, hattempt, hitem]; rfl, ?_⟩
      simp
  have htouch : s.touchLeaf key now =
      .ok (if created then u else u.setProgress key .toBeRecomputed) := by
    rw [touchLeaf, hinsert]
    rfl
  refine ⟨_, hexpect.trans htouch, htouch, ?_, resultsGrow_touchLeaf htouch⟩
  split
  · exact hstored
  · exact (resultsGrow_setProgress u key _).kept key hstored

/-! ### Adding an answer -/

theorem addAnswer_missing (h : ¬ s.Expects answer.result) :
    s.addAnswer policy ids answer now = (.error (.notFound (s.missingOf answer.result)), ids) := by
  rw [addAnswer, expectAnswer_missing h]

theorem addAnswer_first (h : s.Expects answer.result) {k : Nat} (hfirst : s.FirstFresh ids k)
    (hk : k < policy.maxAttempts) (now : Timestamp) :
    ∃ t, s.touchLeaf answer.result now = .ok t ∧ s.ResultsGrow t ∧
      s.addAnswer policy ids answer now =
        (.ok (ids.upcoming k, t.withAnswer (ids.upcoming k) answer), ids.discard (k + 1)) := by
  obtain ⟨t, hexpect, htouch, hresult, hgrow⟩ := expectAnswer_found h now
  have hsame : t.FirstFresh ids k := by
    obtain ⟨rs, rfl⟩ := hgrow.frame
    exact ⟨hfirst.fresh, hfirst.taken⟩
  refine ⟨t, htouch, hgrow, ?_⟩
  rw [addAnswer, hexpect]
  dsimp only
  rw [insertFreshAnswer_first hsame hk hresult, Fault.lift_ok]

theorem addAnswer_exhausted (h : s.Expects answer.result)
    (htaken : ∀ k < policy.maxAttempts, s.answers.contains (ids.upcoming k) = true) :
    s.addAnswer policy ids answer now =
      (.error (.generatorExhausted policy.maxAttempts), ids.discard policy.maxAttempts) := by
  obtain ⟨t, hexpect, -, -, hgrow⟩ := expectAnswer_found h now
  have hsame : ∀ k < policy.maxAttempts, t.answers.contains (ids.upcoming k) = true := by
    obtain ⟨rs, rfl⟩ := hgrow.frame
    exact htaken
  rw [addAnswer, hexpect]
  dsimp only
  rw [insertFreshAnswer_exhausted hsame, Fault.lift_error]
  rfl

end Store

/-! ### Calls that add an answer -/

/-- A grading of an answer without one counts. -/
theorem Store.status_of_gradeAnswer {s s' : Store} {id : AnswerId} {event : GradingEvent}
    {now : Timestamp} {status : GradeStatus} (hungraded : s.gradings.contains id = false)
    (h : s.gradeAnswer id event now = .ok (status, s')) : status = .recorded := by
  rw [gradeAnswer, if_neg (by simp [hungraded])] at h
  obtain ⟨t, -, h⟩ := bind_eq_ok.1 h
  obtain ⟨u, -, h⟩ := bind_eq_ok.1 h
  obtain ⟨v, -, h⟩ := bind_eq_ok.1 h
  exact (congrArg Prod.fst (Except.ok.inj h)).symm

namespace Call

/-- The answer that a call adds, if it adds one. -/
def answer? (now : Timestamp) : Call → Option Answer
  | submitAnswer key author text => some ⟨key, author, text, now⟩
  | recordGrade ⟨key, none, _, _⟩ => some ⟨key, key.participant, "", now⟩
  | _ => none

/-- What such a call does once its answer is stored. -/
def finish (now : Timestamp) : Call → AnswerId → Store → Except Fault (Reply × Store)
  | submitAnswer .., id, s => Reply.onSuccess (fun _ => .answer id) (s.propagateResults now)
  | recordGrade event, id, s => Reply.onSuccess .grade (s.gradeAnswer id event now)
  | _, _, s => .ok (.done, s)

/-- What such a call answers when its answer gets an identifier. -/
def replyTo : Call → AnswerId → Reply
  | submitAnswer .., id => .answer id
  | recordGrade _, _ => .grade .recorded
  | _, _ => .done

variable {now : Timestamp} {call : Call} {answer : Answer}

theorem run_answer (hcall : call.answer? now = some answer) (policy : RetryPolicy) (ids : IdSource)
    (s : Store) :
    call.run policy now ids s =
      ((s.addAnswer policy ids answer now).1 >>= fun added => call.finish now added.1 added.2,
        (s.addAnswer policy ids answer now).2) := by
  cases call with
  | submitAnswer key author text =>
    obtain rfl := Option.some.inj hcall
    simp only [run, Store.submitAnswer]
    refine Prod.ext ?_ rfl
    cases (s.addAnswer policy ids ⟨key, author, text, now⟩ now).1 with
    | error fault => rfl
    | ok added =>
      simp only [Except.bind, bind, finish, Reply.onSuccess]
      cases added.2.propagateResults now <;> rfl
  | recordGrade event =>
    obtain ⟨key, named, score, gradedAt⟩ := event
    cases named with
    | some id => simp [answer?] at hcall
    | none =>
      obtain rfl := Option.some.inj hcall
      simp only [run, Store.recordGrade]
      refine Prod.ext ?_ rfl
      cases (s.addAnswer policy ids ⟨key, key.participant, "", now⟩ now).1 <;> rfl
  | _ => simp [answer?] at hcall

/-- Nothing that comes after an answer is stored touches the answers. -/
theorem finish_eq_ok (hcall : call.answer? now = some answer) {id : AnswerId} {s s' : Store}
    {reply : Reply} (h : call.finish now id s = .ok (reply, s'))
    (hungraded : s.gradings.contains id = false) :
    reply = call.replyTo id ∧ s'.answers = s.answers := by
  cases call with
  | submitAnswer key author text =>
    rw [finish] at h
    obtain ⟨outcome, hsettle, rfl⟩ := Reply.onSuccess_eq_ok.1 h
    obtain ⟨rs, rfl⟩ := (Store.resultsGrow_propagateResults hsettle).frame
    exact ⟨rfl, rfl⟩
  | recordGrade event =>
    obtain ⟨status, hgrade, rfl⟩ := Reply.onSuccess_eq_ok.1 h
    rcases Store.gradeAnswer_eq_ok hgrade with
      ⟨hgraded, -⟩ | ⟨-, t, u, outcome, hinsert, htouch, hsettle⟩
    · exact absurd (hungraded.symm.trans hgraded) (by simp)
    · obtain ⟨-, score, -, rfl⟩ := Store.insertGrading_eq_ok hinsert
      obtain ⟨rs, rfl⟩ := (Store.resultsGrow_touchLeaf htouch).frame
      obtain ⟨rs', rfl⟩ := (Store.resultsGrow_propagateResults hsettle).frame
      exact ⟨by rw [Store.status_of_gradeAnswer hungraded hgrade]; rfl, rfl⟩
  | _ => simp [answer?] at hcall

end Call

namespace Session

variable {call : Call} {answer : Answer}

theorem policy_step {s : Session} (hs : s.Idle) (step : Step) :
    (s.step step).policy = s.policy := by
  cases step with
  | call call =>
    rw [Session.step, perform_eq hs]
    cases s.outcomeOf call <;> rfl
  | advance span => rfl
  | setClock time => rfl

theorem policy_run (ids : IdSource) (clock : Timestamp) (policy : RetryPolicy) (steps : List Step) :
    ((start ids clock policy).run steps).policy = policy := by
  refine run_induction (I := fun s => s.policy = policy) (fun s step hs hpolicy _ => ?_)
    (idle_start ids clock policy) rfl (along_true _ steps)
  rw [policy_step hs, hpolicy]

theorem ids_perform {s : Session} (hs : s.Idle) (call : Call) :
    (s.perform call).2.ids = (call.run s.policy s.clock s.ids s.committed).2 := by
  rw [perform_eq hs]
  cases s.outcomeOf call <;> rfl

/-- A call that fails while it adds its answer leaves nothing but the identifiers that it has
drawn. -/
theorem perform_of_addAnswer_error {s : Session} (hs : s.Idle)
    (hcall : call.answer? s.clock = some answer) {fault : Fault} {ids : IdSource}
    (hadd : s.committed.addAnswer s.policy s.ids answer s.clock = (.error fault, ids)) :
    s.perform call = (.error fault, { s with ids }) := by
  have hrun := Call.run_answer hcall s.policy s.ids s.committed
  rw [hadd] at hrun
  have hout : s.outcomeOf call = .error fault := by
    rw [outcomeOf, hrun]
    rfl
  rw [perform_eq hs, hout, settle, hrun]
  rfl

/-- What becomes of a call that adds an answer. If the attempt or the item is not stored it fails
and draws nothing; if all identifiers that it may try are taken it fails as exhausted with all of
them drawn, and no table changes. Else the answer gets the first identifier that no stored answer
has, the identifiers up to that one are drawn, and the call goes on with the answer stored: if it
succeeds the answer stands beside all earlier ones, and if not no table changes. -/
structure DrawsExactly (s : Session) (call : Call) (answer : Answer) : Prop where
  missing : ¬ s.committed.Expects answer.result →
    s.perform call = (.error (.notFound (s.committed.missingOf answer.result)), s)
  exhausted : s.committed.Expects answer.result →
    (∀ k < s.policy.maxAttempts, s.committed.answers.contains (s.ids.upcoming k) = true) →
    s.perform call = (.error (.generatorExhausted s.policy.maxAttempts),
      { s with ids := s.ids.discard s.policy.maxAttempts })
  drawn : s.committed.Expects answer.result → ∀ k < s.policy.maxAttempts,
    s.committed.FirstFresh s.ids k → (s.perform call).2.ids = s.ids.discard (k + 1)
  goesOn : s.committed.Expects answer.result → ∀ k < s.policy.maxAttempts,
    s.committed.FirstFresh s.ids k →
    ∃ t, s.committed.touchLeaf answer.result s.clock = .ok t ∧
      (s.perform call).1 = (call.finish s.clock (s.ids.upcoming k)
        (t.withAnswer (s.ids.upcoming k) answer)).map (·.1)
  stored : s.committed.Expects answer.result → ∀ k < s.policy.maxAttempts,
    s.committed.FirstFresh s.ids k → ∀ reply, (s.perform call).1 = .ok reply →
    reply = call.replyTo (s.ids.upcoming k) ∧
      (s.perform call).2.committed.answers =
        s.committed.answers.insert (s.ids.upcoming k) answer
  undone : ∀ fault, (s.perform call).1 = .error fault →
    (s.perform call).2.committed = s.committed

theorem DrawsExactly.of_coherent {s : Session} (hs : s.Idle) (hcoherent : s.committed.Coherent)
    (hcall : call.answer? s.clock = some answer) : s.DrawsExactly call answer := by
  -- Where an identifier is fresh, the call comes to what is left of it after the answer is added.
  have hfound : s.committed.Expects answer.result → ∀ k < s.policy.maxAttempts,
      s.committed.FirstFresh s.ids k →
      ∃ t, s.committed.touchLeaf answer.result s.clock = .ok t ∧ s.committed.ResultsGrow t ∧
        s.outcomeOf call = call.finish s.clock (s.ids.upcoming k)
          (t.withAnswer (s.ids.upcoming k) answer) ∧
        (call.run s.policy s.clock s.ids s.committed).2 = s.ids.discard (k + 1) := by
    intro hexpects k hk hfirst
    obtain ⟨t, htouch, hgrow, hadd⟩ := Store.addAnswer_first hexpects hfirst hk s.clock
    have hrun := Call.run_answer hcall s.policy s.ids s.committed
    rw [hadd] at hrun
    exact ⟨t, htouch, hgrow, by rw [outcomeOf, hrun]; rfl, by rw [hrun]⟩
  constructor
  case missing =>
    intro hmissing
    exact perform_of_addAnswer_error hs hcall (Store.addAnswer_missing hmissing)
  case exhausted =>
    intro hexpects htaken
    exact perform_of_addAnswer_error hs hcall (Store.addAnswer_exhausted hexpects htaken)
  case drawn =>
    intro hexpects k hk hfirst
    obtain ⟨t, -, -, -, hdrawn⟩ := hfound hexpects k hk hfirst
    rw [ids_perform hs, hdrawn]
  case goesOn =>
    intro hexpects k hk hfirst
    obtain ⟨t, htouch, -, hout, -⟩ := hfound hexpects k hk hfirst
    exact ⟨t, htouch, by rw [perform_eq hs, hout]⟩
  case stored =>
    intro hexpects k hk hfirst reply hok
    obtain ⟨t, -, hgrow, hout, -⟩ := hfound hexpects k hk hfirst
    obtain ⟨rs, rfl⟩ := hgrow.frame
    obtain ⟨store, hstore, hcommitted⟩ := perform_ok hok
    rw [hout] at hstore
    have hungraded : s.committed.gradings.contains (s.ids.upcoming k) = false := by
      rw [← Bool.not_eq_true]
      exact fun hgraded =>
        Bool.false_ne_true (hfirst.fresh.symm.trans (hcoherent.gradings _ hgraded))
    obtain ⟨hreply, hkept⟩ := Call.finish_eq_ok hcall hstore hungraded
    exact ⟨hreply, by rw [hcommitted, hkept]; rfl⟩
  case undone =>
    intro fault hfail
    exact (perform_error hs hfail).2

/-- Every call that adds an answer draws exactly the identifiers that it has to, in every state that
a session reaches with any source of identifiers and any policy. -/
theorem answer_takes_firstFresh (ids : IdSource) (clock : Timestamp) (policy : RetryPolicy)
    (steps : List Step) {s : Session} (hs : s = (start ids clock policy).run steps)
    (hcall : call.answer? s.clock = some answer) :
    s.policy = policy ∧ s.DrawsExactly call answer := by
  subst hs
  exact ⟨policy_run ids clock policy steps,
    .of_coherent (idle_run (idle_start ids clock policy) steps)
      (Store.coherent_run ids clock policy steps) hcall⟩

/-- A user answers once, under the identifier 7. -/
def answeredOnce : List Step :=
  [ .call (.createGroup 1 ⟨"", .user, true, none, none, none⟩),
    .call (.createItem 10 .plain),
    .call (.createAttempt 1 none none),
    .call (.submitAnswer ⟨1, 0, 10⟩ 1 "x") ]

/-- The next answer finds 7 taken and gets 8; with nothing but 7 to try it is refused. -/
theorem answer_takes_firstFresh_secondTry :
    (((start (.ofList [7, 7, 8]) .zero .standard).run answeredOnce).perform
        (.recordGrade ⟨⟨1, 0, 10⟩, none, .full, .zero⟩)).2.ids.drawn = 3 ∧
      (((start (.ofList [7]) .zero .standard).run answeredOnce).perform
        (.submitAnswer ⟨1, 0, 10⟩ 1 "y")).1 = .error (.generatorExhausted 3) := by
  have hgrade : DrawsExactly _ (.recordGrade ⟨⟨1, 0, 10⟩, none, .full, .zero⟩) _ :=
    (answer_takes_firstFresh (.ofList [7, 7, 8]) .zero .standard answeredOnce rfl rfl).2
  have hsubmit : DrawsExactly _ (.submitAnswer ⟨1, 0, 10⟩ 1 "y") _ :=
    (answer_takes_firstFresh (.ofList [7]) .zero .standard answeredOnce rfl rfl).2
  refine ⟨?_, ?_⟩
  · rw [hgrade.drawn ⟨by decide +kernel, by decide +kernel⟩ 1 (by decide +kernel)
      ⟨by decide +kernel, by decide +kernel⟩]
    decide +kernel
  · rw [hsubmit.exhausted ⟨by decide +kernel, by decide +kernel⟩ (by decide +kernel)]
    decide +kernel

end Session

end Courseware
