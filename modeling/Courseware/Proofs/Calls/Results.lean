import Courseware.Proofs.Calls.Permissions

/-!
# What a successful call on results did

Each of these calls writes attempts, answers, gradings or corrections, leaves the result concerned
pending, and then settles all results. Trying again does not blur this: what a retried insertion
answers is what one of its attempts did.
-/

namespace Courseware

theorem retryFrom_eq_ok {σ α : Type} {attempt : Nat → σ → Except StoreFault α × σ} {limit : Nat}
    {left n : Nat} {s : σ} {a : α} (h : (retryFrom attempt limit left n s).1 = .ok a) :
    ∃ m t, (attempt m t).1 = .ok a := by
  induction left generalizing n s with
  | zero => simp [retryFrom] at h
  | succ left ih =>
    rw [retryFrom] at h
    split at h
    · exact ih h
    · exact ⟨n, s, h⟩

theorem RetryPolicy.retry_eq_ok {σ α : Type} {p : RetryPolicy}
    {attempt : Nat → σ → Except StoreFault α × σ} {s : σ} {a : α}
    (h : (p.retry attempt s).1 = .ok a) : ∃ m t, (attempt m t).1 = .ok a :=
  retryFrom_eq_ok h

namespace Store

theorem insertAttempt_eq_ok {s s' : Store} {participant : GroupId} {id : AttemptId}
    {attempt : Attempt} (h : s.insertAttempt participant id attempt = .ok s') :
    s.attempts.contains (participant, id) = false ∧ s.groups.contains participant = true ∧
      attempt.rootItem.all s.items.contains = true ∧
      s' = { s with attempts := s.attempts.insert (participant, id) attempt } := by
  rw [insertAttempt] at h
  split at h
  · simp at h
  · rename_i hno
    obtain ⟨_, hdemand, h⟩ := bind_eq_ok.1 h
    obtain ⟨hgroup, hitem⟩ := Bool.and_eq_true_iff.1 (demand_eq_ok.1 hdemand)
    exact ⟨by simpa using hno, hgroup, hitem, (Except.ok.inj h).symm⟩

/-- What a retried attempt comes to is an attempt under the next number. -/
theorem insertAttempt_of_retry {s s' : Store} {policy : RetryPolicy} {participant : GroupId}
    {attempt : Attempt} {id : AttemptId}
    (h : (policy.retry (fun _ () =>
      let id := s.nextAttemptId participant
      ((s.insertAttempt participant id attempt).map (id, ·), ())) ()).1 = .ok (id, s')) :
    id = s.nextAttemptId participant ∧ s.insertAttempt participant id attempt = .ok s' := by
  obtain ⟨_, _, hinsert⟩ := RetryPolicy.retry_eq_ok h
  simp only at hinsert
  cases hone : s.insertAttempt participant (s.nextAttemptId participant) attempt with
  | error fault => simp [hone, Except.map] at hinsert
  | ok t =>
    simp only [hone, Except.map, Except.ok.injEq, Prod.mk.injEq] at hinsert
    obtain ⟨rfl, rfl⟩ := hinsert
    exact ⟨rfl, hone⟩

theorem startAttempt_eq_ok {s s' : Store} {policy : RetryPolicy} {participant : GroupId}
    {rootItem : Option ItemId} {parent : Option AttemptId} {now : Timestamp} {id : AttemptId}
    (h : s.startAttempt policy participant rootItem parent now = .ok (id, s')) :
    id = s.nextAttemptId participant ∧ ∃ t,
      s.insertAttempt participant id ⟨rootItem, parent, now⟩ = .ok t ∧
      ((rootItem = none ∧ s' = t) ∨
        ∃ item created u outcome, rootItem = some item ∧
          t.insertResult ⟨participant, id, item⟩ .toBePropagated now = .ok (created, u) ∧
          u.propagateResults now = .ok (outcome, s')) := by
  rw [startAttempt] at h
  obtain ⟨_, -, h⟩ := bind_eq_ok.1 h
  obtain ⟨_, -, h⟩ := bind_eq_ok.1 h
  obtain ⟨⟨id', t⟩, hinsert, h⟩ := bind_eq_ok.1 h
  obtain ⟨hnext, hattempt⟩ := insertAttempt_of_retry (Fault.lift_eq_ok.1 hinsert)
  cases rootItem with
  | none =>
    simp only [pure, Except.pure, Except.ok.injEq, Prod.mk.injEq] at h
    obtain ⟨rfl, rfl⟩ := h
    exact ⟨hnext, t, hattempt, Or.inl ⟨rfl, rfl⟩⟩
  | some item =>
    obtain ⟨⟨created, u⟩, hresult, h⟩ := bind_eq_ok.1 h
    obtain ⟨⟨outcome, v⟩, hsettle, h⟩ := bind_eq_ok.1 h
    simp only [pure, Except.pure, Except.ok.injEq, Prod.mk.injEq] at h
    obtain ⟨rfl, rfl⟩ := h
    exact ⟨hnext, t, hattempt, Or.inr ⟨item, created, u, outcome, rfl, Fault.lift_eq_ok.1 hresult,
      hsettle⟩⟩

theorem touchLeaf_eq_ok {s s' : Store} {key : ResultKey} {now : Timestamp}
    (h : s.touchLeaf key now = .ok s') :
    ∃ created t, s.insertResult key .toBeRecomputed now = .ok (created, t) ∧
      s' = if created then t else t.setProgress key .toBeRecomputed := by
  rw [touchLeaf] at h
  obtain ⟨⟨created, t⟩, hinsert, h⟩ := bind_eq_ok.1 h
  exact ⟨created, t, Fault.lift_eq_ok.1 hinsert, (Except.ok.inj h).symm⟩

theorem resultsGrow_touchLeaf {s s' : Store} {key : ResultKey} {now : Timestamp}
    (h : s.touchLeaf key now = .ok s') : s.ResultsGrow s' := by
  obtain ⟨created, t, hinsert, rfl⟩ := touchLeaf_eq_ok h
  split
  · exact resultsGrow_insertResult hinsert
  · exact (resultsGrow_insertResult hinsert).trans (resultsGrow_setProgress t key _)

theorem expectAnswer_eq_ok {s s' : Store} {key : ResultKey} {now : Timestamp}
    (h : s.expectAnswer key now = .ok s') : s.touchLeaf key now = .ok s' := by
  rw [expectAnswer] at h
  split at h
  · obtain ⟨_, hfault, -⟩ := bind_eq_ok.1 h
    simp at hfault
  · obtain ⟨_, -, h⟩ := bind_eq_ok.1 h
    exact h

theorem insertAnswer_eq_ok {s s' : Store} {id : AnswerId} {answer : Answer}
    (h : s.insertAnswer id answer = .ok s') :
    s.answers.contains id = false ∧ s.results.contains answer.result = true ∧
      s' = { s with answers := s.answers.insert id answer } := by
  rw [insertAnswer] at h
  split at h
  · simp at h
  · rename_i hno
    obtain ⟨_, hdemand, h⟩ := bind_eq_ok.1 h
    exact ⟨by simpa using hno, demand_eq_ok.1 hdemand, (Except.ok.inj h).symm⟩

theorem addAnswer_eq_ok {s s' : Store} {policy : RetryPolicy} {ids : IdSource} {answer : Answer}
    {now : Timestamp} {id : AnswerId}
    (h : (s.addAnswer policy ids answer now).1 = .ok (id, s')) :
    ∃ t, s.touchLeaf answer.result now = .ok t ∧ t.insertAnswer id answer = .ok s' := by
  rw [addAnswer] at h
  split at h
  · simp at h
  · rename_i t hexpect
    refine ⟨t, expectAnswer_eq_ok hexpect, ?_⟩
    obtain ⟨_, ids', hinsert⟩ := RetryPolicy.retry_eq_ok (Fault.lift_eq_ok.1 h)
    simp only at hinsert
    cases hone : t.insertAnswer ids'.draw.1 answer with
    | error fault => simp [hone, Except.map] at hinsert
    | ok u =>
      simp only [hone, Except.map, Except.ok.injEq, Prod.mk.injEq] at hinsert
      obtain ⟨rfl, rfl⟩ := hinsert
      exact hone

theorem insertGrading_eq_ok {s s' : Store} {answer : AnswerId} {grading : Grading}
    (h : s.insertGrading answer grading = .ok s') :
    s.answers.contains answer = true ∧
      ∃ score, grading.score.stored? = some score ∧
        s' = { s with gradings := s.gradings.insert answer { grading with score } } := by
  rw [insertGrading] at h
  split at h
  · simp at h
  · rename_i score hscore
    split at h
    · simp at h
    · obtain ⟨_, hdemand, h⟩ := bind_eq_ok.1 h
      exact ⟨demand_eq_ok.1 hdemand, score, hscore, (Except.ok.inj h).symm⟩

theorem gradeAnswer_eq_ok {s s' : Store} {id : AnswerId} {event : GradingEvent} {now : Timestamp}
    {status : GradeStatus} (h : s.gradeAnswer id event now = .ok (status, s')) :
    (s.gradings.contains id = true ∧ s' = s) ∨
      (s.gradings.contains id = false ∧
        ∃ t u outcome, s.insertGrading id ⟨event.score, event.gradedAt⟩ = .ok t ∧
          t.touchLeaf event.result now = .ok u ∧ u.propagateResults now = .ok (outcome, s')) := by
  rw [gradeAnswer] at h
  split at h
  · rename_i hgraded
    simp only [Except.ok.injEq, Prod.mk.injEq] at h
    exact Or.inl ⟨hgraded, h.2.symm⟩
  · rename_i hnew
    obtain ⟨t, hinsert, h⟩ := bind_eq_ok.1 h
    obtain ⟨u, htouch, h⟩ := bind_eq_ok.1 h
    obtain ⟨⟨outcome, v⟩, hsettle, h⟩ := bind_eq_ok.1 h
    simp only [pure, Except.pure, Except.ok.injEq, Prod.mk.injEq] at h
    obtain ⟨-, rfl⟩ := h
    exact Or.inr ⟨by simpa using hnew, t, u, outcome, Fault.lift_eq_ok.1 hinsert, htouch, hsettle⟩

/-- A grading that names an answer is one of that answer, which is to the same result. -/
theorem recordGrade_named {s s' : Store} {policy : RetryPolicy} {ids : IdSource}
    {event : GradingEvent} {now : Timestamp} {status : GradeStatus} {id : AnswerId}
    (hnamed : event.answer = some id)
    (h : (s.recordGrade policy ids event now).1 = .ok (status, s')) :
    ∃ answer, s.answers.get? id = some answer ∧ answer.result = event.result ∧
      s.gradeAnswer id event now = .ok (status, s') := by
  rw [recordGrade, hnamed] at h
  dsimp only at h
  split at h
  · simp at h
  · rename_i answer hanswer
    split at h
    · simp at h
    · rename_i hresult
      exact ⟨answer, hanswer, not_not.1 hresult, h⟩

theorem recordGrade_eq_ok {s s' : Store} {policy : RetryPolicy} {ids : IdSource}
    {event : GradingEvent} {now : Timestamp} {status : GradeStatus}
    (h : (s.recordGrade policy ids event now).1 = .ok (status, s')) :
    (∃ id answer, s.answers.get? id = some answer ∧ answer.result = event.result ∧
        s.gradeAnswer id event now = .ok (status, s')) ∨
      ∃ id t, (s.addAnswer policy ids ⟨event.result, event.result.participant, "", now⟩ now).1 =
          .ok (id, t) ∧ t.gradeAnswer id event now = .ok (status, s') := by
  cases hnamed : event.answer with
  | some id => exact Or.inl ⟨id, recordGrade_named hnamed h⟩
  | none =>
    rw [recordGrade, hnamed] at h
    obtain ⟨⟨id, t⟩, hadd, h⟩ := bind_eq_ok.1 h
    exact Or.inr ⟨id, t, hadd, h⟩

theorem submitAnswer_eq_ok {s s' : Store} {policy : RetryPolicy} {ids : IdSource}
    {key : ResultKey} {author : GroupId} {text : String} {now : Timestamp} {id : AnswerId}
    (h : (s.submitAnswer policy ids key author text now).1 = .ok (id, s')) :
    ∃ t outcome, (s.addAnswer policy ids ⟨key, author, text, now⟩ now).1 = .ok (id, t) ∧
      t.propagateResults now = .ok (outcome, s') := by
  rw [submitAnswer] at h
  obtain ⟨⟨id', t⟩, hadd, h⟩ := bind_eq_ok.1 h
  obtain ⟨⟨outcome, u⟩, hsettle, h⟩ := bind_eq_ok.1 h
  simp only [pure, Except.pure, Except.ok.injEq, Prod.mk.injEq] at h
  obtain ⟨rfl, rfl⟩ := h
  exact ⟨t, outcome, hadd, hsettle⟩

theorem changeEditRule_eq_ok {s s' : Store} {key : ResultKey}
    {rule : Option (EditRule × Score)} {now : Timestamp}
    (h : s.changeEditRule key rule now = .ok s') :
    s.results.contains key = true ∧
      ∃ outcome, ((s.setEditRule key rule).2.setProgress key .toBeRecomputed).propagateResults now =
        .ok (outcome, s') := by
  rw [changeEditRule] at h
  split at h
  · simp at h
  · rename_i t hset
    rw [setEditRule, Prod.mk.injEq] at hset
    obtain ⟨⟨outcome, u⟩, hsettle, h⟩ := bind_eq_ok.1 h
    simp only [pure, Except.pure, Except.ok.injEq] at h
    obtain rfl := h
    refine ⟨hset.1, outcome, ?_⟩
    rw [setEditRule, hset.2]
    exact hsettle

theorem resultsGrow_setEditRule (s : Store) (key : ResultKey) (rule : Option (EditRule × Score)) :
    s.ResultsGrow (s.setEditRule key rule).2 :=
  .of_contains fun key' => Table.contains_modify _ key key' _

/-! ### What calls on results leave alone -/

/-- Nothing but attempts, results, answers and gradings differs. -/
def OnlyWork (s t : Store) : Prop :=
  ∃ ats rs as gs, t = { s with attempts := ats, results := rs, answers := as, gradings := gs }

theorem OnlyWork.refl (s : Store) : s.OnlyWork s :=
  ⟨s.attempts, s.results, s.answers, s.gradings, rfl⟩

theorem OnlyWork.trans {s t u : Store} (hst : s.OnlyWork t) (htu : t.OnlyWork u) :
    s.OnlyWork u := by
  obtain ⟨_, _, _, _, rfl⟩ := hst
  obtain ⟨ats, rs, as, gs, rfl⟩ := htu
  exact ⟨ats, rs, as, gs, rfl⟩

theorem ResultsGrow.onlyWork {s t : Store} (h : s.ResultsGrow t) : s.OnlyWork t := by
  obtain ⟨rs, rfl⟩ := h.frame
  exact ⟨s.attempts, rs, s.answers, s.gradings, rfl⟩

theorem onlyWork_addAnswer {s s' : Store} {policy : RetryPolicy} {ids : IdSource}
    {answer : Answer} {now : Timestamp} {id : AnswerId}
    (h : (s.addAnswer policy ids answer now).1 = .ok (id, s')) : s.OnlyWork s' := by
  obtain ⟨t, htouch, hinsert⟩ := addAnswer_eq_ok h
  obtain ⟨-, -, rfl⟩ := insertAnswer_eq_ok hinsert
  exact (resultsGrow_touchLeaf htouch).onlyWork.trans ⟨_, _, _, _, rfl⟩

theorem onlyWork_gradeAnswer {s s' : Store} {id : AnswerId} {event : GradingEvent}
    {now : Timestamp} {status : GradeStatus}
    (h : s.gradeAnswer id event now = .ok (status, s')) : s.OnlyWork s' := by
  rcases gradeAnswer_eq_ok h with ⟨-, rfl⟩ | ⟨-, t, u, outcome, hinsert, htouch, hsettle⟩
  · exact .refl s'
  · have ht : s.OnlyWork t := by
      obtain ⟨-, score, -, rfl⟩ := insertGrading_eq_ok hinsert
      exact ⟨_, _, _, _, rfl⟩
    exact ht.trans ((resultsGrow_touchLeaf htouch).onlyWork.trans
      (resultsGrow_propagateResults hsettle).onlyWork)

/-- What a successful call on results did: it started an attempt, added an answer, recorded a
grading or a correction, and settled the results if one was left pending. -/
inductive Worked (now : Timestamp) (s s' : Store) : Call → Prop where
  | start {participant : GroupId} {rootItem : Option ItemId} {parent : Option AttemptId}
      {id : AttemptId} (hinsert : s.insertAttempt participant id ⟨rootItem, parent, now⟩ = .ok s') :
      Worked now s s' (.createAttempt participant rootItem parent)
  | startOn {participant : GroupId} {item : ItemId} {parent : Option AttemptId} {id : AttemptId}
      {created : Bool} {t u : Store} {outcome : ResultOutcome}
      (hinsert : s.insertAttempt participant id ⟨some item, parent, now⟩ = .ok t)
      (hresult : t.insertResult ⟨participant, id, item⟩ .toBePropagated now = .ok (created, u))
      (hsettle : u.propagateResults now = .ok (outcome, s')) :
      Worked now s s' (.createAttempt participant (some item) parent)
  | answer {policy : RetryPolicy} {ids : IdSource} {key : ResultKey} {author : GroupId}
      {text : String} {id : AnswerId} {t : Store} {outcome : ResultOutcome}
      (hadd : (s.addAnswer policy ids ⟨key, author, text, now⟩ now).1 = .ok (id, t))
      (hsettle : t.propagateResults now = .ok (outcome, s')) :
      Worked now s s' (.submitAnswer key author text)
  | grade {id : AnswerId} {answer : Answer} {event : GradingEvent} {status : GradeStatus}
      (hanswer : s.answers.get? id = some answer) (hresult : answer.result = event.result)
      (hgrade : s.gradeAnswer id event now = .ok (status, s')) :
      Worked now s s' (.recordGrade event)
  | gradeNew {policy : RetryPolicy} {ids : IdSource} {id : AnswerId} {t : Store}
      {event : GradingEvent} {status : GradeStatus}
      (hadd : (s.addAnswer policy ids ⟨event.result, event.result.participant, "", now⟩ now).1 =
        .ok (id, t))
      (hgrade : t.gradeAnswer id event now = .ok (status, s')) :
      Worked now s s' (.recordGrade event)
  | correct {key : ResultKey} {rule : Option (EditRule × Score)} {outcome : ResultOutcome}
      (hsettle : ((s.setEditRule key rule).2.setProgress key .toBeRecomputed).propagateResults now =
        .ok (outcome, s')) : Worked now s s' (.setEditRule key rule)
  | settle {outcome : ResultOutcome} (hsettle : s.propagateResults now = .ok (outcome, s')) :
      Worked now s s' .propagateResults

theorem onlyWork_insertAttempt {s s' : Store} {participant : GroupId} {id : AttemptId}
    {attempt : Attempt} (h : s.insertAttempt participant id attempt = .ok s') : s.OnlyWork s' := by
  obtain ⟨-, -, -, rfl⟩ := insertAttempt_eq_ok h
  exact ⟨_, _, _, _, rfl⟩

theorem Worked.onlyWork {now : Timestamp} {s s' : Store} {call : Call} (h : Worked now s s' call) :
    s.OnlyWork s' := by
  cases h with
  | start hinsert => exact onlyWork_insertAttempt hinsert
  | startOn hinsert hresult hsettle =>
    exact (onlyWork_insertAttempt hinsert).trans ((resultsGrow_insertResult hresult).onlyWork.trans
      (resultsGrow_propagateResults hsettle).onlyWork)
  | answer hadd hsettle =>
    exact (onlyWork_addAnswer hadd).trans (resultsGrow_propagateResults hsettle).onlyWork
  | grade _ _ hgrade => exact onlyWork_gradeAnswer hgrade
  | gradeNew hadd hgrade => exact (onlyWork_addAnswer hadd).trans (onlyWork_gradeAnswer hgrade)
  | correct hsettle =>
    exact ((resultsGrow_setEditRule s _ _).trans
      ((resultsGrow_setProgress _ _ _).trans (resultsGrow_propagateResults hsettle))).onlyWork
  | settle hsettle => exact (resultsGrow_propagateResults hsettle).onlyWork

end Store

end Courseware
