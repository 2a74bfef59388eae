import Courseware.Proofs.Integrity

/-!
# Gradings that are delivered again

The first grading of an answer that is accepted stays with it for as long as the answer is stored:
answers go only with their participant, and take their gradings with them. A later grading of the same
answer is answered without a write, so it makes no difference to a run whether the gradings of answers
that are graded by then are delivered or not (`gradingsCountOnce_run`).
-/

namespace Courseware

namespace Store

variable {s s' t : Store} {now : Timestamp} {policy : RetryPolicy} {ids : IdSource} {id : AnswerId}
  {key : ResultKey} {grading : Grading}

/-- An answer to a result is stored, with this grading. -/
structure Graded (s : Store) (id : AnswerId) (key : ResultKey) (grading : Grading) : Prop where
  answer : ∃ answer, s.answers.get? id = some answer ∧ answer.result = key
  grading : s.gradings.get? id = some grading

/-! ### What keeps a grading -/

theorem Graded.congr (h : s.Graded id key grading) (hanswers : t.answers = s.answers)
    (hgradings : t.gradings = s.gradings) : t.Graded id key grading := by
  obtain ⟨⟨answer, hanswer, hresult⟩, hgrading⟩ := h
  exact ⟨⟨answer, hanswers ▸ hanswer, hresult⟩, hgradings ▸ hgrading⟩

theorem Graded.resultsGrow (h : s.Graded id key grading) (hgrow : s.ResultsGrow t) :
    t.Graded id key grading := by
  obtain ⟨rs, rfl⟩ := hgrow.frame
  exact h.congr rfl rfl

theorem Graded.workKept (h : s.Graded id key grading) (hkept : s.WorkKept t) :
    t.Graded id key grading :=
  h.congr hkept.answers hkept.gradings

/-- A new answer is not one that is graded. -/
theorem Graded.addAnswer (h : s.Graded id key grading) {answer : Answer} {new : AnswerId}
    (hadd : (s.addAnswer policy ids answer now).1 = .ok (new, t)) : t.Graded id key grading := by
  obtain ⟨u, htouch, hinsert⟩ := addAnswer_eq_ok hadd
  obtain ⟨⟨old, hold, hresult⟩, hgrading⟩ := h.resultsGrow (resultsGrow_touchLeaf htouch)
  obtain ⟨hnew, -, rfl⟩ := insertAnswer_eq_ok hinsert
  refine ⟨⟨old, ?_, hresult⟩, hgrading⟩
  rw [Table.get?_insert_of_contains answer hnew (Table.contains_of_get? hold), hold]

/-- Only an answer that has no grading gets one. -/
theorem Graded.gradeAnswer (h : s.Graded id key grading) {other : AnswerId} {event : GradingEvent}
    {status : GradeStatus} (hgrade : s.gradeAnswer other event now = .ok (status, s')) :
    s'.Graded id key grading := by
  rcases gradeAnswer_eq_ok hgrade with ⟨-, rfl⟩ | ⟨hnew, t, u, outcome, hinsert, htouch, hsettle⟩
  · exact h
  · have ht : t.Graded id key grading := by
      obtain ⟨-, score, -, rfl⟩ := insertGrading_eq_ok hinsert
      refine ⟨h.answer, ?_⟩
      rw [Table.get?_insert_of_contains _ hnew (Table.contains_of_get? h.grading), h.grading]
    exact (ht.resultsGrow (resultsGrow_touchLeaf htouch)).resultsGrow
      (resultsGrow_propagateResults hsettle)

theorem Graded.insertAttempt (h : s.Graded id key grading) {participant : GroupId}
    {number : AttemptId} {attempt : Attempt}
    (hinsert : s.insertAttempt participant number attempt = .ok t) : t.Graded id key grading := by
  obtain ⟨-, -, -, rfl⟩ := insertAttempt_eq_ok hinsert
  exact h.congr rfl rfl

theorem Graded.work (h : s.Graded id key grading) {call : Call} (hwork : Worked now s s' call) :
    s'.Graded id key grading := by
  cases hwork with
  | start hinsert => exact h.insertAttempt hinsert
  | startOn hinsert hresult hsettle =>
    exact ((h.insertAttempt hinsert).resultsGrow (resultsGrow_insertResult hresult)).resultsGrow
      (resultsGrow_propagateResults hsettle)
  | answer hadd hsettle => exact (h.addAnswer hadd).resultsGrow (resultsGrow_propagateResults hsettle)
  | grade _ _ hgrade => exact h.gradeAnswer hgrade
  | gradeNew hadd hgrade => exact (h.addAnswer hadd).gradeAnswer hgrade
  | correct hsettle =>
    exact h.resultsGrow ((resultsGrow_setEditRule s _ _).trans
      ((resultsGrow_setProgress _ _ _).trans (resultsGrow_propagateResults hsettle)))
  | settle hsettle => exact h.resultsGrow (resultsGrow_propagateResults hsettle)

/-- An answer that is not dropped with a group keeps its grading. -/
theorem Graded.dropGroup (h : s.answers.contains id = true → s.Graded id key grading)
    (group : GroupId) (hkept : (s.dropGroup group).answers.contains id = true) :
    (s.dropGroup group).Graded id key grading := by
  obtain ⟨answer, hanswer, hother⟩ := Table.contains_filter_iff.1 hkept
  obtain ⟨⟨answer', hanswer', hresult⟩, hgrading⟩ := h (Table.contains_of_get? hanswer)
  obtain rfl : answer = answer' := Option.some.inj (hanswer.symm.trans hanswer')
  refine ⟨⟨answer, Table.get?_filter_eq_some.2 ⟨hanswer, hother⟩, hresult⟩,
    Table.get?_filter_eq_some.2 ⟨hgrading, ?_⟩⟩
  rw [hanswer, Option.all_some]
  exact hother

theorem Graded.deleteRelation (h : s.Graded id key grading) {parent child : GroupId}
    {allowOrphans : Bool} {deletion : RelationDeletion}
    (hdelete : s.deleteRelation parent child allowOrphans = .ok (deletion, t))
    (hkept : t.answers.contains id = true) : t.Graded id key grading := by
  rcases deleteRelation_eq_ok hdelete with ⟨-, -, rfl⟩ | ⟨hremoved, -⟩ | ⟨-, -, rfl, -⟩
  · exact h
  · exact h.workKept (workKept_reclosed (reclosed_deleteMembership hremoved))
  · have hleft := deleteGroups_keeps
      (P := fun u => u.answers.contains id = true → u.Graded id key grading)
      (fun _ group hu => Graded.dropGroup hu group)
      (fun _ => h.workKept (workKept_reclosed (@reclosed_deleteMembership s _ parent child _ rfl)))
      deletion.deletedGroups
    exact (hleft hkept).congr rfl rfl

theorem Graded.aside (h : s.Graded id key grading) (haside : Aside now s t)
    (hkept : t.answers.contains id = true) : t.Graded id key grading := by
  induction haside with
  | write _ hwork => exact h.workKept hwork
  | delete hdelete => exact h.deleteRelation hdelete hkept
  | mark _ p progress ih => exact (ih hkept).resultsGrow (resultsGrow_markResults _ p progress)
  | settle _ hsettles ih =>
    obtain ⟨gen, rs, rfl⟩ := hsettles.frame
    exact (ih hkept).congr rfl rfl

theorem Graded.call (hs : s.Coherent) (h : s.Graded id key grading) {call : Call} {reply : Reply}
    (hrun : (Call.run policy now call ids s).1 = .ok (reply, s'))
    (hkept : s'.answers.contains id = true) : s'.Graded id key grading := by
  rcases (Effect.of_run hrun).work_or_aside hs with hwork | haside
  · exact h.work hwork
  · exact h.aside haside hkept

/-! ### What a grading event does -/

theorem gradeAnswer_recorded {event : GradingEvent}
    (h : s.gradeAnswer id event now = .ok (.recorded, s')) (hanswer : ∃ answer,
      s.answers.get? id = some answer ∧ answer.result = event.result) :
    s.gradings.contains id = false ∧ ∃ score, event.score.stored? = some score ∧
      s'.Graded id event.result ⟨score, event.gradedAt⟩ := by
  rcases gradeAnswer_eq_ok h with ⟨hgraded, -⟩ | ⟨hnew, t, u, outcome, hinsert, htouch, hsettle⟩
  · rw [Store.gradeAnswer, if_pos hgraded] at h
    simp at h
  · obtain ⟨-, score, hscore, rfl⟩ := insertGrading_eq_ok hinsert
    refine ⟨hnew, score, hscore, ?_⟩
    have hgraded : Graded { s with gradings := s.gradings.insert id ⟨score, event.gradedAt⟩ } id
        event.result ⟨score, event.gradedAt⟩ :=
      ⟨hanswer, by rw [Table.get?_insert, if_pos rfl]⟩
    exact (hgraded.resultsGrow (resultsGrow_touchLeaf htouch)).resultsGrow
      (resultsGrow_propagateResults hsettle)

/-- A grading that is accepted is the first of its answer, and stays with it. -/
theorem recordGrade_recorded {event : GradingEvent}
    (h : (s.recordGrade policy ids event now).1 = .ok (.recorded, s')) :
    ∃ id score, (∀ named, event.answer = some named → named = id) ∧
      s.gradings.contains id = false ∧ event.score.stored? = some score ∧
      s'.Graded id event.result ⟨score, event.gradedAt⟩ := by
  cases hnamed : event.answer with
  | some id =>
    obtain ⟨answer, hanswer, hresult, hgrade⟩ := recordGrade_named hnamed h
    obtain ⟨hnew, score, hscore, hgraded⟩ := gradeAnswer_recorded hgrade ⟨answer, hanswer, hresult⟩
    exact ⟨id, score, fun named heq => (Option.some.inj heq).symm, hnew, hscore, hgraded⟩
  | none =>
    rw [recordGrade, hnamed] at h
    obtain ⟨⟨id, t⟩, hadd, hgrade⟩ := bind_eq_ok.1 h
    obtain ⟨u, htouch, hinsert⟩ := addAnswer_eq_ok hadd
    obtain ⟨-, -, rfl⟩ := insertAnswer_eq_ok hinsert
    obtain ⟨rs, rfl⟩ := (resultsGrow_touchLeaf htouch).frame
    obtain ⟨hnew, score, hscore, hgraded⟩ :=
      gradeAnswer_recorded hgrade ⟨_, Table.get?_insert_self _ _ _, rfl⟩
    exact ⟨id, score, fun _ heq => by simp at heq, hnew, hscore, hgraded⟩

/-- A grading of an answer that has one is answered at once. -/
theorem Graded.recordGrade_again (h : s.Graded id key grading) {event : GradingEvent}
    (hnamed : event.answer = some id) :
    s.recordGrade policy ids event now =
      (if event.result = key then .ok (.replayed, s)
        else .error (.unprocessable (.foreignAnswer id)), ids) := by
  obtain ⟨⟨answer, hanswer, rfl⟩, hgrading⟩ := h
  rw [recordGrade, hnamed]
  dsimp only
  rw [hanswer]
  dsimp only
  split
  · rename_i hne
    rw [if_neg fun heq => hne heq.symm]
  · rename_i heq
    rw [if_pos (not_not.1 heq).symm, Store.gradeAnswer, if_pos (Table.contains_of_get? hgrading)]

end Store

/-! ### Runs -/

namespace Session

variable {s : Session} {id : AnswerId} {key : ResultKey} {grading : Grading}

theorem perform_of_graded (hs : s.Idle) (h : s.committed.Graded id key grading)
    {event : GradingEvent} (hnamed : event.answer = some id) :
    s.perform (.recordGrade event) =
      (if event.result = key then .ok (.grade .replayed)
        else .error (.unprocessable (.foreignAnswer id)), s) := by
  have hrun : (Call.recordGrade event).run s.policy s.clock s.ids s.committed =
      (Reply.onSuccess .grade (if event.result = key then .ok (.replayed, s.committed)
        else .error (.unprocessable (.foreignAnswer id))), s.ids) := by
    rw [Call.run, h.recordGrade_again hnamed]
  rw [perform_eq hs, outcomeOf, hrun]
  split
  · rw [Reply.onSuccess, Except.map, settle, hrun]
    rfl
  · rw [Reply.onSuccess, Except.map, settle, hrun]
    rfl

/-- Whether a step is a grading of an answer that is graded. -/
def repeatsGrading (s : Session) : Step → Bool
  | .call (.recordGrade event) => event.answer.any s.committed.gradings.contains
  | _ => false

theorem step_of_repeatsGrading (hs : s.Idle) (hcoherent : s.committed.Coherent) {step : Step}
    (h : s.repeatsGrading step = true) : s.step step = s := by
  unfold repeatsGrading at h
  split at h
  · rename_i event
    obtain ⟨id, hnamed, hgraded⟩ := (Option.any_eq_true _ _).1 h
    obtain ⟨grading, hgrading⟩ := Table.contains_iff.1 hgraded
    obtain ⟨answer, hanswer⟩ := Table.contains_iff.1 (hcoherent.gradings id hgraded)
    rw [Session.step, perform_of_graded hs ⟨⟨answer, hanswer, rfl⟩, hgrading⟩ hnamed]
  · simp at h

/-- The steps of a run without the gradings of answers that are graded by then. -/
def withoutRepeats : Session → List Step → List Step
  | _, [] => []
  | s, step :: rest =>
    if s.repeatsGrading step then (s.step step).withoutRepeats rest
    else step :: (s.step step).withoutRepeats rest

theorem run_withoutRepeats (hs : s.Idle) (hcoherent : s.committed.Coherent) (steps : List Step) :
    s.run (s.withoutRepeats steps) = s.run steps ∧
      s.Along (fun t step => t.repeatsGrading step = false) (s.withoutRepeats steps) := by
  induction steps generalizing s with
  | nil => exact ⟨rfl, trivial⟩
  | cons step rest ih =>
    obtain ⟨hrest, hfirst⟩ := ih (idle_step hs step) (coherent_step hs hcoherent step)
    rw [withoutRepeats]
    split
    · rename_i hrepeats
      have hsame := step_of_repeatsGrading hs hcoherent hrepeats
      rw [hsame] at hrest hfirst ⊢
      refine ⟨?_, hfirst⟩
      rw [hrest, run, run, List.foldl_cons, hsame]
    · rename_i hnew
      refine ⟨?_, by simpa using hnew, hfirst⟩
      rw [run, List.foldl_cons, ← run, hrest, run, run, List.foldl_cons]

theorem graded_run (hs : s.Idle) (hcoherent : s.committed.Coherent)
    (h : s.committed.Graded id key grading) {steps : List Step}
    (hkept : s.Along (fun t step => (t.step step).committed.answers.contains id = true) steps) :
    (s.run steps).committed.Graded id key grading := by
  refine (run_induction (I := fun t => t.committed.Coherent ∧ t.committed.Graded id key grading) ?_ hs
    ⟨hcoherent, h⟩ hkept).2
  intro t step ht hI hstored
  refine ⟨coherent_step ht hI.1 step, ?_⟩
  rcases committed_step ht step with heq | ⟨call, reply, -, hrun⟩
  · exact heq ▸ hI.2
  · exact hI.2.call hI.1 hrun hstored

/-- Each answer is graded at most once from here on: a grading that is accepted is the first of its
answer and is stored with it; it stays as long as the answer is there, while each later grading of that
answer to the same result is answered and leaves the session as it was; and what happens comes to the
same without the gradings of answers that are graded by then. -/
structure GradingsCountOnce (s : Session) : Prop where
  first : ∀ event, (s.perform (.recordGrade event)).1 = .ok (.grade .recorded) →
    ∃ id score, (∀ named, event.answer = some named → named = id) ∧
      s.committed.gradings.contains id = false ∧ event.score.stored? = some score ∧
      (s.perform (.recordGrade event)).2.committed.Graded id event.result ⟨score, event.gradedAt⟩
  stays : ∀ id key grading, s.committed.Graded id key grading → ∀ steps,
    s.Along (fun t step => (t.step step).committed.answers.contains id = true) steps →
    (s.run steps).committed.Graded id key grading
  replayed : ∀ id key grading, s.committed.Graded id key grading → ∀ event,
    event.answer = some id → event.result = key →
    s.perform (.recordGrade event) = (.ok (.grade .replayed), s)
  repeats : ∀ steps, s.run (s.withoutRepeats steps) = s.run steps ∧
    s.Along (fun t step => t.repeatsGrading step = false) (s.withoutRepeats steps)

theorem gradingsCountOnce_run (ids : IdSource) (clock : Timestamp) (policy : RetryPolicy)
    (steps : List Step) : ((start ids clock policy).run steps).GradingsCountOnce := by
  have hs := idle_run (idle_start ids clock policy) steps
  have hcoherent := Store.coherent_run ids clock policy steps
  refine ⟨fun event hok => ?_, fun _ _ _ hgraded _ hkept => graded_run hs hcoherent hgraded hkept,
    fun id key grading hgraded event hnamed hresult => ?_, run_withoutRepeats hs hcoherent⟩
  · obtain ⟨store, hout, hcommitted⟩ := perform_ok hok
    obtain ⟨status, hrecord, hstatus⟩ := Reply.onSuccess_eq_ok.1 hout
    obtain rfl := Reply.grade.inj hstatus
    rw [hcommitted]
    exact Store.recordGrade_recorded hrecord
  · rw [perform_of_graded hs hgraded hnamed, if_pos hresult]

/-- A user gets full score for an answer. -/
def gradedOnce : List Step :=
  [ .call (.createGroup 1 ⟨"", .user, true, none, none, none⟩),
    .call (.createItem 10 .plain),
    .call (.createAttempt 1 none none),
    .call (.submitAnswer ⟨1, 0, 10⟩ 1 "x"),
    .call (.recordGrade ⟨⟨1, 0, 10⟩, some 7, .full, .zero⟩) ]

/-- The grading comes again with another score, before and after a correction. -/
def redelivered : List Step :=
  [ .setClock ⟨5⟩,
    .call (.recordGrade ⟨⟨1, 0, 10⟩, some 7, .zero, ⟨5⟩⟩),
    .call (.setEditRule ⟨1, 0, 10⟩ (some (.set, .zero))),
    .call (.recordGrade ⟨⟨1, 0, 10⟩, some 7, .zero, ⟨5⟩⟩) ]

theorem gradingsCountOnce_redelivered :
    (((start (.ofList [7]) .zero .standard).run gradedOnce).run redelivered).committed.Graded 7
        ⟨1, 0, 10⟩ ⟨.full, .zero⟩ ∧
      ((start (.ofList [7]) .zero .standard).run gradedOnce).run redelivered =
        ((start (.ofList [7]) .zero .standard).run gradedOnce).run
          [.setClock ⟨5⟩, .call (.setEditRule ⟨1, 0, 10⟩ (some (.set, .zero)))] := by
  have hcounts := gradingsCountOnce_run (.ofList [7]) .zero .standard gradedOnce
  refine ⟨hcounts.stays 7 ⟨1, 0, 10⟩ ⟨.full, .zero⟩ ?_ redelivered (by decide +kernel), ?_⟩
  · exact ⟨⟨⟨⟨1, 0, 10⟩, 1, "x", .zero⟩, by decide +kernel, rfl⟩, by decide +kernel⟩
  · have hrest : ((start (.ofList [7]) .zero .standard).run gradedOnce).withoutRepeats redelivered =
        [.setClock ⟨5⟩, .call (.setEditRule ⟨1, 0, 10⟩ (some (.set, .zero)))] := by
      decide +kernel
    rw [← (hcounts.repeats redelivered).1, hrest]

end Session

end Courseware
