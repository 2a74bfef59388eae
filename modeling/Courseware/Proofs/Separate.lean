import Courseware.Proofs.Apart
import Courseware.Proofs.Grading

/-!
# Work of different participants keeps apart

Recording work writes nothing but the branch that the work belongs to, and what it writes there
depends on nothing that others did: where two stores differ in the work of other participants only, the
same call leaves the participant with the same results in both (`SameWorkOf.call`). The identifiers of
the answers may differ, since they are drawn from one source.
-/

namespace Courseware

namespace Store

open Relation

variable {s s' t t' : Store} {now : Timestamp} {participant : GroupId} {item : ItemId}
  {key : ResultKey} {policy policy' : RetryPolicy} {ids ids' : IdSource}

/-! ### The work of a participant -/

/-- The attempts of a participant. -/
def attemptsOf (s : Store) (participant : GroupId) : Table (GroupId × AttemptId) Attempt :=
  s.attempts.filter fun k _ => decide (k.1 = participant)

/-- The results of a participant. -/
def resultsOf (s : Store) (participant : GroupId) : Table ResultKey Result :=
  s.results.filter fun k _ => decide (k.participant = participant)

/-- The answers to results of a participant. -/
def answersOf (s : Store) (participant : GroupId) : Table AnswerId Answer :=
  s.answers.filter fun _ a => decide (a.result.participant = participant)

instance (s t : Store) : Decidable (s.OnlyWork t) :=
  decidable_of_iff
    (t = { s with
      attempts := t.attempts
      results := t.results
      answers := t.answers
      gradings := t.gradings })
    ⟨fun h => ⟨_, _, _, _, h⟩, by rintro ⟨_, _, _, _, rfl⟩; rfl⟩

/-- Nothing differs but the attempts, results, answers and gradings of other participants. -/
structure SameWorkOf (participant : GroupId) (s t : Store) : Prop where
  onlyWork : s.OnlyWork t
  attempts : t.attemptsOf participant = s.attemptsOf participant
  results : t.resultsOf participant = s.resultsOf participant
  answers : t.answersOf participant = s.answersOf participant
  gradings : ∀ id ∈ (s.answersOf participant).keys, t.gradings.get? id = s.gradings.get? id

instance (participant : GroupId) (s t : Store) : Decidable (SameWorkOf participant s t) :=
  decidable_of_iff (_ ∧ _ ∧ _ ∧ _ ∧ _)
    ⟨fun ⟨h, hattempts, hresults, hanswers, hgradings⟩ =>
      ⟨h, hattempts, hresults, hanswers, hgradings⟩,
    fun ⟨h, hattempts, hresults, hanswers, hgradings⟩ =>
      ⟨h, hattempts, hresults, hanswers, hgradings⟩⟩

theorem SameWorkOf.get?_answers (h : SameWorkOf participant s t) {id : AnswerId} {answer : Answer}
    (hown : answer.result.participant = participant) :
    t.answers.get? id = some answer ↔ s.answers.get? id = some answer := by
  have hrow : ∀ u : Store, (u.answersOf participant).get? id = some answer ↔
      u.answers.get? id = some answer := fun u => by
    rw [answersOf, Table.get?_filter_eq_some, decide_eq_true_eq, and_iff_left hown]
  rw [← hrow, h.answers, hrow]

theorem SameWorkOf.get?_gradings (h : SameWorkOf participant s t) {id : AnswerId} {answer : Answer}
    (hanswer : s.answers.get? id = some answer) (hown : answer.result.participant = participant) :
    t.gradings.get? id = s.gradings.get? id :=
  h.gradings id (Table.mem_keys_iff.2
    ⟨answer, Table.get?_filter_eq_some.2 ⟨hanswer, decide_eq_true hown⟩⟩)

theorem SameWorkOf.sameFor (h : SameWorkOf participant s t) (hs : s.AllDone) (ht : t.AllDone) :
    SameFor participant s t where
  onlyWork := h.onlyWork
  attempts id := by
    have hrow : ∀ u : Store, (u.attemptsOf participant).get? (participant, id) =
        u.attempts.get? (participant, id) := fun u =>
      Table.get?_filter_of_forall fun _ => decide_eq_true rfl
    rw [← hrow, h.attempts, hrow]
  results key hkey := by
    have hrow : ∀ u : Store, (u.resultsOf participant).get? key = u.results.get? key := fun u =>
      Table.get?_filter_of_forall fun _ => decide_eq_true hkey
    rw [← hrow, h.results, hrow]
  answers key hkey a := by
    rw [answersTo, answersTo, gradedAnswers_congr
      (fun _ _ hresult => h.get?_answers (hresult.symm ▸ hkey))
      fun _ _ hanswer hresult => h.get?_gradings hanswer (hresult.symm ▸ hkey)]
  left k r hr _ := hs k r hr
  right k r hr _ := ht k r hr

/-! ### New answers -/

theorem mem_answersTo_of_insert {id : AnswerId} {answer : Answer}
    (hnew : s.answers.contains id = false) (hanswers : t.answers = s.answers.insert id answer)
    (hgradings : ∀ k, k ≠ id → t.gradings.get? k = s.gradings.get? k)
    {a : Timestamp × Option Score} :
    a ∈ t.answersTo key ↔ a ∈ s.answersTo key ∨
      (answer.result = key ∧ a = (answer.submittedAt, (t.gradings.get? id).map (·.score))) := by
  rw [mem_answersTo, mem_answersTo, hanswers]
  constructor
  · rintro ⟨k, old, ⟨hold, hresult⟩, rfl⟩
    rw [Table.get?_insert] at hold
    split at hold
    · rename_i heq
      obtain rfl := heq
      obtain rfl := Option.some.inj hold
      exact Or.inr ⟨hresult, rfl⟩
    · rename_i hne
      exact Or.inl ⟨k, old, ⟨hold, hresult⟩, by rw [hgradings k (Ne.symm hne)]⟩
  · rintro (⟨k, old, ⟨hold, hresult⟩, rfl⟩ | ⟨hresult, rfl⟩)
    · have hstored := Table.contains_of_get? hold
      refine ⟨k, old, ⟨?_, hresult⟩, ?_⟩
      · rw [Table.get?_insert_of_contains answer hnew hstored, hold]
      · rw [hgradings k]
        rintro rfl
        exact absurd (hstored.symm.trans hnew) (by simp)
    · exact ⟨id, answer, ⟨Table.get?_insert_self _ _ _, hresult⟩, rfl⟩

theorem SameFor.readied (h : SameFor participant s t) (hkey : key.participant = participant) :
    SameFor participant (s.readied key now) (t.readied key now) := by
  rw [Store.readied, Store.readied, h.results key hkey]
  exact h.insert hkey _

/-- The answers get identifiers of their own, and the same grading or none. -/
theorem SameFor.answered (h : SameFor participant s t) (answer : Answer)
    (hown : answer.result.participant = participant) {id id' : AnswerId}
    (hnew : s.answers.contains id = false) (hnew' : t.answers.contains id' = false)
    {gs gs' : Table AnswerId Grading} (hgs : ∀ k, k ≠ id → gs.get? k = s.gradings.get? k)
    (hgs' : ∀ k, k ≠ id' → gs'.get? k = t.gradings.get? k)
    (hgrading : (gs'.get? id').map (·.score) = (gs.get? id).map (·.score)) :
    SameFor participant
      { s.readied answer.result now with
        answers := s.answers.insert id answer
        gradings := gs }
      { t.readied answer.result now with
        answers := t.answers.insert id' answer
        gradings := gs' } := by
  have hready : SameFor participant (s.readied answer.result now) (t.readied answer.result now) :=
    h.readied hown
  refine ⟨?_, hready.attempts, hready.results, fun key hkey a => ?_, hready.left, hready.right⟩
  · obtain ⟨_, _, _, _, heq⟩ := hready.onlyWork
    rw [heq]
    exact ⟨_, _, _, _, rfl⟩
  · refine (mem_answersTo_of_insert hnew' rfl hgs').trans
      (Iff.trans ?_ (mem_answersTo_of_insert hnew rfl hgs).symm)
    dsimp only
    rw [h.answers key hkey, hgrading]

theorem not_contains_of_freshAnswerId {answer : Answer} {id : AnswerId}
    (h : s.freshAnswerId policy ids answer = .ok id) : s.answers.contains id = false := by
  rw [freshAnswerId] at h
  cases hfresh : (s.insertFreshAnswer policy ids answer).1 with
  | error fault => exact absurd (hfresh ▸ h) (by simp [Except.map])
  | ok out =>
    rw [hfresh] at h
    obtain rfl : out.1 = id := Except.ok.inj h
    obtain ⟨_, ids', hone⟩ := RetryPolicy.retry_eq_ok hfresh
    dsimp only at hone
    cases hinsert : s.insertAnswer ids'.draw.1 answer with
    | error fault => exact absurd (hinsert ▸ hone) (by simp [Except.map])
    | ok u =>
      rw [hinsert] at hone
      obtain rfl := Except.ok.inj hone
      exact (insertAnswer_eq_ok hinsert).1

/-! ### New attempts -/

theorem SameWorkOf.nextAttemptId (h : SameWorkOf participant s t) :
    t.nextAttemptId participant = s.nextAttemptId participant := by
  have hown : ∀ u : Store, u.attempts.keys.filter (fun k => decide (k.1 = participant)) =
      (u.attemptsOf participant).keys := fun u => List.filter_map.trans rfl
  rw [Store.nextAttemptId, Store.nextAttemptId, hown, hown, h.attempts]

theorem SameFor.insertAttempt (h : SameFor participant s t) (id : AttemptId) (attempt : Attempt) :
    SameFor participant { s with attempts := s.attempts.insert (participant, id) attempt }
      { t with attempts := t.attempts.insert (participant, id) attempt } := by
  refine ⟨?_, fun k => ?_, h.results, h.answers, h.left, h.right⟩
  · obtain ⟨_, _, _, _, rfl⟩ := h.onlyWork
    exact ⟨_, _, _, _, rfl⟩
  · rw [Table.get?_insert, Table.get?_insert, h.attempts]

/-! ### Calls -/

section Calls

variable (hs : s.Grounded) (ht : t.Grounded) (hdone : s.AllDone) (hdone' : t.AllDone)
include hs ht hdone hdone'

theorem SameWorkOf.submitAnswer (h : SameWorkOf participant s t) (hkey : key.participant = participant)
    {author : GroupId} {text : String} {id id' : AnswerId}
    (hok : (s.submitAnswer policy ids key author text now).1 = .ok (id, s'))
    (hok' : (t.submitAnswer policy' ids' key author text now).1 = .ok (id', t')) :
    SameFor participant s' t' := by
  obtain ⟨u, outcome, hadd, hsettle⟩ := submitAnswer_eq_ok hok
  obtain ⟨u', outcome', hadd', hsettle'⟩ := submitAnswer_eq_ok hok'
  have hu := (hs.addAnswer hadd).toLayered
  have hu' := (ht.addAnswer hadd').toLayered
  have hnone := Table.get?_eq_none_iff.2 (hs.toCoherent.not_graded_of_addAnswer hadd)
  have hnone' := Table.get?_eq_none_iff.2 (ht.toCoherent.not_graded_of_addAnswer hadd')
  obtain ⟨hid, rfl⟩ := addAnswer_readied hadd
  obtain ⟨hid', rfl⟩ := addAnswer_readied hadd'
  refine SameFor.propagateResults ?_ hu hu' hsettle hsettle'
  exact (h.sameFor hdone hdone').answered ⟨key, author, text, now⟩ hkey
    (not_contains_of_freshAnswerId (s := s.readied key now) hid)
    (not_contains_of_freshAnswerId (s := t.readied key now) hid') (fun _ _ => rfl) (fun _ _ => rfl)
    (congrArg _ (hnone'.trans hnone.symm))

theorem SameWorkOf.gradeAnswer (h : SameWorkOf participant s t) {id : AnswerId} {event : GradingEvent}
    (hown : event.result.participant = participant)
    (hgradings : t.gradings.get? id = s.gradings.get? id) {status status' : GradeStatus}
    (hok : s.gradeAnswer id event now = .ok (status, s'))
    (hok' : t.gradeAnswer id event now = .ok (status', t')) : SameFor participant s' t' := by
  have hcontains : t.gradings.contains id = s.gradings.contains id := by
    rw [Table.contains_eq_isSome, Table.contains_eq_isSome, hgradings]
  have hright := gradeAnswer_eq_ok hok'
  rw [hcontains] at hright
  rcases gradeAnswer_eq_ok hok with ⟨hgraded, rfl⟩ |
    ⟨hnew, u, v, outcome, hinsert, htouch, hsettle⟩
  · simp only [hgraded, true_and, reduceCtorEq, false_and, or_false] at hright
    exact hright ▸ h.sameFor hdone hdone'
  · simp only [hnew, reduceCtorEq, false_and, true_and, false_or] at hright
    obtain ⟨u', v', outcome', hinsert', htouch', hsettle'⟩ := hright
    have hv := ((hs.insertGrading hinsert).touchLeaf htouch).toLayered
    have hv' := ((ht.insertGrading hinsert').touchLeaf htouch').toLayered
    obtain ⟨-, score, hscore, rfl⟩ := insertGrading_eq_ok hinsert
    obtain ⟨-, score', hscore', rfl⟩ := insertGrading_eq_ok hinsert'
    obtain rfl : score = score' := Option.some.inj (hscore.symm.trans hscore')
    have hgraded : SameWorkOf participant
        { s with gradings := s.gradings.insert id ⟨score, event.gradedAt⟩ }
        { t with gradings := t.gradings.insert id ⟨score, event.gradedAt⟩ } := by
      refine ⟨?_, h.attempts, h.results, h.answers, fun k hk => ?_⟩
      · obtain ⟨_, _, _, _, rfl⟩ := h.onlyWork
        exact ⟨_, _, _, _, rfl⟩
      · rw [Table.get?_insert, Table.get?_insert, h.gradings k hk]
    obtain rfl := touchLeaf_eq_readied htouch
    obtain rfl := touchLeaf_eq_readied htouch'
    exact ((hgraded.sameFor hdone hdone').readied hown).propagateResults hv hv' hsettle hsettle'

theorem SameWorkOf.recordGrade (h : SameWorkOf participant s t) {event : GradingEvent}
    (hown : event.result.participant = participant) {status status' : GradeStatus}
    (hok : (s.recordGrade policy ids event now).1 = .ok (status, s'))
    (hok' : (t.recordGrade policy' ids' event now).1 = .ok (status', t')) :
    SameFor participant s' t' := by
  cases hnamed : event.answer with
  | some id =>
    obtain ⟨answer, hanswer, hresult, hgrade⟩ := recordGrade_named hnamed hok
    obtain ⟨-, -, -, hgrade'⟩ := recordGrade_named hnamed hok'
    have hgradings := h.get?_gradings hanswer (hresult.symm ▸ hown)
    exact h.gradeAnswer hs ht hdone hdone' hown hgradings hgrade hgrade'
  | none =>
    obtain ⟨id, score, outcome, hid, hscore, hu, hsettle⟩ := recordGrade_graded hs hnamed hok
    obtain ⟨id', score', outcome', hid', hscore', hu', hsettle'⟩ :=
      recordGrade_graded ht hnamed hok'
    obtain rfl : score = score' := Option.some.inj (hscore.symm.trans hscore')
    refine SameFor.propagateResults ?_ hu.toLayered hu'.toLayered hsettle hsettle'
    refine (h.sameFor hdone hdone').answered (emptyAnswer event now) hown
      (not_contains_of_freshAnswerId (s := s.readied event.result now) hid)
      (not_contains_of_freshAnswerId (s := t.readied event.result now) hid') (fun k hk => ?_)
      (fun k hk => ?_) ?_
    · rw [Table.get?_insert, if_neg (Ne.symm hk)]
    · rw [Table.get?_insert, if_neg (Ne.symm hk)]
    · rw [Table.get?_insert_self, Table.get?_insert_self]

theorem SameWorkOf.changeEditRule (h : SameWorkOf participant s t)
    (hkey : key.participant = participant) {rule : Option (EditRule × Score)}
    (hok : s.changeEditRule key rule now = .ok s') (hok' : t.changeEditRule key rule now = .ok t') :
    SameFor participant s' t' := by
  obtain ⟨-, outcome, hsettle⟩ := changeEditRule_eq_ok hok
  obtain ⟨-, outcome', hsettle'⟩ := changeEditRule_eq_ok hok'
  exact (((h.sameFor hdone hdone').modify hkey _).modify hkey _).propagateResults
    ((hs.setEditRule key rule).setProgress key _).toLayered
    ((ht.setEditRule key rule).setProgress key _).toLayered hsettle hsettle'

theorem SameWorkOf.startAttempt (h : SameWorkOf participant s t) {parent : Option AttemptId}
    {rootItem : Option ItemId} {id id' : AttemptId}
    (hok : s.startAttempt policy participant rootItem parent now = .ok (id, s'))
    (hok' : t.startAttempt policy' participant rootItem parent now = .ok (id', t')) :
    SameFor participant s' t' := by
  obtain ⟨rfl, u, hinsert, hstart⟩ := startAttempt_eq_ok hok
  obtain ⟨rfl, u', hinsert', hstart'⟩ := startAttempt_eq_ok hok'
  rw [h.nextAttemptId] at hinsert' hstart'
  have hu := hs.insertAttempt hinsert
  have hu' := ht.insertAttempt hinsert'
  obtain ⟨-, -, -, rfl⟩ := insertAttempt_eq_ok hinsert
  obtain ⟨-, -, -, rfl⟩ := insertAttempt_eq_ok hinsert'
  have hstarted := (h.sameFor hdone hdone').insertAttempt (s.nextAttemptId participant)
    ⟨rootItem, parent, now⟩
  rcases hstart with ⟨rfl, rfl⟩ | ⟨item, created, v, outcome, rfl, hresult, hsettle⟩
  · simp only [true_and, reduceCtorEq, false_and, exists_false, or_false] at hstart'
    exact hstart' ▸ hstarted
  · simp only [reduceCtorEq, false_and, false_or, Option.some.injEq] at hstart'
    obtain ⟨_, created', v', outcome', rfl, hresult', hsettle'⟩ := hstart'
    exact (hstarted.insertResult rfl hresult hresult').propagateResults
      (hu.insertResult hresult).toLayered (hu'.insertResult hresult').toLayered hsettle hsettle'

/-- The same call for the participant comes to the same for the participant. -/
theorem SameWorkOf.call (h : SameWorkOf participant s t) {call : Call}
    (hcall : call.worksOn = some (participant, item)) {reply reply' : Reply}
    (hrun : (Call.run policy now call ids s).1 = .ok (reply, s'))
    (hrun' : (Call.run policy' now call ids' t).1 = .ok (reply', t')) :
    SameFor participant s' t' := by
  cases call with
  | createAttempt owner rootItem parent =>
    obtain ⟨root, -, heq⟩ := Option.map_eq_some_iff.1 hcall
    obtain ⟨rfl, -⟩ := Prod.mk.inj heq
    obtain ⟨id, hstart, -⟩ := Reply.onSuccess_eq_ok.1 hrun
    obtain ⟨id', hstart', -⟩ := Reply.onSuccess_eq_ok.1 hrun'
    exact h.startAttempt hs ht hdone hdone' hstart hstart'
  | submitAnswer key author text =>
    obtain ⟨hown, -⟩ := Prod.mk.inj (Option.some.inj hcall)
    obtain ⟨id, hsubmit, -⟩ := Reply.onSuccess_eq_ok.1 hrun
    obtain ⟨id', hsubmit', -⟩ := Reply.onSuccess_eq_ok.1 hrun'
    exact h.submitAnswer hs ht hdone hdone' hown hsubmit hsubmit'
  | recordGrade event =>
    obtain ⟨hown, -⟩ := Prod.mk.inj (Option.some.inj hcall)
    obtain ⟨status, hrecord, -⟩ := Reply.onSuccess_eq_ok.1 hrun
    obtain ⟨status', hrecord', -⟩ := Reply.onSuccess_eq_ok.1 hrun'
    exact h.recordGrade hs ht hdone hdone' hown hrecord hrecord'
  | setEditRule key rule =>
    obtain ⟨hown, -⟩ := Prod.mk.inj (Option.some.inj hcall)
    have hcorrect := (Reply.doneOnSuccess_eq_ok.1 hrun).1
    have hcorrect' := (Reply.doneOnSuccess_eq_ok.1 hrun').1
    exact h.changeEditRule hs ht hdone hdone' hown hcorrect hcorrect'
  | _ => exact absurd hcall (by simp [Call.worksOn])

end Calls

end Store

/-! ### Runs -/

namespace Session

open Relation

variable {participant : GroupId} {item : ItemId} {call : Call}

/-- A call records work for a participant on an item in its branch only: the results of others stay as
they are, and so do those of the participant on items that are neither the item nor above it; nothing
but work changes; and in any session that a run leads to, at the same time and with no difference but
the work of others, the same call leaves the participant with the same results. -/
structure WorksApart (s : Session) (call : Call) (participant : GroupId) (item : ItemId) : Prop where
  results : ∀ key, key.participant ≠ participant ∨
      key.item ≠ item ∧ ¬ TransGen s.committed.HasPart key.item item →
    (s.perform call).2.committed.results.get? key = s.committed.results.get? key
  onlyWork : s.committed.OnlyWork (s.perform call).2.committed
  others : ∀ ids clock policy steps t, t = (start ids clock policy).run steps → t.clock = s.clock →
    Store.SameWorkOf participant s.committed t.committed → (t.perform call).1.isOk = true →
      ∀ key, key.participant = participant →
        (t.perform call).2.committed.results.get? key = (s.perform call).2.committed.results.get? key

theorem worksApart (ids : IdSource) (clock : Timestamp) (policy : RetryPolicy) (steps : List Step)
    (hcall : call.worksOn = some (participant, item))
    (hok : (((start ids clock policy).run steps).perform call).1.isOk = true) :
    ((start ids clock policy).run steps).WorksApart call participant item := by
  obtain ⟨reply, hout⟩ := outcome_of_isOk hok
  have hs := Store.grounded_run ids clock policy steps
  have hdone := Store.allDone_run ids clock policy steps
  have hwork := Store.Worked.of_run (Call.area_of_worksOn hcall) hout
  refine ⟨fun key hkey => ?_, hwork.onlyWork, ?_⟩
  · refine (Store.onlyBranch_work hs.toCoherent hdone hcall hwork).rows key fun hin => ?_
    rcases hkey with hother | ⟨hne, hnot⟩
    · exact hother hin.participant
    · rcases reflTransGen_iff_eq_or_transGen.1 hin.path with heq | hpath
      · exact hne heq.symm
      · exact hnot hpath
  · rintro ids' clock' policy' steps' _ rfl hclock hsame hok' key hkey
    obtain ⟨reply', hout'⟩ := outcome_of_isOk hok'
    rw [outcomeOf, hclock] at hout'
    exact (hsame.call hs (Store.grounded_run ids' clock' policy' steps') hdone
      (Store.allDone_run ids' clock' policy' steps') hcall hout hout').results key hkey

/-- Two users work on a chapter with one item in it. -/
def pairAtWork : List Step :=
  [ .call (.createGroup 1 ⟨"", .user, true, none, none, none⟩),
    .call (.createGroup 2 ⟨"", .user, true, none, none, none⟩),
    .call (.createItem 9 .plain),
    .call (.createItem 10 .plain),
    .call (.createItem 11 .plain),
    .call (.createLink 9 10 .plain),
    .call (.grant 1 9 1 ⟨.content, .none, .none, .none, false, .always⟩),
    .call (.createAttempt 1 none none),
    .call (.submitAnswer ⟨1, 0, 11⟩ 1 "x") ]

/-- The second of them gets full score. -/
def otherWork : List Step :=
  [ .call (.createAttempt 2 none none),
    .call (.submitAnswer ⟨2, 0, 10⟩ 2 "y"),
    .call (.recordGrade ⟨⟨2, 0, 10⟩, some 8, .full, .zero⟩) ]

/-- The first gets full score on the item, and thereby a result on the chapter, whether or not the
second has worked on it. -/
theorem worksApart_otherWork :
    let s := (start (.ofList [7, 8]) .zero .standard).run pairAtWork
    let t := (start (.ofList [7, 8, 9]) .zero .standard).run (pairAtWork ++ otherWork)
    let call := Call.recordGrade ⟨⟨1, 0, 10⟩, none, .full, .zero⟩
    (t.perform call).2.committed.results.get? ⟨1, 0, 9⟩ =
        (s.perform call).2.committed.results.get? ⟨1, 0, 9⟩ ∧
      (t.perform call).2.committed.results.get? ⟨2, 0, 10⟩ =
        t.committed.results.get? ⟨2, 0, 10⟩ := by
  intro s t call
  have hfirst : s.WorksApart call 1 10 :=
    worksApart (.ofList [7, 8]) .zero .standard pairAtWork rfl (by decide +kernel)
  have hsecond : t.WorksApart call 1 10 :=
    worksApart (.ofList [7, 8, 9]) .zero .standard (pairAtWork ++ otherWork) rfl (by decide +kernel)
  refine ⟨?_, hsecond.results ⟨2, 0, 10⟩ (Or.inl (by decide))⟩
  exact hfirst.others (.ofList [7, 8, 9]) .zero .standard (pairAtWork ++ otherWork) t rfl
    (by decide +kernel) (by decide +kernel) (by decide +kernel) ⟨1, 0, 9⟩ rfl

end Session

end Courseware
