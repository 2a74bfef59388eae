import Courseware.Proofs.Consistency
import Courseware.Proofs.Settled

/-!
# Proper scores throughout a run

A computed score is stored only after it was brought between 0 and 100, so in every store that a run
commits the scores of all results are proper numbers (`grounded_run`).
-/

namespace Courseware

namespace Store

variable {s s' t : Store} {now : Timestamp}

/-- Rows refer to rows, and scores are proper. -/
structure Grounded (s : Store) : Prop extends Coherent s where
  proper : s.ProperScores

theorem Grounded.congr (hs : s.Grounded) (ht : t.Coherent) (hresults : t.results = s.results) :
    t.Grounded := by
  refine ⟨ht, fun k r hr => ?_⟩
  rw [hresults] at hr
  exact hs.proper k r hr

/-! ### Settling -/

theorem Grounded.setProgress (hs : s.Grounded) (k : ResultKey) (progress : Progress) :
    (s.setProgress k progress).Grounded := by
  refine ⟨hs.toCoherent.resultsGrow (resultsGrow_setProgress s k progress), fun k' r' hr' => ?_⟩
  rcases get?_setProgress hr' with ⟨-, r, hr, rfl⟩ | ⟨-, hr⟩
  · exact hs.proper k' r hr
  · exact hs.proper k' r' hr

theorem Grounded.insertResult (hs : s.Grounded) {k : ResultKey} {progress : Progress}
    {created : Bool} (hinsert : s.insertResult k progress now = .ok (created, s')) :
    s'.Grounded := by
  refine ⟨hs.toCoherent.resultsGrow (resultsGrow_insertResult hinsert), fun k' r' hr' => ?_⟩
  rcases get?_insertResult hinsert hr' with ⟨-, -, rfl⟩ | hold
  · exact ⟨Score.proper_zero, by simp⟩
  · exact hs.proper k' r' hold

theorem Grounded.recomputeResult (hs : s.Grounded) {k : ResultKey} {r : Result}
    (hok : s.recomputeResult k r = .ok s') : s'.Grounded := by
  refine ⟨hs.toCoherent.resultsGrow (resultsGrow_recomputeResult hok), ?_⟩
  obtain ⟨score, hscore, rfl⟩ := recomputeResult_eq_ok hok
  intro k' r' hr'
  rw [Table.get?_modify] at hr'
  split at hr'
  · obtain ⟨old, hold, rfl⟩ := Option.map_eq_some_iff.1 hr'
    exact ⟨Score.proper_of_clamp hscore, (hs.proper k' old hold).2⟩
  · exact hs.proper k' r' hr'

theorem grounded_keptBySettling (now : Timestamp) : KeptBySettling now Grounded where
  setProgress k progress hs := hs.setProgress k progress
  insertResult hs _ hinsert := hs.insertResult hinsert
  recomputeResult hs hok := hs.recomputeResult hok

theorem Grounded.markResults (hs : s.Grounded) (p : ResultKey → Bool) (progress : Progress) :
    (s.markResults p progress).2.Grounded := by
  refine ⟨hs.toCoherent.resultsGrow (resultsGrow_markResults s p progress), fun k r' hr' => ?_⟩
  obtain ⟨r, hr, rfl⟩ := Table.get?_map_eq_some.1 hr'
  split
  · exact hs.proper k r hr
  · exact hs.proper k r hr

theorem Grounded.setGenerated (hs : s.Grounded) (gen : Table Pair Generated) :
    { s with generated := gen }.Grounded :=
  hs.congr (hs.toCoherent.setGenerated gen) rfl

theorem Grounded.settlesTo (hs : s.Grounded) (h : SettlesTo now s s') : s'.Grounded :=
  h.keeps (grounded_keptBySettling now) (fun _ gen hu => hu.setGenerated gen)
    (fun _ p hu => hu.markResults p _) hs

/-! ### Calls -/

theorem Grounded.reclosed (hs : s.Grounded) {change : ClosureChange} (h : Reclosed change s t) :
    t.Grounded :=
  hs.congr (hs.toCoherent.reclosed h) (workKept_reclosed h).results

theorem get?_deleteGroups {ids : List GroupId} {key : ResultKey} {r : Result} :
    (s.deleteGroups ids).2.results.get? key = some r → s.results.get? key = some r :=
  deleteGroups_keeps (P := fun t => t.results.get? key = some r → s.results.get? key = some r)
    (fun _ _ ht hr => ht (Table.get?_filter_eq_some.1 hr).1) id ids

theorem Grounded.deleteRelation (hs : s.Grounded) {parent child : GroupId} {allowOrphans : Bool}
    {deletion : RelationDeletion}
    (h : s.deleteRelation parent child allowOrphans = .ok (deletion, t)) : t.Grounded := by
  refine ⟨hs.toCoherent.deleteRelation h, ?_⟩
  rcases deleteRelation_eq_ok h with ⟨-, -, rfl⟩ | ⟨hremoved, -⟩ | ⟨-, -, rfl, -⟩
  · exact hs.proper
  · exact (hs.reclosed (reclosed_deleteMembership hremoved)).proper
  · intro k r hr
    exact hs.proper k r
      (get?_deleteGroups (s := (s.deleteMembership parent child).2.recomputeClosure.2) hr)

theorem Grounded.withLink (hs : s.Grounded) {parent child : ItemId} (link : Link)
    (hparent : s.items.contains parent = true) (hchild : s.items.contains child = true)
    (hreach : s.linkNetwork.reaches child parent = false) :
    (s.withLink parent child link).Grounded :=
  hs.congr (hs.toCoherent.withLink link hparent hchild hreach) rfl

theorem Grounded.withoutLink (hs : s.Grounded) (parent child : ItemId) :
    (s.withoutLink parent child).Grounded :=
  hs.congr (hs.toCoherent.withoutLink parent child) rfl

theorem Grounded.touchLeaf (hs : s.Grounded) {key : ResultKey}
    (h : s.touchLeaf key now = .ok t) : t.Grounded := by
  obtain ⟨created, u, hinsert, rfl⟩ := touchLeaf_eq_ok h
  split
  · exact hs.insertResult hinsert
  · exact (hs.insertResult hinsert).setProgress key _

theorem Grounded.addAnswer (hs : s.Grounded) {policy : RetryPolicy} {ids : IdSource}
    {answer : Answer} {id : AnswerId}
    (h : (s.addAnswer policy ids answer now).1 = .ok (id, t)) : t.Grounded := by
  obtain ⟨u, htouch, hinsert⟩ := addAnswer_eq_ok h
  have hu := hs.touchLeaf htouch
  refine hu.congr (hu.toCoherent.insertAnswer hinsert) ?_
  obtain ⟨-, -, rfl⟩ := insertAnswer_eq_ok hinsert
  rfl

theorem Grounded.insertGrading (hs : s.Grounded) {id : AnswerId} {grading : Grading}
    (h : s.insertGrading id grading = .ok t) : t.Grounded := by
  refine hs.congr (hs.toCoherent.insertGrading h) ?_
  obtain ⟨-, score, -, rfl⟩ := insertGrading_eq_ok h
  rfl

theorem Grounded.gradeAnswer (hs : s.Grounded) {id : AnswerId} {event : GradingEvent}
    {status : GradeStatus} (h : s.gradeAnswer id event now = .ok (status, s')) : s'.Grounded := by
  rcases gradeAnswer_eq_ok h with ⟨-, rfl⟩ | ⟨-, t, u, outcome, hinsert, htouch, hsettle⟩
  · exact hs
  · exact ((hs.insertGrading hinsert).touchLeaf htouch).settlesTo
      (settlesTo_propagateResults hsettle)

theorem Grounded.insertAttempt (hs : s.Grounded) {participant : GroupId} {id : AttemptId}
    {attempt : Attempt} (h : s.insertAttempt participant id attempt = .ok t) : t.Grounded := by
  refine hs.congr (hs.toCoherent.insertAttempt h) ?_
  obtain ⟨-, -, -, rfl⟩ := insertAttempt_eq_ok h
  rfl

theorem Grounded.setEditRule (hs : s.Grounded) (key : ResultKey)
    (rule : Option (EditRule × Score)) : (s.setEditRule key rule).2.Grounded := by
  refine ⟨hs.toCoherent.resultsGrow (resultsGrow_setEditRule s key rule), fun k r' hr' => ?_⟩
  rw [Store.setEditRule, Table.get?_modify] at hr'
  split at hr'
  · obtain ⟨r, hr, rfl⟩ := Option.map_eq_some_iff.1 hr'
    refine ⟨(hs.proper k r hr).1, fun value hvalue => ?_⟩
    obtain ⟨given, -, hstored⟩ := Option.bind_eq_some_iff.1 hvalue
    exact (Score.alike_stored hstored).isNaN ▸ (Score.stored?_eq_some hstored).1
  · exact hs.proper k r' hr'

theorem Grounded.work (hs : s.Grounded) {call : Call} (h : Worked now s s' call) :
    s'.Grounded := by
  cases h with
  | start hinsert => exact hs.insertAttempt hinsert
  | startOn hinsert hresult hsettle =>
    exact ((hs.insertAttempt hinsert).insertResult hresult).settlesTo
      (settlesTo_propagateResults hsettle)
  | answer hadd hsettle => exact (hs.addAnswer hadd).settlesTo (settlesTo_propagateResults hsettle)
  | grade _ _ hgrade => exact hs.gradeAnswer hgrade
  | gradeNew hadd hgrade => exact (hs.addAnswer hadd).gradeAnswer hgrade
  | correct hsettle =>
    exact ((hs.setEditRule _ _).setProgress _ _).settlesTo (settlesTo_propagateResults hsettle)
  | settle hsettle => exact hs.settlesTo (settlesTo_propagateResults hsettle)

theorem Grounded.aside (hs : s.Grounded) (h : Aside now s t) : t.Grounded := by
  induction h with
  | write ht hkept => exact hs.congr ht hkept.results
  | delete hdelete => exact hs.deleteRelation hdelete
  | mark _ p progress ih => exact ih.markResults p progress
  | settle _ hsettles ih => exact ih.settlesTo hsettles

theorem Grounded.call (hs : s.Grounded) {policy : RetryPolicy} {call : Call} {ids : IdSource}
    {reply : Reply} (hrun : (Call.run policy now call ids s).1 = .ok (reply, s')) :
    s'.Grounded := by
  rcases (Effect.of_run hrun).work_or_aside hs.toCoherent with hwork | haside
  · exact hs.work hwork
  · exact hs.aside haside

theorem grounded_empty : Store.empty.Grounded := by
  refine ⟨coherent_empty, fun k r hr => ?_⟩
  simp [Store.empty] at hr

theorem grounded_run (ids : IdSource) (clock : Timestamp) (policy : RetryPolicy)
    (steps : List Session.Step) : ((Session.start ids clock policy).run steps).committed.Grounded :=
  Session.committed_run grounded_empty (fun _ _ _ _ _ _ _ h => h.call) ids clock policy steps

end Store

end Courseware
