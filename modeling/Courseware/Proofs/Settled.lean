import Courseware.Proofs.Integrity
import Courseware.Proofs.Rounds

/-!
# Results settle throughout a run

Every call that marks a result goes on to settle all results, and the links are layered whenever it
does so. Hence every result is settled in every store that a run commits, and no call ever stalls
(`results_settle`).
-/

namespace Courseware

theorem unstalled_error {α : Type} {fault : Fault} (h : ∀ n, fault ≠ .stalled n) :
    Unstalled (.error fault : Except Fault α) := by
  intro n heq
  exact h n (Except.error.inj heq)

theorem Unstalled.onSuccess {α : Type} {reply : α → Reply} {outcome : Except Fault (α × Store)}
    (h : Unstalled outcome) : Unstalled (Reply.onSuccess reply outcome) := by
  cases outcome with
  | error fault => exact fun n heq => h n (by simpa [Reply.onSuccess, Except.map] using heq)
  | ok p => exact unstalled_ok _

theorem Unstalled.doneOnSuccess {outcome : Except Fault Store} (h : Unstalled outcome) :
    Unstalled (Reply.doneOnSuccess outcome) := by
  cases outcome with
  | error fault => exact fun n heq => h n (by simpa [Reply.doneOnSuccess, Except.map] using heq)
  | ok p => exact unstalled_ok _

namespace Store

variable {s s' : Store} {now : Timestamp}

/-! ### Settling results -/

theorem Layered.resultsGrow (h : s.Layered) (hgrow : s.ResultsGrow s') : s'.Layered := by
  obtain ⟨rs, rfl⟩ := hgrow.frame
  exact h.congr rfl rfl

theorem Layered.propagatePermissions (h : s.Layered) (w : Worklist Pair) (now : Timestamp) :
    (s.propagatePermissions w now).2.Layered := by
  obtain ⟨gen, hgen⟩ := propagatePermissions_frame s w now
  rw [hgen]
  exact h.congr rfl rfl

theorem Layered.propagateResults (h : s.Layered) (now : Timestamp) :
    Settles now .none s (s.propagateResults now) ∧ Unstalled (s.propagateResults now) ∧
      ∀ outcome s', s.propagateResults now = .ok (outcome, s') → s'.AllDone := by
  refine (advanced_zero s.height s).settleRounds _ s.height_le h.ranks (by omega) ?_ .none
  rw [roundLimit]
  omega

theorem unstalled_propagateResults (h : s.Layered) (now : Timestamp) :
    Unstalled (s.propagateResults now) :=
  (h.propagateResults now).2.1

theorem allDone_propagateResults (h : s.Layered) {outcome : ResultOutcome}
    (hok : s.propagateResults now = .ok (outcome, s')) : s'.AllDone :=
  (h.propagateResults now).2.2 outcome s' hok

theorem unstalled_settleVisible (h : s.Layered) (outcome : PermissionOutcome) (now : Timestamp) :
    Unstalled (s.settleVisible outcome now) :=
  unstalled_propagateResults (h.resultsGrow (resultsGrow_markBelow s now _)) now

theorem allDone_settleVisible (h : s.Layered) {outcome : PermissionOutcome}
    {results : ResultOutcome} (hok : s.settleVisible outcome now = .ok (results, s')) :
    s'.AllDone :=
  allDone_propagateResults (h.resultsGrow (resultsGrow_markBelow s now _)) hok

theorem unstalled_settlePairs (h : s.Layered) (pairs : List Pair) (now : Timestamp) :
    Unstalled (s.settlePairs pairs now) :=
  (unstalled_settleVisible (h.propagatePermissions _ now) _ now).bind fun _ _ => unstalled_ok _

theorem allDone_settlePairs (h : s.Layered) {pairs : List Pair} {outcome : PermissionOutcome}
    (hok : s.settlePairs pairs now = .ok (outcome, s')) : s'.AllDone := by
  obtain ⟨-, results, hvisible⟩ := settlePairs_eq_ok hok
  exact allDone_settleVisible (h.propagatePermissions _ now) hvisible

theorem unstalled_settleClosure (h : s.Layered) (change : ClosureChange) (now : Timestamp) :
    Unstalled (s.settleClosure change now) :=
  (unstalled_settlePairs h _ now).bind fun _ _ => unstalled_ok _

theorem allDone_settleClosure (h : s.Layered) {change : ClosureChange}
    (hok : s.settleClosure change now = .ok s') : s'.AllDone := by
  obtain ⟨outcome, hpairs⟩ := settleClosure_eq_ok hok
  exact allDone_settlePairs h hpairs

/-! ### Calls on groups -/

theorem unstalled_requireGroup (s : Store) (id : GroupId) : Unstalled (s.requireGroup id) := by
  rw [requireGroup]
  split
  · exact unstalled_ok _
  · exact unstalled_error (by simp)

theorem unstalled_requireItem (s : Store) (id : ItemId) : Unstalled (s.requireItem id) := by
  rw [requireItem]
  split
  · exact unstalled_ok _
  · exact unstalled_error (by simp)

theorem unstalled_ensureNoCycle (s : Store) (parent child : GroupId) :
    Unstalled (s.ensureNoCycle parent child) := by
  rw [ensureNoCycle]
  split
  · exact unstalled_error (by simp)
  · exact unstalled_ok _

theorem unstalled_relate (h : s.Coherent) (parent child : GroupId) (terms : MembershipTerms)
    (now : Timestamp) : Unstalled (s.relate parent child terms now) := by
  refine (unstalled_requireGroup s parent).bind fun _ _ => ?_
  refine (unstalled_requireGroup s child).bind fun _ _ => ?_
  refine Unstalled.bind ?_ fun out hcreate => ?_
  · refine (unstalled_ensureNoCycle s parent child).bind fun _ _ => ?_
    exact (unstalled_lift _).bind fun _ _ => unstalled_ok _
  · obtain ⟨change, t⟩ := out
    have ht := h.reclosed (reclosed_createRelation hcreate)
    exact (unstalled_settleClosure ht.toLayered change now).bind fun _ _ => unstalled_ok _

theorem unstalled_relateAll (h : s.Coherent) (pairs : List (GroupId × GroupId))
    (now : Timestamp) : Unstalled (s.relateAll pairs now) := by
  refine Unstalled.bind ?_ fun out hcreate => ?_
  · exact (unstalled_lift _).bind fun _ _ => unstalled_ok _
  · obtain ⟨change, t⟩ := out
    have ht := h.reclosed (createRelations_eq_ok hcreate)
    exact (unstalled_settleClosure ht.toLayered change now).bind fun _ _ => unstalled_ok _

theorem unstalled_deleteRelation (s : Store) (parent child : GroupId) (allowOrphans : Bool) :
    Unstalled (s.deleteRelation parent child allowOrphans) := by
  rw [deleteRelation]
  split
  · exact unstalled_ok _
  · simp only
    split
    · exact unstalled_error (by simp)
    · split
      · split <;> exact unstalled_ok _
      · exact unstalled_ok _

theorem unstalled_unrelate (h : s.Coherent) (parent child : GroupId) (allowOrphans : Bool)
    (now : Timestamp) : Unstalled (s.unrelate parent child allowOrphans now) := by
  refine (unstalled_deleteRelation s parent child allowOrphans).bind fun out hdelete => ?_
  obtain ⟨deletion, t⟩ := out
  exact (unstalled_settleClosure (h.deleteRelation hdelete).toLayered _ now).bind fun _ _ =>
    unstalled_ok _

theorem unstalled_moveChild (s : Store) (group : Group) (r : RelationRequest) (action : Action)
    (child : GroupId) (now : Timestamp) : Unstalled (s.moveChild group r action child now) := by
  rw [moveChild]
  simp only
  split
  · exact (unstalled_error (by simp)).bind fun _ h => absurd h (by simp)
  · split
    · exact unstalled_ok _
    · exact unstalled_ok _
    · split
      · refine (failsFor_ensureNoOtherTeam (by simp) s group r child now).unstalled.bind fun _ _ => ?_
        refine (failsFor_requiredApproval (by simp) group r action _ now).unstalled.bind fun _ _ => ?_
        split
        · refine (unstalled_ensureNoCycle s r.parent child).bind fun _ _ => ?_
          exact (unstalled_lift _).bind fun _ _ => unstalled_ok _
        · exact (unstalled_lift _).bind fun _ _ => unstalled_ok _
      · refine (unstalled_ok _).bind fun _ _ => ?_
        split
        · refine (unstalled_ensureNoCycle s r.parent child).bind fun _ _ => ?_
          exact (unstalled_lift _).bind fun _ _ => unstalled_ok _
        · exact (unstalled_lift _).bind fun _ _ => unstalled_ok _

theorem unstalled_moveChildren (s : Store) (group : Group) (r : RelationRequest)
    (action : Action) (now : Timestamp) (children : List GroupId) :
    Unstalled (s.moveChildren group r action now children) := by
  induction children generalizing s with
  | nil => exact unstalled_ok _
  | cons child rest ih =>
    exact (unstalled_moveChild s group r action child now).bind fun _ _ =>
      (ih _).bind fun _ _ => unstalled_ok _

theorem unstalled_request (h : s.Coherent) (r : RelationRequest) (now : Timestamp) :
    Unstalled (s.request r now) := by
  refine Unstalled.bind ?_ fun out happly => ?_
  · rw [applyRequest]
    split
    · rename_i group _
      refine (unstalled_ok group).bind fun _ _ => ?_
      refine (failsFor_admittedAction (by simp) (by simp) _ r _ now).unstalled.bind fun _ _ => ?_
      refine (unstalled_moveChildren s _ r _ now _).bind fun _ _ => ?_
      split
      exact (by split <;> exact unstalled_ok _)
    · refine (unstalled_error ?_).bind fun _ h => absurd h (by simp)
      intro n
      split <;> simp
  · obtain ⟨outcome, t⟩ := out
    exact (unstalled_settleClosure (h.applyRequest happly).toLayered _ now).bind fun _ _ =>
      unstalled_ok _

theorem unstalled_appoint (s : Store) (group manager : GroupId) :
    Unstalled (s.appoint group manager) :=
  (unstalled_requireGroup s group).bind fun _ _ =>
    (unstalled_requireGroup s manager).bind fun _ _ => unstalled_lift _

/-! ### Calls on items and permissions -/

theorem unstalled_createLink (h : s.Coherent) (parent child : ItemId) (link : Link)
    (now : Timestamp) : Unstalled (s.createLink parent child link now) := by
  refine (unstalled_requireItem s parent).bind fun _ hparent => ?_
  refine (unstalled_requireItem s child).bind fun _ hchild => ?_
  refine Unstalled.bind ?_ fun _ hcycle => ?_
  · rw [ensureNoItemCycle]
    split
    · exact unstalled_error (by simp)
    · exact unstalled_ok _
  · refine (unstalled_lift _).bind fun t hput => ?_
    replace hput := Fault.lift_eq_ok.1 hput
    obtain ⟨_, -, hput⟩ := bind_eq_ok.1 hput
    obtain rfl : s.withLink parent child link = t := Except.ok.inj hput
    have hlink := h.withLink link (requireItem_eq_ok hparent) (requireItem_eq_ok hchild)
      (ensureNoItemCycle_eq_ok hcycle)
    exact (unstalled_settlePairs (hlink.toLayered.resultsGrow (resultsGrow_markResults _ _ _)) _
      now).bind fun _ _ => unstalled_ok _

theorem unstalled_removeLink (h : s.Coherent) (parent child : ItemId) (now : Timestamp) :
    Unstalled (s.removeLink parent child now) := by
  rw [removeLink]
  simp only
  split
  · exact unstalled_ok _
  · rename_i t hdelete
    obtain rfl : s.withoutLink parent child = t := (Prod.mk.inj hdelete).2
    exact (unstalled_settlePairs ((h.withoutLink parent child).toLayered.resultsGrow
      (resultsGrow_markResults _ _ _)) _ now).bind fun _ _ => unstalled_ok _

theorem unstalled_giveGrant (h : s.Coherent) (group : GroupId) (item : ItemId) (giver : GroupId)
    (grant : Grant) (now : Timestamp) : Unstalled (s.giveGrant group item giver grant now) := by
  refine (unstalled_requireGroup s group).bind fun _ hgroup => ?_
  refine (unstalled_requireGroup s giver).bind fun _ _ => ?_
  refine (unstalled_requireItem s item).bind fun _ hitem => ?_
  refine (unstalled_lift _).bind fun t hput => ?_
  replace hput := Fault.lift_eq_ok.1 hput
  obtain ⟨_, -, hput⟩ := bind_eq_ok.1 hput
  obtain rfl : { s with grants := s.grants.insert (group, item, giver) grant } = t :=
    Except.ok.inj hput
  have hgrant := h.insertGrant giver grant (requireGroup_eq_ok hgroup) (requireItem_eq_ok hitem)
  exact unstalled_settlePairs hgrant.toLayered _ now

theorem unstalled_revokeGrant (h : s.Coherent) (group : GroupId) (item : ItemId)
    (giver : GroupId) (now : Timestamp) : Unstalled (s.revokeGrant group item giver now) := by
  rw [revokeGrant]
  split
  · exact unstalled_ok _
  · rename_i t hdelete
    obtain rfl := (Prod.mk.inj hdelete).2
    exact unstalled_settlePairs (h.eraseGrant _).toLayered _ now

theorem unstalled_sweep (h : s.Coherent) (now : Timestamp) : Unstalled (s.sweep now) := by
  obtain ⟨gen, hgen⟩ := sweepPermissions_frame s now
  have hswept : (s.sweepPermissions now).2.Layered := by
    rw [hgen]
    exact h.toLayered.congr rfl rfl
  exact (unstalled_settleVisible hswept _ now).bind fun _ _ => unstalled_ok _

/-! ### Calls on results -/

theorem unstalled_startAttempt (h : s.Coherent) (policy : RetryPolicy) (participant : GroupId)
    (rootItem : Option ItemId) (parent : Option AttemptId) (now : Timestamp) :
    Unstalled (s.startAttempt policy participant rootItem parent now) := by
  refine (unstalled_requireGroup s participant).bind fun _ _ => ?_
  refine Unstalled.bind ?_ fun _ _ => ?_
  · cases rootItem with
    | none => exact unstalled_ok _
    | some item => exact unstalled_requireItem s item
  · refine (unstalled_lift _).bind fun out hinsert => ?_
    obtain ⟨id, t⟩ := out
    have ht := h.insertAttempt (insertAttempt_of_retry (Fault.lift_eq_ok.1 hinsert)).2
    cases rootItem with
    | none => exact unstalled_ok _
    | some item =>
      refine (unstalled_lift _).bind fun out hresult => ?_
      obtain ⟨created, u⟩ := out
      have hu := ht.toLayered.resultsGrow (resultsGrow_insertResult (Fault.lift_eq_ok.1 hresult))
      exact (unstalled_propagateResults hu now).bind fun _ _ => unstalled_ok _

theorem unstalled_touchLeaf (s : Store) (key : ResultKey) (now : Timestamp) :
    Unstalled (s.touchLeaf key now) :=
  (unstalled_lift _).bind fun _ _ => unstalled_ok _

theorem unstalled_addAnswer (s : Store) (policy : RetryPolicy) (ids : IdSource) (answer : Answer)
    (now : Timestamp) : Unstalled (s.addAnswer policy ids answer now).1 := by
  have hexpect : Unstalled (s.expectAnswer answer.result now) := by
    rw [expectAnswer]
    split
    · exact (unstalled_error (by simp)).bind fun _ h => absurd h (by simp)
    · exact (unstalled_requireItem s _).bind fun _ _ => unstalled_touchLeaf s _ now
  rw [addAnswer]
  split
  · rename_i fault hfault
    rw [hfault] at hexpect
    exact unstalled_error fun n heq => hexpect n (heq ▸ rfl)
  · exact unstalled_lift _

theorem unstalled_gradeAnswer (h : s.Coherent) (id : AnswerId) (event : GradingEvent)
    (now : Timestamp) : Unstalled (s.gradeAnswer id event now) := by
  rw [gradeAnswer]
  split
  · exact unstalled_ok _
  · refine (unstalled_lift _).bind fun t hinsert => ?_
    refine (unstalled_touchLeaf t _ now).bind fun u htouch => ?_
    have hu := (h.insertGrading (Fault.lift_eq_ok.1 hinsert)).toLayered.resultsGrow
      (resultsGrow_touchLeaf htouch)
    exact (unstalled_propagateResults hu now).bind fun _ _ => unstalled_ok _

theorem unstalled_recordGrade (h : s.Coherent) (policy : RetryPolicy) (ids : IdSource)
    (event : GradingEvent) (now : Timestamp) :
    Unstalled (s.recordGrade policy ids event now).1 := by
  rw [recordGrade]
  split
  · split
    · exact unstalled_error (by simp)
    · split
      · exact unstalled_error (by simp)
      · exact unstalled_gradeAnswer h _ event now
  · refine (unstalled_addAnswer s policy ids _ now).bind fun out hadd => ?_
    obtain ⟨id, t⟩ := out
    exact unstalled_gradeAnswer (h.addAnswer hadd) id event now

theorem unstalled_submitAnswer (h : s.Coherent) (policy : RetryPolicy) (ids : IdSource)
    (key : ResultKey) (author : GroupId) (text : String) (now : Timestamp) :
    Unstalled (s.submitAnswer policy ids key author text now).1 := by
  refine (unstalled_addAnswer s policy ids _ now).bind fun out hadd => ?_
  obtain ⟨id, t⟩ := out
  exact (unstalled_propagateResults (h.addAnswer hadd).toLayered now).bind fun _ _ =>
    unstalled_ok _

theorem unstalled_changeEditRule (h : s.Coherent) (key : ResultKey)
    (rule : Option (EditRule × Score)) (now : Timestamp) :
    Unstalled (s.changeEditRule key rule now) := by
  rw [changeEditRule]
  split
  · exact unstalled_error (by simp)
  · rename_i t hset
    obtain rfl := (Prod.mk.inj hset).2
    have ht := (h.toLayered.resultsGrow (resultsGrow_setEditRule s key rule)).resultsGrow
      (resultsGrow_setProgress _ key .toBeRecomputed)
    exact (unstalled_propagateResults ht now).bind fun _ _ => unstalled_ok _

/-! ### All calls -/

theorem unstalled_call (h : s.Coherent) (policy : RetryPolicy) (now : Timestamp) (call : Call)
    (ids : IdSource) : Unstalled (Call.run policy now call ids s).1 := by
  cases call with
  | createGroup id group => exact (unstalled_lift _).doneOnSuccess
  | createRelation parent child terms => exact (unstalled_relate h parent child terms now).onSuccess
  | createRelations pairs => exact (unstalled_relateAll h pairs now).onSuccess
  | deleteRelation parent child allowOrphans =>
    exact (unstalled_unrelate h parent child allowOrphans now).onSuccess
  | transition r => exact (unstalled_request h r now).onSuccess
  | setManager group manager => exact (unstalled_appoint s group manager).onSuccess
  | createItem id item => exact (unstalled_lift _).doneOnSuccess
  | createLink parent child link => exact (unstalled_createLink h parent child link now).doneOnSuccess
  | deleteLink parent child => exact (unstalled_removeLink h parent child now).onSuccess
  | grant group item giver levels =>
    exact (unstalled_giveGrant h group item giver levels now).onSuccess
  | revoke group item giver => exact (unstalled_revokeGrant h group item giver now).onSuccess
  | sweep =>
    rw [Call.run_sweep]
    exact (unstalled_sweep h now).onSuccess
  | createAttempt participant rootItem parent =>
    exact (unstalled_startAttempt h policy participant rootItem parent now).onSuccess
  | submitAnswer key author text =>
    exact (unstalled_submitAnswer h policy ids key author text now).onSuccess
  | recordGrade event => exact (unstalled_recordGrade h policy ids event now).onSuccess
  | setEditRule key rule => exact (unstalled_changeEditRule h key rule now).doneOnSuccess
  | propagateResults => exact (unstalled_propagateResults h.toLayered now).onSuccess

/-- A grading of an answer that was just added counts, since nothing was known about the answer. -/
theorem Coherent.not_graded_of_addAnswer (h : s.Coherent) {policy : RetryPolicy} {ids : IdSource}
    {answer : Answer} {id : AnswerId}
    (hadd : (s.addAnswer policy ids answer now).1 = .ok (id, s')) :
    s'.gradings.contains id = false := by
  obtain ⟨t, htouch, hinsert⟩ := addAnswer_eq_ok hadd
  have ht := h.resultsGrow (resultsGrow_touchLeaf htouch)
  obtain ⟨hnew, -, rfl⟩ := insertAnswer_eq_ok hinsert
  rw [← Bool.not_eq_true]
  intro hgraded
  rw [ht.gradings id hgraded] at hnew
  exact absurd hnew (by simp)

theorem allDone_gradeAnswer (h : s.Coherent) {id : AnswerId} {event : GradingEvent}
    {status : GradeStatus} (hgrade : s.gradeAnswer id event now = .ok (status, s')) :
    (s.gradings.contains id = true ∧ s' = s) ∨ s'.AllDone := by
  rcases gradeAnswer_eq_ok hgrade with hreplayed | ⟨-, t, u, outcome, hinsert, htouch, hsettle⟩
  · exact Or.inl hreplayed
  · exact Or.inr (allDone_propagateResults ((h.insertGrading hinsert).toLayered.resultsGrow
      (resultsGrow_touchLeaf htouch)) hsettle)

theorem allDone_work (hs : s.AllDone) (h : s.Coherent) {call : Call}
    (hwork : Worked now s s' call) : s'.AllDone := by
  cases hwork with
  | start hinsert =>
    obtain ⟨-, -, -, rfl⟩ := insertAttempt_eq_ok hinsert
    exact hs
  | startOn hinsert hresult hsettle =>
    exact allDone_propagateResults ((h.insertAttempt hinsert).toLayered.resultsGrow
      (resultsGrow_insertResult hresult)) hsettle
  | answer hadd hsettle => exact allDone_propagateResults (h.addAnswer hadd).toLayered hsettle
  | grade _ _ hgrade =>
    rcases allDone_gradeAnswer h hgrade with ⟨-, rfl⟩ | hdone
    · exact hs
    · exact hdone
  | gradeNew hadd hgrade =>
    rcases allDone_gradeAnswer (h.addAnswer hadd) hgrade with ⟨hgraded, -⟩ | hdone
    · rw [h.not_graded_of_addAnswer hadd] at hgraded
      exact absurd hgraded (by simp)
    · exact hdone
  | correct hsettle =>
    exact allDone_propagateResults ((h.toLayered.resultsGrow
      (resultsGrow_setEditRule s _ _)).resultsGrow (resultsGrow_setProgress _ _ _)) hsettle
  | settle hsettle => exact allDone_propagateResults h.toLayered hsettle

theorem allDone_call (hs : s.AllDone) (h : s.Coherent) {policy : RetryPolicy} {call : Call}
    {ids : IdSource} {reply : Reply}
    (hrun : (Call.run policy now call ids s).1 = .ok (reply, s')) : s'.AllDone := by
  cases Effect.of_run hrun with
  | nothing hsame => rwa [hsame]
  | insertGroup hinsert =>
    obtain ⟨-, rfl⟩ := insertGroup_eq_ok hinsert
    exact hs
  | reclose _ hreclosed hsettle => exact allDone_settleClosure (h.reclosed hreclosed).toLayered hsettle
  | resettle hsettle => exact allDone_settleClosure h.toLayered hsettle
  | deleteOrphans hdelete _ hsettle =>
    exact allDone_settleClosure (h.deleteRelation hdelete).toLayered hsettle
  | transition hrequest =>
    rcases request_settles hrequest with ⟨t, hreclosed, hsettle⟩ | ⟨t, hjoin, hsettle⟩
    · exact allDone_settleClosure (h.reclosed hreclosed).toLayered hsettle
    · exact allDone_settleClosure (h.rejoins hjoin).toLayered hsettle
  | appoint _ _ happointed => rw [happointed]; exact hs
  | insertItem hinsert =>
    obtain ⟨-, rfl⟩ := insertItem_eq_ok hinsert
    exact hs
  | link hparent hchild hreach hsettle =>
    exact allDone_settlePairs ((h.withLink _ hparent hchild hreach).toLayered.resultsGrow
      (resultsGrow_markResults _ _ _)) hsettle
  | unlink hsettle =>
    exact allDone_settlePairs ((h.withoutLink _ _).toLayered.resultsGrow
      (resultsGrow_markResults _ _ _)) hsettle
  | grant hgroup hitem hsettle =>
    exact allDone_settlePairs (h.insertGrant _ _ hgroup hitem).toLayered hsettle
  | revoke hsettle => exact allDone_settlePairs (h.eraseGrant _).toLayered hsettle
  | sweep hsweep =>
    obtain ⟨-, results, hvisible⟩ := sweep_eq_ok hsweep
    obtain ⟨gen, hgen⟩ := sweepPermissions_frame s now
    rw [hgen] at hvisible
    exact allDone_settleVisible (h.setGenerated gen).toLayered hvisible
  | work hwork => exact allDone_work hs h hwork

theorem allDone_empty : Store.empty.AllDone := by
  intro key r hr
  simp [Store.empty] at hr

theorem allDone_run (ids : IdSource) (clock : Timestamp) (policy : RetryPolicy)
    (steps : List Session.Step) : ((Session.start ids clock policy).run steps).committed.AllDone := by
  refine (Session.committed_run (P := fun s => s.Coherent ∧ s.AllDone)
    ⟨coherent_empty, allDone_empty⟩ ?_ ids clock policy steps).2
  intro policy now call ids s reply s' ⟨hcoherent, hs⟩ hrun
  exact ⟨hcoherent.call hrun, allDone_call hs hcoherent hrun⟩

end Store

namespace Session

open Store

/-- In every store that a run commits, every result is settled and the links are layered; the next
call does not stall, whatever it is. On a store whose links are layered, settling results ends with
what its rounds come to, and without a stall. -/
theorem results_settle (ids : IdSource) (clock : Timestamp) (policy : RetryPolicy)
    (steps : List Step) :
    ((start ids clock policy).run steps).committed.AllDone ∧
      ((start ids clock policy).run steps).committed.Layered ∧
      (∀ call n, (((start ids clock policy).run steps).perform call).1 ≠ .error (.stalled n)) ∧
      ∀ (t : Store) (now : Timestamp), t.Layered →
        Settles now .none t (t.propagateResults now) ∧
          ∀ n, t.propagateResults now ≠ .error (.stalled n) := by
  have hcoherent := coherent_run ids clock policy steps
  refine ⟨allDone_run ids clock policy steps, hcoherent.toLayered, fun call n h => ?_,
    fun t now ht => ⟨(ht.propagateResults now).1, unstalled_propagateResults ht now⟩⟩
  obtain ⟨hout, -⟩ := perform_error (idle_run (idle_start ids clock policy) steps) h
  exact unstalled_call hcoherent _ _ call _ n hout

end Session

end Courseware
