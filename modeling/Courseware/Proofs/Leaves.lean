import Courseware.Proofs.Answers
import Courseware.Proofs.Marks
import Courseware.Proofs.Writes

/-!
# The progress of a leaf

A result on an item without parts comes from its graded answers, and these only become more. As long
as nobody corrects the result, each recomputation therefore gets at least as far as what is stored,
and what is stored is never further than what the answers give (`Backed`). So the score, the count of
tasks and the latest activity never decrease, and what was validated is never validated later, in
whatever order answers come in and are graded (`leaf_advances`).
-/

namespace Courseware

/-- The result is not corrected; its values are at least as far as those before, if there were any,
and no further than what the answers give; and with full score it is validated. -/
structure Backed (answers : List (Timestamp × Option Score)) (old : Option Aggregate) (r : Result) :
    Prop where
  uncorrected : r.editRule = none
  advanced : ∀ a ∈ old, a.Advances r.values
  reached : r.values.Advances
    ((aggregateAnswers answers r.values.activityAt).corrected none none)
  validated : Score.full.atMost r.values.score = true → r.values.validatedAt.isSome = true

section Backed

variable {answers answers' : List (Timestamp × Option Score)} {old : Option Aggregate} {r r' : Result}

theorem Backed.mono (h : Backed answers old r) (hmore : CoveredBy answers answers') :
    Backed answers' old r :=
  ⟨h.uncorrected, h.advanced,
    h.reached.trans ((aggregateAnswers_advances hmore (le_refl _)).corrected _ _),
    h.validated⟩

theorem Backed.congr (h : Backed answers old r) (hvalues : r'.values = r.values)
    (hrule : r'.editRule = r.editRule) : Backed answers old r' := by
  obtain ⟨huncorrected, hadvanced, hreached, hvalidated⟩ := h
  rw [← hvalues] at hadvanced hreached hvalidated
  exact ⟨hrule.trans huncorrected, hadvanced, hreached, hvalidated⟩

theorem backed_fresh (answers : List (Timestamp × Option Score)) (now : Timestamp)
    (progress : Progress) : Backed answers none ⟨.fresh now, none, none, progress⟩ := by
  refine ⟨rfl, by simp, ⟨?_, by simp [Aggregate.fresh], ?_, ?_⟩, fun hfull => ?_⟩
  · have hclamped := Score.atMost_clamp (zero_atMost_aggregateAnswers answers now)
    rw [show Score.zero.clamp = .zero by decide] at hclamped
    rw [Aggregate.score_corrected]
    exact hclamped
  · change (0 : Int64) ≤ if answers.isEmpty then 0 else 1
    split <;> decide
  · exact le_activityAt_aggregateAnswers answers now
  · exact absurd (show Score.full.atMost .zero = true from hfull) (by decide)

/-- What the answers give is as far as what is stored, and they give no less afterwards. -/
theorem Backed.recomputed (h : Backed answers old r) {score : Score} (progress : Progress)
    (hscore : ((aggregateAnswers answers r.values.activityAt).corrected none none).score.stored? =
      some score) :
    Backed answers old { r with
      values := { (aggregateAnswers answers r.values.activityAt).corrected none none with score }
      progress } := by
  have hnumber := Score.isNaN_of_atMost_right h.reached.score
  have halike := Score.alike_stored hscore
  obtain ⟨hwritten, hread⟩ := Aggregate.advances_of_alike halike hnumber
  refine ⟨h.uncorrected, fun a ha => ((h.advanced a ha).trans h.reached).trans hwritten,
    hread.trans ?_, fun hfull => ?_⟩
  · exact (aggregateAnswers_advances (coveredBy_of_subset fun _ ha => ha)
      (le_activityAt_aggregateAnswers answers r.values.activityAt)).corrected none none
  · have hdue := Score.atMost_trans hfull hread.score
    rw [Aggregate.score_corrected] at hdue
    exact validatedAt_of_full (Score.full_atMost_of_clamp hdue)

end Backed

namespace Store

variable {s s' t : Store} {now : Timestamp} {key : ResultKey} {old : Option Aggregate}

/-! ### The answers of a result -/

/-- The dates of the answers of a result with their scores. -/
def answersTo (s : Store) (key : ResultKey) : List (Timestamp × Option Score) :=
  (s.gradedAnswers key).map fun a => (a.2.1.submittedAt, a.2.2.map (·.score))

theorem mem_answersTo {a : Timestamp × Option Score} :
    a ∈ s.answersTo key ↔ ∃ id answer, (s.answers.get? id = some answer ∧ answer.result = key) ∧
      a = (answer.submittedAt, (s.gradings.get? id).map (·.score)) := by
  rw [answersTo, List.mem_map]
  constructor
  · rintro ⟨⟨id, answer, grading⟩, hmem, rfl⟩
    obtain ⟨⟨k, v⟩, hrow, rfl⟩ := List.mem_map.1 hmem
    obtain ⟨hanswer, hgrading, -⟩ := get?_answersByDate.1 (Table.mem_toList_iff.1 hrow)
    exact ⟨_, _, hanswer, by rw [hgrading]⟩
  · rintro ⟨id, answer, hanswer, rfl⟩
    refine ⟨(id, answer, s.gradings.get? id), List.mem_map.2 ⟨((answer.submittedAt, id), _), ?_, rfl⟩, rfl⟩
    exact Table.mem_toList_iff.2 (get?_answersByDate.2 ⟨hanswer, rfl, rfl⟩)

/-- Answers that are kept, with the gradings that they have, are covered. -/
theorem coveredBy_answersTo
    (hanswers : ∀ id answer, s.answers.get? id = some answer → answer.result = key →
      t.answers.get? id = some answer ∧
        ∀ grading, s.gradings.get? id = some grading → t.gradings.get? id = some grading) :
    CoveredBy (s.answersTo key) (t.answersTo key) := by
  intro a ha
  obtain ⟨id, answer, ⟨hanswer, hresult⟩, rfl⟩ := mem_answersTo.1 ha
  obtain ⟨hkept, hgradings⟩ := hanswers id answer hanswer hresult
  refine ⟨_, mem_answersTo.2 ⟨id, answer, ⟨hkept, hresult⟩, rfl⟩, rfl, fun score hscore => ?_⟩
  obtain ⟨grading, hgrading, rfl⟩ := Option.map_eq_some_iff.1 hscore
  exact Option.map_eq_some_iff.2 ⟨grading, hgradings grading hgrading, rfl⟩

/-- No link leads from the item. -/
def IsLeaf (s : Store) (item : ItemId) : Prop := ∀ part, s.links.contains (item, part) = false

instance (s : Store) (item : ItemId) : Decidable (s.IsLeaf item) :=
  decidable_of_iff (∀ k ∈ s.links.keys, k.1 ≠ item) (by
    constructor
    · intro h part
      rw [← Bool.not_eq_true]
      exact fun hlink => h _ (Table.mem_keys.2 hlink) rfl
    · intro h k hk heq
      have hlink := Table.mem_keys.1 hk
      rw [show k = (item, k.2) from Prod.ext heq rfl, h k.2] at hlink
      exact absurd hlink (by simp))

/-- Without parts and without a correction, the values of a result are those that its answers give. -/
theorem dueValues_of_isLeaf (hitem : s.items.contains key.item = true) (hleaf : s.IsLeaf key.item)
    {r : Result} (hrule : r.editRule = none) :
    s.dueValues key r =
      (aggregateAnswers (s.answersTo key) r.values.activityAt).corrected none none := by
  obtain ⟨item, hget⟩ := Table.contains_iff.1 hitem
  have hparts : s.partsOf key.item = [] := by
    refine List.eq_nil_iff_forall_not_mem.2 fun p hp => ?_
    have hlink := Table.contains_of_get? (mem_partsOf.1 hp).1
    rw [hleaf p.1] at hlink
    exact absurd hlink (by simp)
  rw [dueValues, hrule, Aggregate.score_corrected, Aggregate.score_corrected, baseValues_eq hget,
    hparts, if_pos List.isEmpty_nil, answersTo]

/-! ### Writes -/

/-- The result is backed by its answers, and it is there if it was before. -/
structure Secured (s : Store) (old : Option Aggregate) (key : ResultKey) : Prop where
  stored : old.isSome = true → s.results.contains key = true
  backed : ∀ r, s.results.get? key = some r → Backed (s.answersTo key) old r

theorem Secured.workKept (h : s.Secured old key) (hkept : s.WorkKept t) : t.Secured old key := by
  obtain ⟨hresults, hanswers, hgradings⟩ := hkept
  have hsame : t.answersTo key = s.answersTo key := by
    rw [answersTo, answersTo, gradedAnswers, gradedAnswers, hanswers, hgradings]
  refine ⟨fun hold => hresults ▸ h.stored hold, fun r hr => ?_⟩
  rw [hsame]
  exact h.backed r (hresults ▸ hr)

theorem Secured.setProgress (h : s.Secured old key) (k : ResultKey) (progress : Progress) :
    (s.setProgress k progress).Secured old key := by
  refine ⟨fun hold => (resultsGrow_setProgress s k progress).kept key (h.stored hold), fun r' hr' => ?_⟩
  rcases get?_setProgress hr' with ⟨-, r, hr, rfl⟩ | ⟨-, hr⟩
  · exact (h.backed r hr).congr rfl rfl
  · exact h.backed r' hr

/-- A result that is new was not there before. -/
theorem Secured.insertResult (h : s.Secured old key) {k : ResultKey} {progress : Progress}
    {created : Bool} (hinsert : s.insertResult k progress now = .ok (created, s')) :
    s'.Secured old key := by
  refine ⟨fun hold => (resultsGrow_insertResult hinsert).kept key (h.stored hold), fun r' hr' => ?_⟩
  rcases insertResult_eq_ok hinsert with ⟨-, -, rfl⟩ | ⟨hnew, -, -, -, rfl⟩
  · exact h.backed r' hr'
  · rw [Table.get?_insert] at hr'
    split at hr'
    · rename_i heq
      subst heq
      obtain rfl := Option.some.inj hr'
      cases old with
      | none => exact backed_fresh _ now progress
      | some a => exact absurd (hnew.symm.trans (h.stored rfl)) (by simp)
    · exact h.backed r' hr'

theorem Secured.markResults (h : s.Secured old key) (p : ResultKey → Bool) (progress : Progress) :
    (s.markResults p progress).2.Secured old key := by
  refine ⟨fun hold => (resultsGrow_markResults s p progress).kept key (h.stored hold), fun r' hr' => ?_⟩
  obtain ⟨r, hr, hkeeps, -⟩ := get?_markResults hr'
  exact (h.backed r hr).congr hkeeps.values hkeeps.editRule

theorem Secured.recomputeResult (hs : s.Coherent) (hleaf : s.IsLeaf key.item)
    (h : s.Secured old key) {k : ResultKey} {r : Result} (hr : s.results.get? k = some r)
    (hok : s.recomputeResult k r = .ok s') : s'.Secured old key := by
  refine ⟨fun hold => (resultsGrow_recomputeResult hok).kept key (h.stored hold), fun r' hr' => ?_⟩
  obtain ⟨score, rs, hscore, rfl, hrow, hothers⟩ := rows_recomputeResult hr hok
  by_cases hkey : k = key
  · subst hkey
    obtain rfl := Option.some.inj (hrow.symm.trans hr')
    have hbacked := h.backed r hr
    have hdue := dueValues_of_isLeaf (hs.results k (Table.contains_of_get? hr)).2 hleaf
      hbacked.uncorrected
    rw [hdue] at hscore
    simp only [hdue]
    exact hbacked.recomputed _ hscore
  · exact h.backed r' ((hothers key hkey).symm.trans hr')

/-- More answers, or more of them graded, back a result as well. -/
theorem Secured.more (h : s.Secured old key) (hresults : t.results = s.results)
    (hmore : CoveredBy (s.answersTo key) (t.answersTo key)) : t.Secured old key :=
  ⟨fun hold => hresults ▸ h.stored hold, fun r hr => (h.backed r (hresults ▸ hr)).mono hmore⟩

theorem Secured.touchLeaf (h : s.Secured old key) {k : ResultKey}
    (htouch : s.touchLeaf k now = .ok t) : t.Secured old key := by
  obtain ⟨created, u, hinsert, rfl⟩ := touchLeaf_eq_ok htouch
  split
  · exact h.insertResult hinsert
  · exact (h.insertResult hinsert).setProgress k _

theorem Secured.addAnswer (h : s.Secured old key) {policy : RetryPolicy} {ids : IdSource}
    {answer : Answer} {id : AnswerId}
    (hadd : (s.addAnswer policy ids answer now).1 = .ok (id, t)) : t.Secured old key := by
  obtain ⟨u, htouch, hinsert⟩ := addAnswer_eq_ok hadd
  obtain ⟨hnew, -, rfl⟩ := insertAnswer_eq_ok hinsert
  refine (h.touchLeaf htouch).more rfl (coveredBy_answersTo fun id' other hother _ => ⟨?_, fun _ h => h⟩)
  rw [Table.get?_insert_of_contains answer hnew (Table.contains_of_get? hother), hother]

theorem Secured.insertGrading (h : s.Secured old key) {id : AnswerId} {grading : Grading}
    (hnew : s.gradings.contains id = false) (hinsert : s.insertGrading id grading = .ok t) :
    t.Secured old key := by
  obtain ⟨-, score, -, rfl⟩ := insertGrading_eq_ok hinsert
  refine h.more rfl (coveredBy_answersTo fun id' other hother _ => ⟨hother, fun g hg => ?_⟩)
  rw [Table.get?_insert_of_contains _ hnew (Table.contains_of_get? hg), hg]

/-- A correction of another result. -/
theorem Secured.setEditRule (h : s.Secured old key) {k : ResultKey}
    (rule : Option (EditRule × Score)) (hother : k ≠ key) :
    (s.setEditRule k rule).2.Secured old key := by
  refine ⟨fun hold => (resultsGrow_setEditRule s k rule).kept key (h.stored hold), fun r hr => ?_⟩
  rw [Store.setEditRule, Table.get?_modify, if_neg hother] at hr
  exact h.backed r hr

/-- A group takes with it only what belongs to it as a participant. -/
theorem Secured.dropGroup (h : (old.isSome = true → s.groups.contains key.participant = true) →
      s.Secured old key) (id : GroupId)
    (hkept : old.isSome = true → (s.dropGroup id).groups.contains key.participant = true) :
    (s.dropGroup id).Secured old key := by
  have hstays : old.isSome = true → s.groups.contains key.participant = true ∧
      key.participant ≠ id := fun hold => Table.contains_erase_iff.1 (hkept hold)
  have hs := h fun hold => (hstays hold).1
  refine ⟨fun hold => ?_, fun r hr => ?_⟩
  · obtain ⟨r, hr⟩ := Table.contains_iff.1 (hs.stored hold)
    exact Table.contains_filter_iff.2 ⟨r, hr, decide_eq_true (hstays hold).2⟩
  · obtain ⟨hr, hne⟩ := Table.get?_filter_eq_some.1 hr
    refine (hs.backed r hr).mono (coveredBy_answersTo fun id' answer hanswer hresult => ?_)
    refine ⟨Table.get?_filter_eq_some.2 ⟨hanswer, ?_⟩, fun grading hgrading =>
      Table.get?_filter_eq_some.2 ⟨hgrading, ?_⟩⟩
    · rw [hresult]
      exact hne
    · rw [hanswer, Option.all_some, hresult]
      exact hne

/-! ### Settling -/

theorem secured_followed (now : Timestamp) (old : Option Aggregate) (key : ResultKey) :
    Followed now fun s _ => s.Coherent ∧ s.IsLeaf key.item ∧ s.Secured old key where
  mono h _ := h
  passUp h hok := by
    obtain ⟨hs, hleaf, hsecured⟩ := h
    have hgrow := (resultsGrow_keptBySettling now _).passUp (.refl _) hok
    refine ⟨hs.resultsGrow hgrow, ?_, passUp_keeps (P := fun t => t.Secured old key)
      (fun ht => ht.setProgress _ _) (fun _ _ _ _ ht => ht.setProgress _ _)
      (fun _ _ _ _ _ _ ht _ hinsert => ht.insertResult hinsert) hsecured hok⟩
    obtain ⟨rs, rfl⟩ := hgrow.frame
    exact hleaf
  recomputeResult h hr _ hok := by
    obtain ⟨hs, hleaf, hsecured⟩ := h
    have hgrow := resultsGrow_recomputeResult hok
    refine ⟨hs.resultsGrow hgrow, ?_, hsecured.recomputeResult hs hleaf hr hok⟩
    obtain ⟨rs, rfl⟩ := hgrow.frame
    exact hleaf

theorem Secured.settlesTo (hs : s.Coherent) (h : s.Secured old key)
    (hsettles : SettlesTo now s s') (hleaf : s'.IsLeaf key.item) : s'.Secured old key := by
  have hlinks : s'.links = s.links := by
    obtain ⟨gen, rs, rfl⟩ := hsettles.frame
    rfl
  rw [IsLeaf, hlinks] at hleaf
  obtain ⟨gen, pairs, outcome, hok⟩ := hsettles
  have hgrow := resultsGrow_markBelow { s with generated := gen } now pairs
  have hcoherent := (hs.setGenerated gen).resultsGrow hgrow
  have hgen : { s with generated := gen }.IsLeaf key.item ∧
      { s with generated := gen }.Secured old key := ⟨hleaf, h.workKept ⟨rfl, rfl, rfl⟩⟩
  have hmarked := markBelow_keeps (P := fun u => u.IsLeaf key.item ∧ u.Secured old key)
    (fun u p hu => ⟨hu.1, hu.2.markResults p _⟩) hgen now pairs
  exact ((secured_followed now old key).propagateResults
    (hcoherent.toLayered.propagateResults now).1 ⟨hcoherent, hmarked⟩ hok).2.2

/-! ### Calls -/

theorem Secured.gradeAnswer (hs : s.Coherent) (h : s.Secured old key) {id : AnswerId}
    {event : GradingEvent} {status : GradeStatus}
    (hgrade : s.gradeAnswer id event now = .ok (status, s')) (hleaf : s'.IsLeaf key.item) :
    s'.Secured old key := by
  rcases gradeAnswer_eq_ok hgrade with ⟨-, rfl⟩ | ⟨hnew, t, u, outcome, hinsert, htouch, hsettle⟩
  · exact h
  · exact ((h.insertGrading hnew hinsert).touchLeaf htouch).settlesTo
      ((hs.insertGrading hinsert).resultsGrow (resultsGrow_touchLeaf htouch))
      (settlesTo_propagateResults hsettle) hleaf

theorem Secured.insertAttempt (h : s.Secured old key) {participant : GroupId} {id : AttemptId}
    {attempt : Attempt} (hinsert : s.insertAttempt participant id attempt = .ok t) :
    t.Secured old key := by
  obtain ⟨-, -, -, rfl⟩ := insertAttempt_eq_ok hinsert
  exact h.workKept ⟨rfl, rfl, rfl⟩

theorem Secured.work (hs : s.Coherent) (h : s.Secured old key) {call : Call}
    (hwork : Worked now s s' call) (hleaf : s'.IsLeaf key.item)
    (hrule : ∀ rule, call ≠ .setEditRule key rule) : s'.Secured old key := by
  cases hwork with
  | start hinsert => exact h.insertAttempt hinsert
  | startOn hinsert hresult hsettle =>
    exact ((h.insertAttempt hinsert).insertResult hresult).settlesTo
      ((hs.insertAttempt hinsert).resultsGrow (resultsGrow_insertResult hresult))
      (settlesTo_propagateResults hsettle) hleaf
  | answer hadd hsettle =>
    exact (h.addAnswer hadd).settlesTo (hs.addAnswer hadd) (settlesTo_propagateResults hsettle) hleaf
  | grade _ _ hgrade => exact h.gradeAnswer hs hgrade hleaf
  | gradeNew hadd hgrade => exact (h.addAnswer hadd).gradeAnswer (hs.addAnswer hadd) hgrade hleaf
  | @correct k rule _ hsettle =>
    have hother : k ≠ key := by
      rintro rfl
      exact hrule rule rfl
    exact ((h.setEditRule rule hother).setProgress k _).settlesTo
      ((hs.resultsGrow (resultsGrow_setEditRule s k rule)).resultsGrow
        (resultsGrow_setProgress _ k _)) (settlesTo_propagateResults hsettle) hleaf
  | settle hsettle => exact h.settlesTo hs (settlesTo_propagateResults hsettle) hleaf

theorem Secured.deleteRelation (h : s.Secured old key) {parent child : GroupId}
    {allowOrphans : Bool} {deletion : RelationDeletion}
    (hdelete : s.deleteRelation parent child allowOrphans = .ok (deletion, t))
    (hkept : old.isSome = true → t.groups.contains key.participant = true) :
    t.Secured old key := by
  rcases deleteRelation_eq_ok hdelete with ⟨-, -, rfl⟩ | ⟨hremoved, -⟩ | ⟨-, -, rfl, -⟩
  · exact h
  · exact h.workKept (workKept_reclosed (reclosed_deleteMembership hremoved))
  · have hleft := deleteGroups_keeps
      (P := fun u => (old.isSome = true → u.groups.contains key.participant = true) →
        u.Secured old key)
      (fun _ group hu => Secured.dropGroup hu group)
      (fun _ => h.workKept (workKept_reclosed (@reclosed_deleteMembership s _ parent child _ rfl)))
      deletion.deletedGroups
    exact (hleft hkept).workKept ⟨rfl, rfl, rfl⟩

theorem Secured.aside (hs : s.Coherent) (h : s.Secured old key) (haside : Aside now s t)
    (hleaf : t.IsLeaf key.item)
    (hkept : old.isSome = true → t.groups.contains key.participant = true) :
    t.Secured old key := by
  induction haside with
  | write _ hwork => exact h.workKept hwork
  | delete hdelete => exact h.deleteRelation hdelete hkept
  | mark _ p progress ih => exact (ih hleaf hkept).markResults p progress
  | settle hbefore hsettles ih =>
    obtain ⟨gen, rs, rfl⟩ := hsettles.frame
    exact (ih hleaf hkept).settlesTo (hbefore.coherent hs) hsettles hleaf

theorem Secured.call (hs : s.Coherent) (h : s.Secured old key) {policy : RetryPolicy} {call : Call}
    {ids : IdSource} {reply : Reply} (hrun : (Call.run policy now call ids s).1 = .ok (reply, s'))
    (hleaf : s'.IsLeaf key.item) (hrule : ∀ rule, call ≠ .setEditRule key rule)
    (hkept : old.isSome = true → s'.groups.contains key.participant = true) :
    s'.Secured old key := by
  rcases (Effect.of_run hrun).work_or_aside hs with hwork | haside
  · exact h.work hs hwork hleaf hrule
  · exact h.aside hs haside hleaf hkept

end Store

/-! ### Runs -/

namespace Session

variable {key : ResultKey}

/-- After the step the item of the result has no parts, and the step does not correct the result. -/
def KeepsLeaf (key : ResultKey) (s : Session) (step : Step) : Prop :=
  (s.step step).committed.IsLeaf key.item ∧
    match step with
    | .call (.setEditRule k _) => k ≠ key
    | _ => True

/-- And its participant is there. -/
def KeepsProgress (key : ResultKey) (s : Session) (step : Step) : Prop :=
  KeepsLeaf key s step ∧ (s.step step).committed.groups.contains key.participant = true

instance (s : Session) (step : Step) : Decidable (KeepsLeaf key s step) := by
  unfold KeepsLeaf
  exact @instDecidableAnd _ _ _ (by split <;> infer_instance)

instance (s : Session) (step : Step) : Decidable (KeepsProgress key s step) :=
  inferInstanceAs (Decidable (_ ∧ _))

theorem secured_step {s : Session} (hs : s.Idle) (hcoherent : s.committed.Coherent)
    {old : Option Aggregate} (h : s.committed.Secured old key) {step : Step}
    (hleaf : KeepsLeaf key s step)
    (hkept : old.isSome = true → (s.step step).committed.groups.contains key.participant = true) :
    (s.step step).committed.Secured old key := by
  rcases committed_step hs step with heq | ⟨call, reply, rfl, hrun⟩
  · rwa [heq]
  · refine h.call hcoherent hrun hleaf.1 (fun rule hcall => ?_) hkept
    subst hcall
    exact hleaf.2 rfl

theorem secured_run {s : Session} (hs : s.Idle) (hcoherent : s.committed.Coherent)
    {old : Option Aggregate} (h : s.committed.Secured old key) {steps : List Step}
    (hkeeps : s.Along (fun t step => KeepsLeaf key t step ∧
      (old.isSome = true → (t.step step).committed.groups.contains key.participant = true)) steps) :
    (s.run steps).committed.Secured old key := by
  refine (run_induction (I := fun t => t.committed.Coherent ∧ t.committed.Secured old key) ?_ hs
    ⟨hcoherent, h⟩ hkeeps).2
  intro t step ht hI hstep
  exact ⟨coherent_step ht hI.1 step, secured_step ht hI.1 hI.2 hstep.1 hstep.2⟩

/-- The progress of a leaf never goes back, in any run that starts with an empty store: as long as the
item of a result has no parts, nobody corrects the result and its participant is not deleted, the score,
the count of tasks and the latest activity do not decrease, what is validated stays so and is validated
no later, and with a score of 100 the result is validated and stays so. -/
theorem leaf_advances (ids : IdSource) (clock : Timestamp) (policy : RetryPolicy)
    {before after : List Step} {r : Result}
    (hbefore : (start ids clock policy).Along (KeepsLeaf key) before)
    (hr : ((start ids clock policy).run before).committed.results.get? key = some r)
    (hafter : ((start ids clock policy).run before).Along (KeepsProgress key) after) :
    ∃ r', ((start ids clock policy).run (before ++ after)).committed.results.get? key = some r' ∧
      r.values.Advances r'.values ∧
      (Score.full.atMost r.values.score = true →
        Score.full.atMost r'.values.score = true ∧ r'.values.validatedAt.isSome = true) := by
  have hidle := idle_run (idle_start ids clock policy) before
  have hcoherent := Store.coherent_run ids clock policy before
  have hempty : Store.empty.Secured none key :=
    ⟨fun hold => absurd hold (by simp), fun r hr => by simp [Store.empty] at hr⟩
  have hsecured : ((start ids clock policy).run before).committed.Secured none key :=
    secured_run (idle_start ids clock policy) Store.coherent_empty hempty
      (hbefore.mono fun _ _ hstep => ⟨hstep, fun hold => absurd hold (by simp)⟩)
  have hbacked := hsecured.backed r hr
  -- From here on the values that the result has by now are the ones to keep.
  have hnow : ((start ids clock policy).run before).committed.Secured (some r.values) key := by
    refine ⟨fun _ => Table.contains_of_get? hr, fun r' hr' => ?_⟩
    obtain rfl := Option.some.inj (hr.symm.trans hr')
    refine ⟨hbacked.uncorrected, fun a ha => ?_, hbacked.reached, hbacked.validated⟩
    obtain rfl := Option.some.inj ha
    exact .refl hbacked.reached.isNaN_left
  have hlater := secured_run hidle hcoherent hnow
    (hafter.mono fun _ _ hstep => ⟨hstep.1, fun _ => hstep.2⟩)
  obtain ⟨r', hr'⟩ := Table.contains_iff.1 (hlater.stored rfl)
  have hbacked' := hlater.backed r' hr'
  have hadvances := hbacked'.advanced r.values rfl
  rw [run_append]
  refine ⟨r', hr', hadvances, fun hfull => ?_⟩
  have hfull' := Score.atMost_trans hfull hadvances.score
  exact ⟨hfull', hbacked'.validated hfull'⟩

/-- A user answers twice; the later answer gets full score. -/
def laterGraded : List Step :=
  [ .call (.createGroup 1 ⟨"", .user, true, none, none, none⟩),
    .call (.createItem 9 .plain),
    .call (.createItem 10 .plain),
    .call (.createLink 9 10 .plain),
    .call (.createAttempt 1 (some 10) none),
    .call (.submitAnswer ⟨1, 0, 10⟩ 1 "x"),
    .setClock ⟨5⟩,
    .call (.submitAnswer ⟨1, 0, 10⟩ 1 "y"),
    .call (.recordGrade ⟨⟨1, 0, 10⟩, some 8, .full, .zero⟩) ]

/-- The earlier answer is graded after it, first refused and then with score 0. -/
def earlierGraded : List Step :=
  [ .setClock .zero,
    .call (.recordGrade ⟨⟨1, 0, 10⟩, some 7, ⟨0x7ff8000000000000⟩, .zero⟩),
    .call (.recordGrade ⟨⟨1, 0, 10⟩, some 7, .zero, .zero⟩),
    .call .sweep ]

theorem leaf_advances_earlierGraded :
    ∃ r', ((start (.ofList [7, 8]) .zero .standard).run
        (laterGraded ++ earlierGraded)).committed.results.get? ⟨1, 0, 10⟩ = some r' ∧
      Aggregate.Advances ⟨.full, some ⟨5⟩, some ⟨5⟩, 1, ⟨5⟩⟩ r'.values := by
  have hbefore : (start (.ofList [7, 8]) .zero .standard).Along (KeepsLeaf ⟨1, 0, 10⟩) laterGraded := by
    decide +kernel
  have hafter : ((start (.ofList [7, 8]) .zero .standard).run laterGraded).Along
      (KeepsProgress ⟨1, 0, 10⟩) earlierGraded := by
    decide +kernel
  have hr : ((start (.ofList [7, 8]) .zero .standard).run laterGraded).committed.results.get?
      ⟨1, 0, 10⟩ = some ⟨⟨.full, some ⟨5⟩, some ⟨5⟩, 1, ⟨5⟩⟩, none, none, .done⟩ := by
    decide +kernel
  obtain ⟨r', hr', hadvances, -⟩ := leaf_advances (.ofList [7, 8]) .zero .standard hbefore hr hafter
  exact ⟨r', hr', hadvances⟩

end Session

end Courseware
