import Courseware.Proofs.Calls.Effects
import Courseware.Proofs.Closure
import Courseware.Proofs.Items

/-!
# Rows refer to rows

Whatever a row refers to is stored, and the links between items never close a cycle. This holds of
the empty store and is kept by every call, so it holds throughout every run (`coherent_run`).

Calls that do no work of participants change it in few ways (`Aside`): rows beside it are written, a
relation is deleted together with orphans, results are marked, and all results are settled. Settling
is the same thing in every call (`SettlesTo`).
-/

namespace Courseware

namespace Store

open Network

structure Coherent (s : Store) : Prop extends Layered s where
  memberships : ∀ k, s.memberships.contains k = true →
    s.groups.contains k.1 = true ∧ s.groups.contains k.2 = true
  grants : ∀ k, s.grants.contains k = true →
    s.groups.contains k.1 = true ∧ s.items.contains k.2.1 = true
  attempts : ∀ k, s.attempts.contains k = true → s.groups.contains k.1 = true
  results : ∀ key, s.results.contains key = true →
    s.attempts.contains (key.participant, key.attempt) = true ∧ s.items.contains key.item = true
  answers : ∀ id answer, s.answers.get? id = some answer →
    s.results.contains answer.result = true
  gradings : ∀ id, s.gradings.contains id = true → s.answers.contains id = true

theorem coherent_empty : Store.empty.Coherent := by
  constructor
  · constructor <;> intros <;> simp_all [Store.empty]
  all_goals intros; simp_all [Store.empty]

variable {s s' t : Store} {now : Timestamp}

/-! ### Writes -/

theorem Coherent.setGenerated (h : s.Coherent) (gen : Table Pair Generated) :
    { s with generated := gen }.Coherent :=
  ⟨h.toLayered.congr rfl rfl, h.memberships, h.grants, h.attempts, h.results, h.answers, h.gradings⟩

theorem Coherent.recomputeClosure (h : s.Coherent) : s.recomputeClosure.2.Coherent :=
  ⟨h.toLayered.congr rfl rfl, h.memberships, h.grants, h.attempts, h.results, h.answers, h.gradings⟩

theorem Coherent.rejoins (h : s.Coherent) (hjoin : s.Rejoins s') : s'.Coherent := by
  obtain ⟨⟨ms, n, rfl⟩, hfounded⟩ := hjoin
  refine ⟨h.toLayered.congr rfl rfl, fun k hk => ?_, h.grants, h.attempts, h.results, h.answers,
    h.gradings⟩
  rcases hfounded k hk with hk | hk
  · exact h.memberships k hk
  · exact hk

theorem Coherent.reclosed (h : s.Coherent) {change : ClosureChange}
    (hreclosed : Reclosed change s s') : s'.Coherent := by
  obtain ⟨t, hjoin, hclosure⟩ := hreclosed
  have hcoherent := (h.rejoins hjoin).recomputeClosure
  rwa [hclosure] at hcoherent

/-- Walks of active memberships do not leave the stored groups. -/
theorem Coherent.contains_of_walk (h : s.Coherent) {a d : GroupId} {e : Expiry}
    (hwalk : Walk s.activeNetwork a d e) (ha : s.groups.contains a = true) :
    s.groups.contains d = true := by
  cases hwalk with
  | stay => exact ha
  | step _ hlast =>
    obtain ⟨m, hm, -⟩ := get?_activeNetwork.1 hlast
    exact (h.memberships _ (Table.contains_of_get? hm)).2

theorem Coherent.resultsGrow (h : s.Coherent) (hgrow : s.ResultsGrow s') : s'.Coherent := by
  obtain ⟨⟨rs, rfl⟩, hkept, hfounded⟩ := hgrow
  refine ⟨h.toLayered.congr rfl rfl, h.memberships, h.grants, h.attempts, fun key hkey => ?_,
    fun id answer ha => hkept _ (h.answers id answer ha), h.gradings⟩
  rcases hfounded key hkey with hkey | hkey
  · exact h.results key hkey
  · exact hkey

/-! ### Settling -/

/-- Access was worked out, results were marked for it, and all results were settled. -/
def SettlesTo (now : Timestamp) (s s' : Store) : Prop :=
  ∃ gen pairs outcome,
    ({ s with generated := gen }.markBelow now pairs).propagateResults now = .ok (outcome, s')

theorem settlesTo_propagateResults {outcome : ResultOutcome}
    (h : s.propagateResults now = .ok (outcome, s')) : SettlesTo now s s' :=
  ⟨s.generated, [], outcome, h⟩

theorem settlesTo_settlePairs {pairs : List Pair} {outcome : PermissionOutcome}
    (h : s.settlePairs pairs now = .ok (outcome, s')) : SettlesTo now s s' := by
  obtain ⟨-, results, hvisible⟩ := settlePairs_eq_ok h
  obtain ⟨gen, hgen⟩ := propagatePermissions_frame s (.ofKeys pairs) now
  rw [hgen] at hvisible
  exact ⟨gen, _, results, hvisible⟩

theorem settlesTo_settleClosure {change : ClosureChange}
    (h : s.settleClosure change now = .ok s') : SettlesTo now s s' := by
  obtain ⟨outcome, hpairs⟩ := settleClosure_eq_ok h
  exact settlesTo_settlePairs hpairs

theorem settlesTo_sweep {outcome : PermissionOutcome} (h : s.sweep now = .ok (outcome, s')) :
    SettlesTo now s s' := by
  obtain ⟨-, results, hvisible⟩ := sweep_eq_ok h
  obtain ⟨gen, hgen⟩ := sweepPermissions_frame s now
  rw [hgen] at hvisible
  exact ⟨gen, _, results, hvisible⟩

/-- What working out access, marking and settling results keep. -/
theorem SettlesTo.keeps {P : Store → Prop} (h : SettlesTo now s s') (hP : KeptBySettling now P)
    (hgen : ∀ u gen, P u → P { u with generated := gen })
    (hmark : ∀ u p, P u → P (u.markResults p .toBePropagated).2) (hs : P s) : P s' := by
  obtain ⟨gen, pairs, outcome, hok⟩ := h
  exact hP.propagateResults (markBelow_keeps hmark (hgen s gen hs) now pairs) hok

theorem SettlesTo.frame (h : SettlesTo now s s') :
    ∃ gen rs, s' = { s with generated := gen, results := rs } := by
  obtain ⟨gen, pairs, outcome, hok⟩ := h
  obtain ⟨rs, rfl⟩ := ((resultsGrow_markBelow _ now pairs).trans
    (resultsGrow_propagateResults hok)).frame
  exact ⟨gen, rs, rfl⟩

theorem Coherent.settlesTo (hs : s.Coherent) (h : SettlesTo now s s') : s'.Coherent := by
  obtain ⟨gen, pairs, outcome, hok⟩ := h
  exact ((hs.setGenerated gen).resultsGrow (resultsGrow_markBelow _ now pairs)).resultsGrow
    (resultsGrow_propagateResults hok)

theorem Coherent.sweep (hs : s.Coherent) {outcome : PermissionOutcome}
    (hsweep : s.sweep now = .ok (outcome, s')) : s'.Coherent :=
  hs.settlesTo (settlesTo_sweep hsweep)

/-! ### Groups -/

theorem Coherent.insertGroup (h : s.Coherent) {id : GroupId} {group : Group}
    (hinsert : s.insertGroup id group = .ok s') : s'.Coherent := by
  obtain ⟨-, rfl⟩ := insertGroup_eq_ok hinsert
  refine ⟨h.toLayered.congr rfl rfl, fun k hk => ?_, fun k hk => ?_, fun k hk => ?_, h.results, h.answers,
    h.gradings⟩
  · obtain ⟨h1, h2⟩ := h.memberships k hk
    simp [h1, h2]
  · obtain ⟨h1, h2⟩ := h.grants k hk
    simp [h1, h2]
  · simp [h.attempts k hk]

theorem Coherent.setManagers (h : s.Coherent) (managers : KeySet (GroupId × GroupId)) :
    { s with managers := managers }.Coherent :=
  ⟨h.toLayered.congr rfl rfl, h.memberships, h.grants, h.attempts, h.results, h.answers, h.gradings⟩

/-- What is left after a group is dropped does not refer to it. -/
theorem Coherent.dropGroup (h : s.Coherent) (id : GroupId) : (s.dropGroup id).Coherent := by
  have hgroup : ∀ g, s.groups.contains g = true → g ≠ id →
      (s.dropGroup id).groups.contains g = true :=
    fun _ hg hne => Table.contains_erase_iff.2 ⟨hg, hne⟩
  refine ⟨h.toLayered.congr rfl rfl, fun k hk => ?_, fun k hk => ?_, fun k hk => ?_, fun key hkey => ?_,
    fun id' answer ha => ?_, fun id' hid => ?_⟩
  · obtain ⟨m, hm, hne⟩ := Table.contains_filter_iff.1 hk
    obtain ⟨h1, h2⟩ := h.memberships k (Table.contains_of_get? hm)
    simp only [Bool.and_eq_true, decide_eq_true_eq] at hne
    exact ⟨hgroup _ h1 hne.1, hgroup _ h2 hne.2⟩
  · obtain ⟨grant, hgrant, hne⟩ := Table.contains_filter_iff.1 hk
    obtain ⟨h1, h2⟩ := h.grants k (Table.contains_of_get? hgrant)
    exact ⟨hgroup _ h1 (of_decide_eq_true hne), h2⟩
  · obtain ⟨attempt, hattempt, hne⟩ := Table.contains_filter_iff.1 hk
    exact hgroup _ (h.attempts k (Table.contains_of_get? hattempt)) (of_decide_eq_true hne)
  · obtain ⟨r, hr, hne⟩ := Table.contains_filter_iff.1 hkey
    obtain ⟨h1, h2⟩ := h.results key (Table.contains_of_get? hr)
    obtain ⟨attempt, hattempt⟩ := Table.contains_iff.1 h1
    exact ⟨Table.contains_filter_iff.2 ⟨attempt, hattempt, hne⟩, h2⟩
  · obtain ⟨ha, hne⟩ := Table.get?_filter_eq_some.1 ha
    obtain ⟨r, hr⟩ := Table.contains_iff.1 (h.answers id' answer ha)
    exact Table.contains_filter_iff.2 ⟨r, hr, hne⟩
  · obtain ⟨grading, hgrading, hne⟩ := Table.contains_filter_iff.1 hid
    obtain ⟨answer, ha⟩ := Table.contains_iff.1 (h.gradings id' (Table.contains_of_get? hgrading))
    rw [ha, Option.all_some] at hne
    exact Table.contains_filter_iff.2 ⟨answer, ha, hne⟩

theorem Coherent.deleteGroups (h : s.Coherent) (ids : List GroupId) :
    (s.deleteGroups ids).2.Coherent :=
  deleteGroups_keeps (fun _ id ht => ht.dropGroup id) h ids

theorem Coherent.deleteRelation (h : s.Coherent) {parent child : GroupId} {allowOrphans : Bool}
    {deletion : RelationDeletion}
    (hdelete : s.deleteRelation parent child allowOrphans = .ok (deletion, s')) : s'.Coherent := by
  rcases deleteRelation_eq_ok hdelete with ⟨-, -, rfl⟩ | ⟨hremoved, -⟩ | ⟨-, -, rfl, -⟩
  · exact h
  · exact h.reclosed (reclosed_deleteMembership hremoved)
  · exact (((h.rejoins (rejoins_deleteMembership s parent child)).recomputeClosure).deleteGroups
      _).recomputeClosure

theorem Coherent.applyRequest (h : s.Coherent) {r : RelationRequest}
    {outcome : TransitionOutcome} (happly : s.applyRequest r now = .ok (outcome, s')) :
    s'.Coherent := by
  obtain ⟨group, action, results, flipped, t, -, -, hmoves, hrest⟩ := applyRequest_eq_ok happly
  have hjoin := rejoins_moveChildren hmoves
  rcases hrest with ⟨-, hclosure⟩ | ⟨-, -, rfl⟩
  · exact h.reclosed ⟨t, hjoin, hclosure⟩
  · exact h.rejoins hjoin

/-! ### Items -/

theorem linkNetwork_withLink (s : Store) (parent child : ItemId) (link : Link) :
    (s.withLink parent child link).linkNetwork =
      s.linkNetwork.insert (parent, child) .never := by
  refine Table.ext_get? fun k => ?_
  rw [linkNetwork, withLink, linkNetwork, Table.get?_map, Table.get?_insert, Table.get?_insert,
    Table.get?_map]
  split <;> rfl

/-- A link closes no cycle unless its part already reaches the whole. -/
theorem Coherent.withLink (h : s.Coherent) {parent child : ItemId} (link : Link)
    (hparent : s.items.contains parent = true) (hchild : s.items.contains child = true)
    (hreach : s.linkNetwork.reaches child parent = false) :
    (s.withLink parent child link).Coherent := by
  have hno : ∀ e, ¬ Walk s.linkNetwork child parent e := by
    intro e hwalk
    rw [reaches_iff.2 ⟨e, hwalk⟩] at hreach
    exact absurd hreach (by simp)
  refine ⟨⟨fun k hk => ?_, fun a b e hlink hwalk => ?_⟩, h.memberships, h.grants, h.attempts,
    h.results, h.answers, h.gradings⟩
  · rw [Store.withLink, Table.contains_insert, Bool.or_eq_true, decide_eq_true_eq] at hk
    rcases hk with rfl | hk
    · exact ⟨hparent, hchild⟩
    · exact h.links k hk
  · rw [linkNetwork_withLink] at hwalk
    rw [Store.withLink, Table.contains_insert, Bool.or_eq_true, decide_eq_true_eq] at hlink
    rcases hlink with heq | hlink
    · obtain ⟨rfl, rfl⟩ := Prod.mk.inj heq
      rcases hwalk.of_insert with ⟨m, hback⟩ | ⟨⟨m, hback⟩, -⟩
      · exact hno m hback
      · exact hno m hback
    · rcases hwalk.of_insert with ⟨m, hback⟩ | ⟨⟨m, hto⟩, m', hfrom⟩
      · exact h.acyclic a b m hlink hback
      · rw [← contains_linkNetwork] at hlink
        obtain ⟨d, hd⟩ := Table.contains_iff.1 hlink
        obtain ⟨m'', hall⟩ := (Walk.step hfrom hd).trans hto
        exact hno m'' hall

theorem Coherent.withoutLink (h : s.Coherent) (parent child : ItemId) :
    (s.withoutLink parent child).Coherent := by
  have hsub : ∀ k, (s.withoutLink parent child).links.contains k = true →
      s.links.contains k = true := by
    intro k hk
    obtain ⟨link, hlink⟩ := Table.contains_iff.1 hk
    rw [Store.withoutLink, Table.get?_erase] at hlink
    split at hlink
    · simp at hlink
    · exact Table.contains_of_get? hlink
  refine ⟨⟨fun k hk => h.links k (hsub k hk), fun a b e hlink hwalk => ?_⟩, h.memberships,
    h.grants, h.attempts, h.results, h.answers, h.gradings⟩
  obtain ⟨m, hold⟩ : ∃ m, Walk s.linkNetwork b a m := hwalk.mono fun k d hk => by
    have hk' := Table.contains_of_get? hk
    rw [contains_linkNetwork] at hk'
    rw [← Table.contains_iff, contains_linkNetwork]
    exact hsub k hk'
  exact h.acyclic a b m (hsub _ hlink) hold

theorem Coherent.insertItem (h : s.Coherent) {id : ItemId} {item : Item}
    (hinsert : s.insertItem id item = .ok s') : s'.Coherent := by
  obtain ⟨-, rfl⟩ := insertItem_eq_ok hinsert
  refine ⟨⟨fun k hk => ?_, h.acyclic⟩, h.memberships, fun k hk => ?_, h.attempts,
    fun key hkey => ?_, h.answers, h.gradings⟩
  · obtain ⟨h1, h2⟩ := h.links k hk
    simp [h1, h2]
  · obtain ⟨h1, h2⟩ := h.grants k hk
    simp [h1, h2]
  · obtain ⟨h1, h2⟩ := h.results key hkey
    simp [h1, h2]

/-! ### Grants -/

theorem Coherent.insertGrant (h : s.Coherent) {group : GroupId} {item : ItemId} (giver : GroupId)
    (grant : Grant) (hgroup : s.groups.contains group = true)
    (hitem : s.items.contains item = true) :
    { s with grants := s.grants.insert (group, item, giver) grant }.Coherent := by
  refine ⟨h.toLayered.congr rfl rfl, h.memberships, fun k hk => ?_, h.attempts, h.results, h.answers,
    h.gradings⟩
  rw [Table.contains_insert, Bool.or_eq_true, decide_eq_true_eq] at hk
  rcases hk with rfl | hk
  · exact ⟨hgroup, hitem⟩
  · exact h.grants k hk

theorem Coherent.eraseGrant (h : s.Coherent) (k : GroupId × ItemId × GroupId) :
    { s with grants := s.grants.erase k }.Coherent := by
  refine ⟨h.toLayered.congr rfl rfl, h.memberships, fun k' hk => ?_, h.attempts, h.results, h.answers,
    h.gradings⟩
  obtain ⟨grant, hgrant⟩ := Table.contains_iff.1 hk
  rw [Table.get?_erase] at hgrant
  split at hgrant
  · simp at hgrant
  · exact h.grants k' (Table.contains_of_get? hgrant)

/-! ### Results -/

theorem Coherent.insertAttempt (h : s.Coherent) {participant : GroupId} {id : AttemptId}
    {attempt : Attempt} (hinsert : s.insertAttempt participant id attempt = .ok s') :
    s'.Coherent := by
  obtain ⟨-, hgroup, -, rfl⟩ := insertAttempt_eq_ok hinsert
  refine ⟨h.toLayered.congr rfl rfl, h.memberships, h.grants, fun k hk => ?_, fun key hkey => ?_,
    h.answers, h.gradings⟩
  · rw [Table.contains_insert, Bool.or_eq_true, decide_eq_true_eq] at hk
    rcases hk with rfl | hk
    · exact hgroup
    · exact h.attempts k hk
  · obtain ⟨h1, h2⟩ := h.results key hkey
    simp [h1, h2]

theorem Coherent.insertAnswer (h : s.Coherent) {id : AnswerId} {answer : Answer}
    (hinsert : s.insertAnswer id answer = .ok s') : s'.Coherent := by
  obtain ⟨-, hresult, rfl⟩ := insertAnswer_eq_ok hinsert
  refine ⟨h.toLayered.congr rfl rfl, h.memberships, h.grants, h.attempts, h.results,
    fun id' answer' ha => ?_, fun id' hid => ?_⟩
  · rw [Table.get?_insert] at ha
    split at ha
    · exact Option.some.inj ha ▸ hresult
    · exact h.answers id' answer' ha
  · simp [h.gradings id' hid]

theorem Coherent.addAnswer (h : s.Coherent) {policy : RetryPolicy} {ids : IdSource}
    {answer : Answer} {id : AnswerId}
    (hadd : (s.addAnswer policy ids answer now).1 = .ok (id, s')) : s'.Coherent := by
  obtain ⟨t, htouch, hinsert⟩ := addAnswer_eq_ok hadd
  exact (h.resultsGrow (resultsGrow_touchLeaf htouch)).insertAnswer hinsert

theorem Coherent.insertGrading (h : s.Coherent) {id : AnswerId} {grading : Grading}
    (hinsert : s.insertGrading id grading = .ok s') : s'.Coherent := by
  obtain ⟨hanswer, score, -, rfl⟩ := insertGrading_eq_ok hinsert
  refine ⟨h.toLayered.congr rfl rfl, h.memberships, h.grants, h.attempts, h.results, h.answers,
    fun id' hid => ?_⟩
  rw [Table.contains_insert, Bool.or_eq_true, decide_eq_true_eq] at hid
  rcases hid with rfl | hid
  · exact hanswer
  · exact h.gradings id' hid

theorem Coherent.gradeAnswer (h : s.Coherent) {id : AnswerId} {event : GradingEvent}
    {status : GradeStatus}
    (hgrade : s.gradeAnswer id event now = .ok (status, s')) : s'.Coherent := by
  rcases gradeAnswer_eq_ok hgrade with ⟨-, rfl⟩ | ⟨-, t, u, outcome, hinsert, htouch, hsettle⟩
  · exact h
  · exact ((h.insertGrading hinsert).resultsGrow (resultsGrow_touchLeaf htouch)).resultsGrow
      (resultsGrow_propagateResults hsettle)

theorem Coherent.work (h : s.Coherent) {call : Call} (hwork : Worked now s s' call) :
    s'.Coherent := by
  cases hwork with
  | start hinsert => exact h.insertAttempt hinsert
  | startOn hinsert hresult hsettle =>
    exact ((h.insertAttempt hinsert).resultsGrow (resultsGrow_insertResult hresult)).resultsGrow
      (resultsGrow_propagateResults hsettle)
  | answer hadd hsettle =>
    exact (h.addAnswer hadd).resultsGrow (resultsGrow_propagateResults hsettle)
  | grade _ _ hgrade => exact h.gradeAnswer hgrade
  | gradeNew hadd hgrade => exact (h.addAnswer hadd).gradeAnswer hgrade
  | correct hsettle =>
    exact ((h.resultsGrow (resultsGrow_setEditRule s _ _)).resultsGrow
      (resultsGrow_setProgress _ _ _)).resultsGrow (resultsGrow_propagateResults hsettle)
  | settle hsettle => exact h.resultsGrow (resultsGrow_propagateResults hsettle)

/-! ### Calls -/

/-- Rows are written, but none of the work of participants. -/
structure WorkKept (s t : Store) : Prop where
  results : t.results = s.results
  answers : t.answers = s.answers
  gradings : t.gradings = s.gradings

theorem workKept_rejoins (h : s.Rejoins t) : s.WorkKept t := by
  obtain ⟨⟨ms, n, rfl⟩, -⟩ := h
  exact ⟨rfl, rfl, rfl⟩

theorem workKept_reclosed {change : ClosureChange} (h : Reclosed change s t) : s.WorkKept t := by
  obtain ⟨u, hjoin, hclosure⟩ := h
  obtain rfl := congrArg Prod.snd hclosure
  have hkept := workKept_rejoins hjoin
  exact ⟨hkept.results, hkept.answers, hkept.gradings⟩

/-- What a call leaves that does no work. -/
inductive Aside (now : Timestamp) (s : Store) : Store → Prop
  | write {t : Store} (ht : t.Coherent) (hkept : s.WorkKept t) : Aside now s t
  | delete {parent child : GroupId} {allowOrphans : Bool} {deletion : RelationDeletion} {t : Store}
      (hdelete : s.deleteRelation parent child allowOrphans = .ok (deletion, t)) : Aside now s t
  | mark {t : Store} (hbefore : Aside now s t) (p : ResultKey → Bool) (progress : Progress) :
      Aside now s (t.markResults p progress).2
  | settle {t u : Store} (hbefore : Aside now s t) (hsettles : SettlesTo now t u) : Aside now s u

theorem Aside.coherent (hs : s.Coherent) (h : Aside now s t) : t.Coherent := by
  induction h with
  | write ht => exact ht
  | delete hdelete => exact hs.deleteRelation hdelete
  | mark _ p progress ih => exact ih.resultsGrow (resultsGrow_markResults _ p progress)
  | settle _ hsettles ih => exact ih.settlesTo hsettles

theorem Aside.reclose (hs : s.Coherent) {change : ClosureChange} (h : Reclosed change s t)
    (hsettle : t.settleClosure change now = .ok s') : Aside now s s' :=
  .settle (.write (hs.reclosed h) (workKept_reclosed h)) (settlesTo_settleClosure hsettle)

theorem Effect.work_or_aside (hs : s.Coherent) {call : Call} {reply : Reply}
    (h : Effect now s s' call reply) : Worked now s s' call ∨ Aside now s s' := by
  cases h with
  | work hwork => exact .inl hwork
  | nothing hsame =>
    subst hsame
    exact .inr (.write hs ⟨rfl, rfl, rfl⟩)
  | insertGroup hinsert =>
    have hs' := hs.insertGroup hinsert
    obtain ⟨-, rfl⟩ := insertGroup_eq_ok hinsert
    exact .inr (.write hs' ⟨rfl, rfl, rfl⟩)
  | reclose _ hreclosed hsettle => exact .inr (.reclose hs hreclosed hsettle)
  | resettle hsettle =>
    exact .inr (.settle (.write hs ⟨rfl, rfl, rfl⟩) (settlesTo_settleClosure hsettle))
  | deleteOrphans hdelete _ hsettle =>
    exact .inr (.settle (.delete hdelete) (settlesTo_settleClosure hsettle))
  | transition hrequest =>
    rcases request_settles hrequest with ⟨t, hreclosed, hsettle⟩ | ⟨t, hjoin, hsettle⟩
    · exact .inr (.reclose hs hreclosed hsettle)
    · exact .inr (.settle (.write (hs.rejoins hjoin) (workKept_rejoins hjoin))
        (settlesTo_settleClosure hsettle))
  | appoint _ _ happointed =>
    subst happointed
    exact .inr (.write (hs.setManagers _) ⟨rfl, rfl, rfl⟩)
  | insertItem hinsert =>
    have hs' := hs.insertItem hinsert
    obtain ⟨-, rfl⟩ := insertItem_eq_ok hinsert
    exact .inr (.write hs' ⟨rfl, rfl, rfl⟩)
  | @link _ parent child link _ hparent hchild hreach hsettle =>
    have hlinked : Aside now s (s.withLink parent child link) :=
      .write (hs.withLink link hparent hchild hreach) ⟨rfl, rfl, rfl⟩
    exact .inr ((hlinked.mark _ _).settle (settlesTo_settlePairs hsettle))
  | @unlink _ _ parent child _ hsettle =>
    have hunlinked : Aside now s (s.withoutLink parent child) :=
      .write (hs.withoutLink parent child) ⟨rfl, rfl, rfl⟩
    exact .inr ((hunlinked.mark _ _).settle (settlesTo_settlePairs hsettle))
  | grant hgroup hitem hsettle =>
    exact .inr (.settle (.write (hs.insertGrant _ _ hgroup hitem) ⟨rfl, rfl, rfl⟩)
      (settlesTo_settlePairs hsettle))
  | revoke hsettle =>
    exact .inr (.settle (.write (hs.eraseGrant _) ⟨rfl, rfl, rfl⟩) (settlesTo_settlePairs hsettle))
  | sweep hsweep =>
    exact .inr (.settle (.write hs ⟨rfl, rfl, rfl⟩) (settlesTo_sweep hsweep))

theorem Coherent.call (h : s.Coherent) {policy : RetryPolicy} {call : Call} {ids : IdSource}
    {reply : Reply} (hrun : (Call.run policy now call ids s).1 = .ok (reply, s')) :
    s'.Coherent := by
  rcases (Effect.of_run hrun).work_or_aside h with hwork | haside
  · exact h.work hwork
  · exact haside.coherent h

theorem coherent_run (ids : IdSource) (clock : Timestamp) (policy : RetryPolicy)
    (steps : List Session.Step) : ((Session.start ids clock policy).run steps).committed.Coherent :=
  Session.committed_run coherent_empty (fun _ _ _ _ _ _ _ h => h.call) ids clock policy steps

end Store

theorem Session.coherent_step {s : Session} (hs : s.Idle) (hcoherent : s.committed.Coherent)
    (step : Session.Step) : (s.step step).committed.Coherent := by
  rcases Session.committed_step hs step with heq | ⟨call, reply, -, hrun⟩
  · rwa [heq]
  · exact hcoherent.call hrun

end Courseware
