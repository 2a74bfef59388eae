import Courseware.Proofs.Linking
import Courseware.Proofs.Writes

/-!
# Results are what they are due

As long as items are linked only while there are no attempts, attempts are started only below
stored ones, and no call names a result on what has a part that its attempt was started for
(`Prepared`), every result is what it is due after every call (`allConsistent_run`). What a call
writes leaves each result as it is due or makes it due to be recomputed (`Accounted`), and settling
then loses no change.
-/

namespace Courseware

namespace Store

variable {s s' t : Store} {now : Timestamp} {key : ResultKey}

/-- What a call has to keep to: links are made before there are attempts, attempts are started below
stored ones, and answers and gradings are not for a result on what has a part that its attempt was
started for. -/
def Prepared (s : Store) : Call → Prop
  | .createLink .. => s.attempts.isEmpty = true
  | .createAttempt participant _ parent =>
    ∀ above ∈ parent, s.attempts.contains (participant, above) = true
  | .submitAnswer key .. => s.Aligned key
  | .recordGrade event => s.Aligned event.result
  | _ => True

instance decidablePrepared (s : Store) : ∀ call, Decidable (s.Prepared call)
  | .createLink .. => inferInstanceAs (Decidable (_ = true))
  | .createAttempt .. => inferInstanceAs (Decidable (∀ above ∈ _, _ = true))
  | .submitAnswer key .. => inferInstanceAs (Decidable (s.Aligned key))
  | .recordGrade event => inferInstanceAs (Decidable (s.Aligned event.result))
  | .createGroup .. | .createRelation .. | .createRelations .. | .deleteRelation ..
  | .transition .. | .setManager .. | .createItem .. | .deleteLink .. | .grant .. | .revoke ..
  | .sweep | .setEditRule .. | .propagateResults => .isTrue trivial

/-! ### Attempts and their roots -/

/-- Attempts are below stored ones, and no attempt was started for a part of what it has a result
on. -/
structure Rooted (s : Store) : Prop extends Grounded s where
  parents : ∀ k attempt, s.attempts.get? k = some attempt →
    ∀ above ∈ attempt.parent, s.attempts.contains (k.1, above) = true
  aligned : ∀ key, s.results.contains key = true → s.Aligned key

theorem Rooted.setResults (hs : s.Rooted) {rs : Table ResultKey Result}
    (ht : { s with results := rs }.Grounded)
    (haligned : ∀ key, rs.contains key = true →
      s.results.contains key = true ∨ s.Aligned key) : { s with results := rs }.Rooted := by
  refine ⟨ht, hs.parents, fun key hkey => ?_⟩
  rcases haligned key hkey with hstored | hnew
  · exact hs.aligned key hstored
  · exact hnew

theorem Rooted.setProgress (hs : s.Rooted) (k : ResultKey) (progress : Progress) :
    (s.setProgress k progress).Rooted := by
  refine hs.setResults (hs.toGrounded.setProgress k progress) fun key hkey => Or.inl ?_
  rwa [Table.contains_modify] at hkey

theorem Rooted.insertResult (hs : s.Rooted) {k : ResultKey} {progress : Progress} {created : Bool}
    (haligned : s.Aligned k) (hinsert : s.insertResult k progress now = .ok (created, s')) :
    s'.Rooted := by
  have hs' := hs.toGrounded.insertResult hinsert
  rcases insertResult_eq_ok hinsert with ⟨-, -, rfl⟩ | ⟨-, -, -, -, rfl⟩
  · exact hs
  · refine hs.setResults hs' fun key hkey => ?_
    rw [Table.contains_insert, Bool.or_eq_true, decide_eq_true_eq] at hkey
    rcases hkey with rfl | hkey
    · exact Or.inr haligned
    · exact Or.inl hkey

/-- What lies within what the attempt was started for is no whole of it. -/
theorem aligned_of_mayCreate (hs : s.Layered) {item : Item}
    (h : s.mayCreate key item now = true) : s.Aligned key := by
  intro root hroot
  rw [mayCreate, Option.mem_def.1 hroot, Bool.and_eq_true, Bool.and_eq_true] at h
  obtain ⟨e, hwalk⟩ := Network.reaches_iff.1 h.1.2
  rw [← Bool.not_eq_true]
  exact fun hlink => hs.acyclic key.item root e hlink hwalk

theorem rooted_keptBySettling (now : Timestamp) : KeptBySettling now Rooted where
  setProgress k progress hs := hs.setProgress k progress
  insertResult hs hcreate hinsert :=
    hs.insertResult (aligned_of_mayCreate hs.toLayered hcreate) hinsert
  recomputeResult hs hok := by
    have hs' := hs.toGrounded.recomputeResult hok
    obtain ⟨score, -, rfl⟩ := recomputeResult_eq_ok hok
    refine hs.setResults hs' fun key hkey => Or.inl ?_
    rwa [Table.contains_modify] at hkey

theorem Rooted.markResults (hs : s.Rooted) (p : ResultKey → Bool) (progress : Progress) :
    (s.markResults p progress).2.Rooted := by
  refine hs.setResults (hs.toGrounded.markResults p progress) fun key hkey => Or.inl ?_
  rwa [Table.contains_map] at hkey

theorem Rooted.settlesTo (hs : s.Rooted) (h : SettlesTo now s s') : s'.Rooted :=
  h.keeps (rooted_keptBySettling now)
    (fun _ gen hu => ⟨hu.toGrounded.setGenerated gen, hu.parents, hu.aligned⟩)
    (fun _ p hu => hu.markResults p _) hs

/-! ### Writes -/

/-- Every result is what it is due or is due to be recomputed. -/
structure Accounted (s : Store) : Prop extends Rooted s where
  tracked : ∀ key, Tracked (fun _ => False) s [] key

theorem Accounted.allConsistent (hs : s.Accounted) (hdone : s.AllDone) : s.AllConsistent := by
  intro key r hr
  rcases hs.tracked key r hr with hexempt | hconsistent | hdue | ⟨src, hsrc, -⟩
  · exact hexempt.elim
  · exact hconsistent
  · exact absurd ((hdone key r hr).symm.trans hdue) (by decide)
  · exact absurd hsrc List.not_mem_nil

theorem Marked.tracked {exempt : Aggregate → Prop} {queue : List ResultKey} (h : s.Marked key) :
    Tracked exempt s queue key := fun r hr => Or.inr (Or.inr (Or.inl (h r hr)))

theorem Accounted.settlesTo (hs : s.Accounted) (h : SettlesTo now s s') : s'.Accounted := by
  have hrooted := hs.toRooted.settlesTo h
  refine ⟨hrooted, fun key r hr => ?_⟩
  have haligned : s.Aligned key := by
    have haligned' := hrooted.aligned key (Table.contains_of_get? hr)
    obtain ⟨gen, rs, rfl⟩ := h.frame
    exact haligned'
  have htracked : Tracked (fun _ => False) s s.announcing key :=
    (hs.tracked key).mono fun _ hsrc => absurd hsrc List.not_mem_nil
  exact (htracked.settlesTo hs.toGrounded haligned h r hr).imp_right Or.inl

/-- A write that keeps a result, its values and all it is made of keeps track of it. -/
theorem Tracked.untouched {exempt : Aggregate → Prop} (h : Tracked exempt s [] key)
    (hrow : ∀ r, t.results.get? key = some r →
      s.results.get? key = some r ∧ s.Sustains t key) : Tracked exempt t [] key := by
  refine h.sustained (fun r hr => Or.inr ?_) fun _ hsrc => absurd hsrc List.not_mem_nil
  obtain ⟨hr', hsustains⟩ := hrow r hr
  exact ⟨r, hr', .refl r, hsustains⟩

/-- Nothing that results are worked out from differs. -/
def SameWork (s t : Store) : Prop :=
  ∃ gs ms n ancs mans grs, t = { s with
    groups := gs, memberships := ms, lastEdgeId := n, ancestors := ancs, managers := mans
    grants := grs }

theorem Accounted.sameWork (hs : s.Accounted) (ht : t.Coherent) (h : s.SameWork t) :
    t.Accounted := by
  obtain ⟨_, _, _, _, _, _, rfl⟩ := h
  refine ⟨⟨hs.toGrounded.congr ht rfl, hs.parents, hs.aligned⟩, fun key => ?_⟩
  refine (hs.tracked key).untouched fun r hr => ⟨hr, ?_⟩
  obtain ⟨item, hitem⟩ := Table.contains_iff.1 (hs.results key (Table.contains_of_get? hr)).2
  exact .of_counted ⟨item, hitem, hitem⟩ rfl rfl fun _ _ _ _ => Iff.rfl

theorem sameWork_rejoins (h : s.Rejoins t) : s.SameWork t := by
  obtain ⟨⟨ms, n, rfl⟩, -⟩ := h
  exact ⟨_, _, _, _, _, _, rfl⟩

theorem sameWork_reclosed {change : ClosureChange} (h : Reclosed change s t) : s.SameWork t := by
  obtain ⟨u, ⟨⟨ms, n, rfl⟩, -⟩, hclosure⟩ := h
  rw [← (Prod.mk.inj hclosure).2]
  exact ⟨_, _, _, _, _, _, rfl⟩

theorem Accounted.insertItem (hs : s.Accounted) {id : ItemId} {item : Item}
    (h : s.insertItem id item = .ok t) : t.Accounted := by
  have ht := hs.toCoherent.insertItem h
  obtain ⟨hnew, rfl⟩ := insertItem_eq_ok h
  refine ⟨⟨hs.toGrounded.congr ht rfl, hs.parents, hs.aligned⟩, fun key => ?_⟩
  refine (hs.tracked key).untouched fun r hr => ⟨hr, ?_⟩
  exact sustains_insertItem hs.toLayered item hnew (hs.results key (Table.contains_of_get? hr)).2

/-- Where there are no attempts there are no results. -/
theorem Accounted.of_noAttempts (hs : s.Grounded) (h : s.attempts.isEmpty = true) :
    s.Accounted := by
  have hnone := Table.isEmpty_iff.1 h
  have hresults : ∀ key, s.results.contains key = false := by
    intro key
    rw [← Bool.not_eq_true]
    intro hkey
    have hattempt := (hs.results key hkey).1
    rw [hnone] at hattempt
    exact absurd hattempt (by simp)
  refine ⟨⟨hs, fun k attempt hk => ?_, fun key hkey => ?_⟩, fun key r hr => ?_⟩
  · have hattempt := Table.contains_of_get? hk
    rw [hnone] at hattempt
    exact absurd hattempt (by simp)
  · rw [hresults] at hkey
    exact absurd hkey (by simp)
  · have hkey := Table.contains_of_get? hr
    rw [hresults] at hkey
    exact absurd hkey (by simp)

/-- Without the link the results on the whole are made of something else, and they are marked. -/
theorem Accounted.withoutLink (hs : s.Accounted) (hdone : s.AllDone) (parent child : ItemId) :
    ((s.withoutLink parent child).markItemResults parent .toBeRecomputed).2.Accounted := by
  have hground := hs.toGrounded.withoutLink parent child
  have hrooted : (s.withoutLink parent child).Rooted := by
    refine ⟨hground, hs.parents, fun key hkey root hroot => ?_⟩
    have hno := hs.aligned key hkey root hroot
    rw [← Table.get?_eq_none_iff] at hno ⊢
    rw [Store.withoutLink, Table.get?_erase, hno, ite_self]
  refine ⟨hrooted.markResults _ _, fun key => ?_⟩
  by_cases hparent : key.item = parent
  · refine Marked.tracked fun r hr => ?_
    obtain ⟨old, hold, rfl⟩ := Table.get?_map_eq_some.1 hr
    rw [if_pos (by simp [hdone key old hold, hparent])]
  · have htracked : Tracked (fun _ => False) (s.withoutLink parent child) [] key := by
      refine (hs.tracked key).untouched fun r hr => ⟨hr, ?_⟩
      exact sustains_withoutLink child (hs.results key (Table.contains_of_get? hr)).2 hparent
    exact htracked.markResults hground.toCoherent _ _

theorem Accounted.dropGroup (hs : s.Accounted) (id : GroupId) : (s.dropGroup id).Accounted := by
  have hkept : ∀ {key : ResultKey} {r : Result}, (s.dropGroup id).results.get? key = some r →
      s.results.get? key = some r ∧ key.participant ≠ id := fun hr => by
    obtain ⟨hr', hne⟩ := Table.get?_filter_eq_some.1 hr
    exact ⟨hr', of_decide_eq_true hne⟩
  have hground : (s.dropGroup id).Grounded :=
    ⟨hs.toCoherent.dropGroup id, fun key r hr => hs.proper key r (hkept hr).1⟩
  refine ⟨⟨hground, fun k attempt hk above habove => ?_, fun key hkey root hroot => ?_⟩,
    fun key => ?_⟩
  · obtain ⟨hk', hne⟩ := Table.get?_filter_eq_some.1 hk
    obtain ⟨attempt', hattempt'⟩ := Table.contains_iff.1 (hs.parents k attempt hk' above habove)
    exact Table.contains_filter_iff.2 ⟨attempt', hattempt', hne⟩
  · obtain ⟨r, hr⟩ := Table.contains_iff.1 hkey
    obtain ⟨hr', hne⟩ := hkept hr
    have hstays : decide (key.participant ≠ id) = true := decide_eq_true hne
    rw [Store.dropGroup, Table.get?_filter_of_forall fun _ => hstays] at hroot
    exact hs.aligned key (Table.contains_of_get? hr') root hroot
  · refine (hs.tracked key).untouched fun r hr => ?_
    obtain ⟨hr', hne⟩ := hkept hr
    exact ⟨hr', sustains_dropGroup (hs.results key (Table.contains_of_get? hr')).2 hne⟩

theorem Accounted.deleteGroups (hs : s.Accounted) (ids : List GroupId) :
    (s.deleteGroups ids).2.Accounted :=
  deleteGroups_keeps (fun _ id ht => ht.dropGroup id) hs ids

theorem Accounted.recomputeClosure (hs : s.Accounted) : s.recomputeClosure.2.Accounted :=
  hs.sameWork hs.toCoherent.recomputeClosure ⟨_, _, _, _, _, _, rfl⟩

theorem Accounted.reclosed (hs : s.Accounted) {change : ClosureChange}
    (h : Reclosed change s t) : t.Accounted :=
  hs.sameWork (hs.toCoherent.reclosed h) (sameWork_reclosed h)

theorem Accounted.rejoins (hs : s.Accounted) (h : s.Rejoins t) : t.Accounted :=
  hs.sameWork (hs.toCoherent.rejoins h) (sameWork_rejoins h)

theorem Accounted.deleteRelation (hs : s.Accounted) {parent child : GroupId} {allowOrphans : Bool}
    {deletion : RelationDeletion}
    (h : s.deleteRelation parent child allowOrphans = .ok (deletion, t)) : t.Accounted := by
  rcases deleteRelation_eq_ok h with ⟨-, -, rfl⟩ | ⟨hremoved, -⟩ | ⟨-, -, rfl, -⟩
  · exact hs
  · exact hs.reclosed (reclosed_deleteMembership hremoved)
  · exact (((hs.rejoins (rejoins_deleteMembership s parent child)).recomputeClosure).deleteGroups
      _).recomputeClosure

/-! ### Work -/

theorem Accounted.insertAttempt (hs : s.Accounted) {participant : GroupId} {id : AttemptId}
    {attempt : Attempt} (h : s.insertAttempt participant id attempt = .ok t)
    (hparent : ∀ above ∈ attempt.parent, s.attempts.contains (participant, above) = true) :
    t.Accounted := by
  have ht := hs.toGrounded.insertAttempt h
  obtain ⟨hnew, -, -, rfl⟩ := insertAttempt_eq_ok h
  have hmore : ∀ k, s.attempts.contains k = true →
      (s.attempts.insert (participant, id) attempt).contains k = true := fun k hk => by
    rw [Table.contains_insert, hk, Bool.or_true]
  refine ⟨⟨ht, fun k row hk above habove => ?_, fun key hkey root hroot => ?_⟩, fun key => ?_⟩
  · rw [Table.get?_insert] at hk
    split at hk
    · rename_i heq
      obtain rfl := Option.some.inj hk
      exact heq ▸ hmore _ (hparent above habove)
    · exact hmore _ (hs.parents k row hk above habove)
  · have hattempt := (hs.results key hkey).1
    rw [Table.get?_insert_of_contains attempt hnew hattempt] at hroot
    exact hs.aligned key hkey root hroot
  · refine (hs.tracked key).untouched fun r hr => ⟨hr, ?_⟩
    exact sustains_insertAttempt hs.toCoherent attempt hnew
      (hs.results key (Table.contains_of_get? hr)).2

/-- What is stored belongs to other attempts than a new one. -/
theorem Coherent.ne_of_newAttempt (hs : s.Coherent) {participant : GroupId} {id : AttemptId}
    (hnew : s.attempts.contains (participant, id) = false)
    (hkey : s.results.contains key = true) :
    (key.participant, key.attempt) ≠ (participant, id) := by
  intro heq
  have hstored := (hs.results key hkey).1
  rw [heq, hnew] at hstored
  exact absurd hstored (by simp)

/-- Nothing was started below a new attempt yet, so nothing that is stored counts for it. -/
theorem Rooted.not_isSource_newAttempt (hs : s.Rooted) {participant : GroupId} {id : AttemptId}
    {item : ItemId} (attempt : Attempt) (hnew : s.attempts.contains (participant, id) = false)
    {src : ResultKey} (hsrc : s.results.contains src = true) :
    ¬ { s with attempts := s.attempts.insert (participant, id) attempt }.IsSource src
      ⟨participant, id, item⟩ := by
  intro hsource
  have hfeeds := hsource.feeds
  rw [feeds, Table.get?_insert_of_contains attempt hnew (hs.results src hsrc).1,
    Option.any_eq_true] at hfeeds
  obtain ⟨row, hrow, hcounts⟩ := hfeeds
  rw [Bool.or_eq_true, Bool.and_eq_true, decide_eq_true_eq, decide_eq_true_eq,
    decide_eq_true_eq] at hcounts
  rcases hcounts with hsame | ⟨-, habove⟩
  · exact hs.toCoherent.ne_of_newAttempt hnew hsrc (Prod.ext hsource.participant hsame)
  · have hstored := hs.parents _ row hrow id habove
    rw [hsource.participant, hnew] at hstored
    exact absurd hstored (by simp)

/-- The first result of an attempt, on what it was started for, is what it is due. -/
theorem Accounted.insertRoot (hs : s.Accounted) {participant : GroupId} {id : AttemptId}
    {item : ItemId} {parent : Option AttemptId}
    (hattempt : s.insertAttempt participant id ⟨some item, parent, now⟩ = .ok t) {created : Bool}
    (hresult : t.insertResult ⟨participant, id, item⟩ .toBePropagated now = .ok (created, s'))
    (hparent : ∀ above ∈ parent, s.attempts.contains (participant, above) = true) :
    s'.Accounted := by
  have ht := hs.insertAttempt hattempt hparent
  obtain ⟨hnew, -, -, rfl⟩ := insertAttempt_eq_ok hattempt
  have haligned : Aligned
      { s with attempts := s.attempts.insert (participant, id) ⟨some item, parent, now⟩ }
      ⟨participant, id, item⟩ := by
    intro root hroot
    rw [Table.get?_insert_self] at hroot
    obtain rfl := Option.some.inj hroot
    rw [← Bool.not_eq_true]
    exact fun hlink => hs.acyclic item item .never hlink (.stay _)
  refine ⟨ht.toRooted.insertResult haligned hresult, fun key => ?_⟩
  rcases insertResult_eq_ok hresult with ⟨hstored, -⟩ | ⟨hfresh, -, -, hitem, rfl⟩
  · exact absurd rfl (hs.toCoherent.ne_of_newAttempt hnew hstored)
  · have hblank := Aggregate.blank_fresh now
    by_cases hkey : (⟨participant, id, item⟩ : ResultKey) = key
    · subst hkey
      intro r hr
      rw [Table.get?_insert_self] at hr
      obtain rfl := Option.some.inj hr
      obtain ⟨row, hrow⟩ := Table.contains_iff.1 hitem
      have hdue := consistent_of_untouched hrow
        (gradedAnswers_eq_nil fun answer row hanswer heq =>
          hs.toCoherent.ne_of_newAttempt hnew (hs.answers answer row hanswer) (by rw [heq]))
        (fun src hsrc => hs.toRooted.not_isSource_newAttempt _ hnew hsrc) now .toBePropagated
      refine Or.inr (Or.inl (Sustains.consistent ?_ rfl rfl rfl hdue))
      exact sustains_insert hitem hfresh hblank (ht.proper.sources _)
    · refine (ht.tracked key).untouched fun r hr => ?_
      rw [Table.get?_insert, if_neg hkey] at hr
      have hstored := ht.results key (Table.contains_of_get? hr)
      exact ⟨hr, sustains_insert hstored.2 hfresh hblank (ht.proper.sources _)⟩

/-! ### Answers and gradings -/

theorem Rooted.touchLeaf (hs : s.Rooted) (haligned : s.Aligned key)
    (h : s.touchLeaf key now = .ok t) : t.Rooted := by
  obtain ⟨created, u, hinsert, rfl⟩ := touchLeaf_eq_ok h
  split
  · exact hs.insertResult haligned hinsert
  · exact (hs.insertResult haligned hinsert).setProgress key _

theorem marked_touchLeaf (h : s.touchLeaf key now = .ok t) : t.Marked key := by
  obtain ⟨created, u, hinsert, rfl⟩ := touchLeaf_eq_ok h
  split
  · rename_i hcreated
    rcases insertResult_eq_ok hinsert with ⟨-, hno, -⟩ | ⟨hnew, -⟩
    · exact absurd (hcreated.symm.trans hno) (by decide)
    · exact (marked_of_none (Table.get?_eq_none_iff.2 hnew)).insertResult hinsert
  · exact marked_setProgress u key

theorem Tracked.touchLeaf {exempt : Aggregate → Prop} {queue : List ResultKey} {leaf : ResultKey}
    (hs : s.Grounded) (h : Tracked exempt s queue key) (htouch : s.touchLeaf leaf now = .ok t) :
    Tracked exempt t queue key := by
  obtain ⟨created, u, hinsert, rfl⟩ := touchLeaf_eq_ok htouch
  have hu := h.insertResult (hs.weighed key) hinsert
  split
  · exact hu
  · exact hu.setProgress (hs.insertResult hinsert).toCoherent leaf fun _ _ _ => rfl

theorem Accounted.addAnswer (hs : s.Accounted) {policy : RetryPolicy} {ids : IdSource}
    {answer : Answer} {id : AnswerId}
    (h : (s.addAnswer policy ids answer now).1 = .ok (id, t)) (haligned : s.Aligned answer.result) :
    t.Accounted ∧ t.answers.get? id = some answer := by
  have ht := hs.toGrounded.addAnswer h
  obtain ⟨u, htouch, hinsert⟩ := addAnswer_eq_ok h
  have hu := hs.toRooted.touchLeaf haligned htouch
  have hmarked := marked_touchLeaf htouch
  obtain ⟨hnew, -, rfl⟩ := insertAnswer_eq_ok hinsert
  refine ⟨⟨⟨ht, hu.parents, hu.aligned⟩, fun key => ?_⟩, Table.get?_insert_self _ _ _⟩
  by_cases hkey : answer.result = key
  · subst hkey
    exact Marked.tracked hmarked
  · refine ((hs.tracked key).touchLeaf hs.toGrounded htouch).untouched fun r hr => ⟨hr, ?_⟩
    exact sustains_insertAnswer hnew (hu.results key (Table.contains_of_get? hr)).2 hkey

/-- What a grading changes is touched. -/
theorem Accounted.gradeAnswer (hs : s.Accounted) {id : AnswerId} {answer : Answer}
    {event : GradingEvent} {status : GradeStatus} (hanswer : s.answers.get? id = some answer)
    (hresult : answer.result = event.result)
    (h : s.gradeAnswer id event now = .ok (status, s')) (haligned : s.Aligned event.result) :
    s'.Accounted := by
  rcases gradeAnswer_eq_ok h with ⟨-, rfl⟩ | ⟨-, t, u, outcome, hinsert, htouch, hsettle⟩
  · exact hs
  · have ht := hs.toGrounded.insertGrading hinsert
    obtain ⟨-, score, -, rfl⟩ := insertGrading_eq_ok hinsert
    have hrooted : Rooted _ := ⟨ht, hs.parents, hs.aligned⟩
    have hu : u.Accounted := by
      refine ⟨hrooted.touchLeaf haligned htouch, fun key => ?_⟩
      by_cases hkey : answer.result = key
      · rw [← hkey, hresult]
        exact (marked_touchLeaf htouch).tracked
      · refine Tracked.touchLeaf ht ?_ htouch
        refine (hs.tracked key).untouched fun r hr => ⟨hr, ?_⟩
        exact sustains_insertGrading _ hanswer (hs.results key (Table.contains_of_get? hr)).2 hkey
    exact hu.settlesTo (settlesTo_propagateResults hsettle)

/-- A result whose correction changes is due to be recomputed. -/
theorem Accounted.setEditRule (hs : s.Accounted) (key : ResultKey)
    (rule : Option (EditRule × Score)) :
    ((s.setEditRule key rule).2.setProgress key .toBeRecomputed).Accounted := by
  have ht := (hs.toGrounded.setEditRule key rule).setProgress key .toBeRecomputed
  refine ⟨hs.toRooted.setResults ht fun k hk => Or.inl ?_, fun k => ?_⟩
  · rwa [Table.contains_modify, Store.setEditRule, Table.contains_modify] at hk
  · by_cases hkey : key = k
    · exact hkey ▸ (marked_setProgress _ key).tracked
    · refine (hs.tracked k).untouched fun r hr => ?_
      obtain ⟨heq, -⟩ | ⟨-, hr⟩ := get?_setProgress hr
      · exact absurd heq hkey
      · rw [Store.setEditRule, Table.get?_modify, if_neg hkey] at hr
        have hstored := hs.results k (Table.contains_of_get? hr)
        refine ⟨hr, sustains_setResults hstored.2 fun src _ => ?_⟩
        have hedited : (s.setEditRule key rule).2.valuesAt src = s.valuesAt src :=
          valuesAt_modify key src fun _ => rfl
        rw [← hedited]
        exact valuesAt_modify (s := (s.setEditRule key rule).2) key src fun _ => rfl

theorem Accounted.work (hs : s.Accounted) {call : Call} (hcall : s.Prepared call)
    (h : Worked now s s' call) : s'.Accounted := by
  cases h with
  | start hinsert => exact hs.insertAttempt hinsert hcall
  | startOn hinsert hresult hsettle =>
    exact (hs.insertRoot hinsert hresult hcall).settlesTo (settlesTo_propagateResults hsettle)
  | answer hadd hsettle =>
    exact (hs.addAnswer hadd hcall).1.settlesTo (settlesTo_propagateResults hsettle)
  | grade hanswer hresult hgrade => exact hs.gradeAnswer hanswer hresult hgrade hcall
  | gradeNew hadd hgrade =>
    obtain ⟨ht, hanswer⟩ := hs.addAnswer hadd hcall
    exact ht.gradeAnswer hanswer rfl hgrade (ht.aligned _ (ht.answers _ _ hanswer))
  | correct hsettle => exact (hs.setEditRule _ _).settlesTo (settlesTo_propagateResults hsettle)
  | settle hsettle => exact hs.settlesTo (settlesTo_propagateResults hsettle)

theorem Accounted.call (hs : s.Accounted) (hdone : s.AllDone) {policy : RetryPolicy} {call : Call}
    {ids : IdSource} {reply : Reply} (hcall : s.Prepared call)
    (hrun : (Call.run policy now call ids s).1 = .ok (reply, s')) : s'.Accounted := by
  have hcoherent := hs.toCoherent.call hrun
  cases Effect.of_run hrun with
  | nothing hsame => exact hsame ▸ hs
  | insertGroup hinsert =>
    obtain ⟨-, rfl⟩ := insertGroup_eq_ok hinsert
    exact hs.sameWork hcoherent ⟨_, _, _, _, _, _, rfl⟩
  | reclose _ hreclosed hsettle =>
    exact (hs.reclosed hreclosed).settlesTo (settlesTo_settleClosure hsettle)
  | resettle hsettle => exact hs.settlesTo (settlesTo_settleClosure hsettle)
  | deleteOrphans hdelete _ hsettle =>
    exact (hs.deleteRelation hdelete).settlesTo (settlesTo_settleClosure hsettle)
  | transition hrequest =>
    rcases request_settles hrequest with ⟨t, hreclosed, hsettle⟩ | ⟨t, hjoin, hsettle⟩
    · exact (hs.reclosed hreclosed).settlesTo (settlesTo_settleClosure hsettle)
    · exact (hs.rejoins hjoin).settlesTo (settlesTo_settleClosure hsettle)
  | appoint _ _ happointed =>
    subst happointed
    exact hs.sameWork hcoherent ⟨_, _, _, _, _, _, rfl⟩
  | insertItem hinsert => exact hs.insertItem hinsert
  | link hparent hchild hreach hsettle =>
    refine Accounted.settlesTo ?_ (settlesTo_settlePairs hsettle)
    refine .of_noAttempts ?_ hcall
    exact (hs.toGrounded.withLink _ hparent hchild hreach).markResults _ _
  | unlink hsettle =>
    exact (hs.withoutLink hdone _ _).settlesTo (settlesTo_settlePairs hsettle)
  | grant hgroup hitem hsettle =>
    refine Accounted.settlesTo ?_ (settlesTo_settlePairs hsettle)
    exact hs.sameWork (hs.toCoherent.insertGrant _ _ hgroup hitem) ⟨_, _, _, _, _, _, rfl⟩
  | revoke hsettle =>
    refine Accounted.settlesTo ?_ (settlesTo_settlePairs hsettle)
    exact hs.sameWork (hs.toCoherent.eraseGrant _) ⟨_, _, _, _, _, _, rfl⟩
  | sweep hsweep => exact hs.settlesTo (settlesTo_sweep hsweep)
  | work hwork => exact hs.work hcall hwork

theorem accounted_empty : Store.empty.Accounted := .of_noAttempts grounded_empty rfl

end Store

namespace Session

open Store

/-- A call that succeeds keeps to what it has to. -/
def Orderly (s : Session) : Step → Prop
  | .call call => (s.perform call).1.isOk = true → s.committed.Prepared call
  | .advance _ | .setClock _ => True

instance decidableOrderly (s : Session) : ∀ step, Decidable (s.Orderly step)
  | .call call => inferInstanceAs (Decidable (_ = true → s.committed.Prepared call))
  | .advance _ | .setClock _ => .isTrue trivial

theorem accounted_run (ids : IdSource) (clock : Timestamp) (policy : RetryPolicy)
    {steps : List Step} (h : (start ids clock policy).Along Orderly steps) :
    ((start ids clock policy).run steps).committed.Accounted := by
  refine (run_induction (I := fun s => s.committed.Accounted ∧ s.committed.AllDone) ?_
    (idle_start ids clock policy) ⟨accounted_empty, allDone_empty⟩ h).1
  intro s step hs ⟨haccounted, hdone⟩ horderly
  rcases committed_step hs step with hsame | ⟨call, reply, rfl, hout⟩
  · rw [hsame]
    exact ⟨haccounted, hdone⟩
  · have hok : (s.perform call).1.isOk = true := by
      rw [(perform_of_outcome hs hout).1]
      rfl
    exact ⟨haccounted.call hdone (horderly hok) hout,
      allDone_call hdone haccounted.toCoherent hout⟩

/-- In a run in which items are linked only while there are no attempts, attempts are started only
below stored ones, and no answer or grading is for a result on what has a part that its attempt was
started for, every result is what it is due at every time. -/
theorem allConsistent_run (ids : IdSource) (clock : Timestamp) (policy : RetryPolicy)
    {steps : List Step} (h : (start ids clock policy).Along Orderly steps) :
    ((start ids clock policy).run steps).committed.AllConsistent :=
  (accounted_run ids clock policy h).allConsistent (allDone_run ids clock policy steps)

/-- Somebody works on a part in an attempt of its own and on another part in the attempt above, the
latter work is corrected, and its part is taken out. -/
def workOnParts : List Step :=
  [ .call (.createGroup 1 ⟨"", .user, true, none, none, none⟩),
    .call (.createItem 10 .plain),
    .call (.createItem 11 .plain),
    .call (.createItem 12 .plain),
    .call (.createLink 10 11 .plain),
    .call (.createLink 10 12 .plain),
    .call (.grant 1 10 1 ⟨.content, .none, .none, .none, false, .always⟩),
    .call (.createAttempt 1 (some 10) none),
    .call (.createAttempt 1 (some 11) (some 0)),
    .call (.recordGrade ⟨⟨1, 1, 11⟩, none, .full, .zero⟩),
    .setClock ⟨5⟩,
    .call (.submitAnswer ⟨1, 0, 12⟩ 1 "x"),
    .call (.recordGrade ⟨⟨1, 0, 12⟩, some 8, .full, .zero⟩),
    .call (.setEditRule ⟨1, 0, 12⟩ (some (.set, .zero))),
    .call (.deleteLink 10 12) ]

theorem allConsistent_workOnParts :
    (start (.ofList [7, 8]) .zero .standard).Along Orderly workOnParts ∧
      ((start (.ofList [7, 8]) .zero .standard).run workOnParts).committed.AllConsistent := by
  have horderly : (start (.ofList [7, 8]) .zero .standard).Along Orderly workOnParts := by
    decide +kernel
  exact ⟨horderly, allConsistent_run (.ofList [7, 8]) .zero .standard horderly⟩

end Session

end Courseware
