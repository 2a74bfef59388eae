import Courseware.Proofs.Branch
import Courseware.Proofs.Leaves
import Courseware.Proofs.Settled

/-!
# Settling for one participant apart from the others

Whatever is pending waits in one queue, whoever it belongs to. But a result is marked, created and
recomputed for the work of its own participant only: if two stores differ in nothing but the work of
others, and all of that is settled, the same is pending in both, and settling takes the same steps
(`SameFor.propagateResults`).
-/

namespace Courseware

namespace Store

variable {s s' t t' : Store} {now : Timestamp} {participant : GroupId} {key : ResultKey}

/-- Every result of another participant is settled. -/
def OthersDone (s : Store) (participant : GroupId) : Prop :=
  ∀ key r, s.results.get? key = some r → key.participant ≠ participant → r.progress = .done

/-- Nothing differs but the work of other participants, of which all results are settled. An answer
of the participant counts with its date and score, which is all that results are made of. -/
structure SameFor (participant : GroupId) (s t : Store) : Prop where
  onlyWork : s.OnlyWork t
  attempts : ∀ id, t.attempts.get? (participant, id) = s.attempts.get? (participant, id)
  results : ∀ key, key.participant = participant → t.results.get? key = s.results.get? key
  answers : ∀ key, key.participant = participant → ∀ a, a ∈ t.answersTo key ↔ a ∈ s.answersTo key
  left : s.OthersDone participant
  right : t.OthersDone participant

/-! ### What both read -/

theorem OthersDone.participant_of_mem (h : s.OthersDone participant) {progress : Progress}
    (hp : progress ≠ .done) {e : ResultKey × Result} (he : e ∈ s.resultsIn progress) :
    e.1.participant = participant := by
  obtain ⟨hr, hprogress⟩ := mem_resultsIn.1 he
  by_contra hother
  exact hp (hprogress.symm.trans (h e.1 e.2 hr hother))

section Reads

variable (h : SameFor participant s t)
include h

theorem SameFor.resultsIn {progress : Progress} (hp : progress ≠ .done) :
    t.resultsIn progress = s.resultsIn progress := by
  rw [resultsIn_eq, resultsIn_eq]
  refine congrArg Table.toList (Table.ext_get? fun k => Option.ext fun r => ?_)
  have hmem : ∀ u : Store, (u.tableIn progress).get? k = some r ↔
      u.results.get? k = some r ∧ r.progress = progress := fun u => by
    rw [tableIn, Table.get?_filter_eq_some, decide_eq_true_eq]
  rw [hmem, hmem]
  by_cases hk : k.participant = participant
  · rw [h.results k hk]
  · exact iff_of_false (fun hr => hp (hr.2.symm.trans (h.right k r hr.1 hk)))
      fun hr => hp (hr.2.symm.trans (h.left k r hr.1 hk))

theorem SameFor.upwardAttempt (hkey : key.participant = participant) :
    t.upwardAttempt key = s.upwardAttempt key := by
  rw [Store.upwardAttempt, Store.upwardAttempt, hkey, h.attempts]

theorem SameFor.wholesOf (item : ItemId) : t.wholesOf item = s.wholesOf item := by
  obtain ⟨_, _, _, _, rfl⟩ := h.onlyWork
  rfl

theorem SameFor.mayCreate (hkey : key.participant = participant) (item : Item) :
    t.mayCreate key item now = s.mayCreate key item now := by
  rw [Store.mayCreate, Store.mayCreate, hkey, h.attempts]
  obtain ⟨_, _, _, _, rfl⟩ := h.onlyWork
  rfl

theorem SameFor.linkedResults (attempt : AttemptId) (part : ItemId) :
    t.linkedResults participant attempt part = s.linkedResults participant attempt part := by
  have hon : t.resultsOn participant part = s.resultsOn participant part := by
    refine congrArg Table.toList (show
      (t.results.filter fun k _ => decide (k.participant = participant) && decide (k.item = part)) =
        s.results.filter fun k _ => decide (k.participant = participant) && decide (k.item = part)
      from Table.ext_get? fun k => Option.ext fun r => ?_)
    simp only [Table.get?_filter_eq_some, Bool.and_eq_true, decide_eq_true_eq]
    exact and_congr_left fun hk => by rw [h.results k hk.1]
  rw [Store.linkedResults, Store.linkedResults, hon]
  refine List.filter_congr fun e he => ?_
  have hown := (Bool.and_eq_true_iff.1 (List.mem_filter.1 he).2).1
  rw [feeds, feeds, of_decide_eq_true hown, h.attempts]

theorem SameFor.sources (hkey : key.participant = participant) : t.sources key = s.sources key := by
  have hparts : t.partsOf key.item = s.partsOf key.item := by
    obtain ⟨_, _, _, _, rfl⟩ := h.onlyWork
    rfl
  rw [Store.sources, Store.sources, hparts, hkey]
  exact List.map_congr_left fun p _ => by rw [h.linkedResults]

theorem SameFor.isWaiting (hkey : key.participant = participant) :
    t.isWaiting key = s.isWaiting key := by
  rw [Store.isWaiting, Store.isWaiting, h.sources hkey]

/-- What a result is due is the same in both, but for the sign of a zero. -/
theorem SameFor.dueValues (hkey : key.participant = participant) (r : Result) :
    ∃ score, Score.Alike score (s.dueValues key r).score ∧
      t.dueValues key r = { s.dueValues key r with score } := by
  have hitems : t.items = s.items := by
    obtain ⟨_, _, _, _, rfl⟩ := h.onlyWork
    rfl
  have hbase : ∃ score, Score.Alike score (s.baseValues key r).score ∧
      t.baseValues key r = { s.baseValues key r with score } := by
    rw [baseValues, baseValues, hitems, h.sources hkey]
    cases s.items.get? key.item with
    | none => exact ⟨_, .refl _, rfl⟩
    | some item =>
      simp only
      split
      · exact aggregateAnswers_congr (fun a => (h.answers key hkey a).symm) _
      · exact ⟨_, .refl _, rfl⟩
  obtain ⟨score, halike, heq⟩ := hbase
  have hcorrected := Aggregate.Alike.corrected (a := { s.baseValues key r with score })
    ⟨halike, rfl, rfl⟩ r.editRule r.editValue
  refine ⟨_, hcorrected.score, ?_⟩
  rw [Store.dueValues, Store.dueValues, heq]
  rfl

end Reads

/-! ### Writing results -/

/-- The results of the participant are written alike, and no other. -/
theorem SameFor.withResults (h : SameFor participant s t) {rs rs' : Table ResultKey Result}
    (hown : ∀ k, k.participant = participant → rs'.get? k = rs.get? k)
    (hleft : ∀ k, k.participant ≠ participant → rs.get? k = s.results.get? k)
    (hright : ∀ k, k.participant ≠ participant → rs'.get? k = t.results.get? k) :
    SameFor participant { s with results := rs } { t with results := rs' } where
  onlyWork := by
    obtain ⟨_, _, _, _, rfl⟩ := h.onlyWork
    exact ⟨_, _, _, _, rfl⟩
  attempts := h.attempts
  results := hown
  answers := h.answers
  left k r hr hk := h.left k r ((hleft k hk).symm.trans hr) hk
  right k r hr hk := h.right k r ((hright k hk).symm.trans hr) hk

theorem SameFor.modify (h : SameFor participant s t) (hkey : key.participant = participant)
    (f : Result → Result) :
    SameFor participant { s with results := s.results.modify key f }
      { t with results := t.results.modify key f } := by
  have hother : ∀ (rs : Table ResultKey Result) (k : ResultKey), k.participant ≠ participant →
      (rs.modify key f).get? k = rs.get? k := by
    intro rs k hk
    rw [Table.get?_modify, if_neg]
    rintro rfl
    exact hk hkey
  refine h.withResults (fun k hk => ?_) (hother _) (hother _)
  rw [Table.get?_modify, Table.get?_modify, h.results k hk]

theorem SameFor.insert (h : SameFor participant s t) (hkey : key.participant = participant)
    (row : Result) :
    SameFor participant { s with results := s.results.insert key row }
      { t with results := t.results.insert key row } := by
  have hother : ∀ (rs : Table ResultKey Result) (k : ResultKey), k.participant ≠ participant →
      (rs.insert key row).get? k = rs.get? k := by
    intro rs k hk
    rw [Table.get?_insert, if_neg]
    rintro rfl
    exact hk hkey
  refine h.withResults (fun k hk => ?_) (hother _) (hother _)
  rw [Table.get?_insert, Table.get?_insert, h.results k hk]

theorem SameFor.contains (h : SameFor participant s t) (hkey : key.participant = participant) :
    t.results.contains key = s.results.contains key := by
  rw [Table.contains_eq_isSome, Table.contains_eq_isSome, h.results key hkey]

theorem SameFor.insertResult (h : SameFor participant s t) (hkey : key.participant = participant)
    {progress : Progress} {created created' : Bool}
    (hs : s.insertResult key progress now = .ok (created, s'))
    (ht : t.insertResult key progress now = .ok (created', t')) : SameFor participant s' t' := by
  rcases insertResult_eq_ok hs with ⟨hstored, -, rfl⟩ | ⟨hnew, -, -, -, rfl⟩
  · rcases insertResult_eq_ok ht with ⟨-, -, rfl⟩ | ⟨hnew', -⟩
    · exact h
    · rw [h.contains hkey, hstored] at hnew'
      exact absurd hnew' (by simp)
  · rcases insertResult_eq_ok ht with ⟨hstored', -⟩ | ⟨-, -, -, -, rfl⟩
    · rw [h.contains hkey, hnew] at hstored'
      exact absurd hstored' (by simp)
    · exact h.insert hkey _

/-! ### Passing up -/

theorem SameFor.markWholes (h : SameFor participant s t) {attempt : AttemptId}
    {wholes : List (ItemId × Link × Item)} {out out' : List ResultKey × Nat}
    (hs : s.markWholes participant attempt now wholes = .ok (out, s'))
    (ht : t.markWholes participant attempt now wholes = .ok (out', t')) :
    out' = out ∧ SameFor participant s' t' := by
  induction wholes generalizing s t out out' with
  | nil =>
    obtain ⟨rfl, rfl⟩ := markWholes_nil_eq_ok hs
    obtain ⟨rfl, rfl⟩ := markWholes_nil_eq_ok ht
    exact ⟨rfl, h⟩
  | cons whole rest ih =>
    obtain ⟨first, link, row⟩ := whole
    have hright := markWholes_cons_eq_ok ht
    rw [h.results _ rfl, h.mayCreate rfl] at hright
    rcases markWholes_cons_eq_ok hs with ⟨r, later, n, hr, hrest, rfl⟩ |
      ⟨hnone, hmay, new, u, later, n, hinsert, hrest, rfl⟩ | ⟨hnone, hno, hrest⟩
    · simp only [hr, Option.some.injEq, reduceCtorEq, false_and, or_false] at hright
      obtain ⟨_, later', n', rfl, hrest', rfl⟩ := hright
      obtain ⟨heq, hend⟩ := ih (h.modify rfl _) hrest hrest'
      obtain ⟨rfl, rfl⟩ := Prod.mk.inj heq
      exact ⟨rfl, hend⟩
    · simp only [hnone, hmay, reduceCtorEq, false_and, exists_false, true_and, not_true_eq_false,
        or_false, false_or] at hright
      obtain ⟨new', u', later', n', hinsert', hrest', rfl⟩ := hright
      obtain ⟨heq, hend⟩ := ih (h.insertResult rfl hinsert hinsert') hrest hrest'
      obtain ⟨rfl, rfl⟩ := Prod.mk.inj heq
      exact ⟨rfl, hend⟩
    · simp only [hnone, hno, reduceCtorEq, false_and, exists_false, true_and, not_false_eq_true,
        and_false, false_or] at hright
      exact ih h hrest hright

theorem SameFor.passUp (h : SameFor participant s t) (hkey : key.participant = participant)
    {out out' : List ResultKey × Nat} (hs : s.passUp key now = .ok (out, s'))
    (ht : t.passUp key now = .ok (out', t')) : out' = out ∧ SameFor participant s' t' := by
  have hright := passUp_eq_ok ht
  rw [h.results key hkey, h.upwardAttempt hkey, h.wholesOf] at hright
  rcases passUp_eq_ok hs with ⟨hnone, rfl, rfl⟩ | ⟨r, hr, hleft⟩
  · simp only [hnone, true_and, reduceCtorEq, false_and, exists_false, or_false] at hright
    obtain ⟨rfl, rfl⟩ := hright
    exact ⟨rfl, h⟩
  · simp only [hr, reduceCtorEq, false_and, Option.some.injEq, false_or] at hright
    obtain ⟨_, rfl, hright⟩ := hright
    have hsettled : SameFor participant (s.settle key r) (t.settle key r) := by
      rw [settle, settle]
      split
      · exact h.modify hkey _
      · exact h
    rcases hleft with ⟨hend, rfl, rfl⟩ | ⟨attempt, hattempt, hwholes⟩
    · simp only [hend, true_and, reduceCtorEq, false_and, exists_false, or_false] at hright
      obtain ⟨rfl, rfl⟩ := hright
      exact ⟨rfl, hsettled⟩
    · simp only [hattempt, reduceCtorEq, false_and, Option.some.injEq, false_or] at hright
      obtain ⟨_, rfl, hwholes'⟩ := hright
      rw [hkey] at hwholes hwholes'
      exact hsettled.markWholes hwholes hwholes'

theorem SameFor.drains (h : SameFor participant s t) {queue : List ResultKey}
    (hqueue : ∀ key ∈ queue, key.participant = participant) {outcome outcome' : ResultOutcome}
    {out out' : Except Fault (ResultOutcome × Store)} (hs : Drains now s queue outcome out)
    (ht : Drains now t queue outcome' out') {last last' : ResultOutcome}
    (hok : out = .ok (last, s')) (hok' : out' = .ok (last', t')) : SameFor participant s' t' := by
  induction hs generalizing t outcome' with
  | nil =>
    cases ht
    obtain ⟨-, rfl⟩ := Prod.mk.inj (Except.ok.inj hok)
    obtain ⟨-, rfl⟩ := Prod.mk.inj (Except.ok.inj hok')
    exact h
  | fault => exact absurd hok (by simp)
  | turn hpass _ ih =>
    obtain ⟨hfirst, hrest⟩ := List.forall_mem_cons.1 hqueue
    cases ht with
    | fault => exact absurd hok' (by simp)
    | turn hpass' htail =>
      obtain ⟨heq, hnext⟩ := h.passUp hfirst hpass hpass'
      obtain ⟨rfl, -⟩ := Prod.mk.inj heq
      refine ih hnext (List.forall_mem_append.2 ⟨hrest, fun k hk => ?_⟩) htail hok
      obtain ⟨attempt, whole, -, rfl⟩ := mem_waiting_passUp hpass hk
      exact hfirst

/-! ### Recomputing -/

theorem SameFor.recomputeResult (h : SameFor participant s t) (hkey : key.participant = participant)
    {r : Result} (hs : s.recomputeResult key r = .ok s') (ht : t.recomputeResult key r = .ok t') :
    SameFor participant s' t' := by
  obtain ⟨score, hscore, rfl⟩ := recomputeResult_eq_ok hs
  obtain ⟨score', hscore', rfl⟩ := recomputeResult_eq_ok ht
  obtain ⟨due, halike, hdue⟩ := h.dueValues hkey r
  have hsame : (t.dueValues key r).same r.values = (s.dueValues key r).same r.values := by
    rw [hdue, Aggregate.same, Aggregate.same, halike.same_left]
  rw [hdue, halike.stored_eq, hscore] at hscore'
  obtain rfl := Option.some.inj hscore'
  rw [hsame, hdue]
  exact h.modify hkey _

theorem SameFor.recomputeReady (h : SameFor participant s t) {due : List (ResultKey × Result)}
    (hdue : ∀ e ∈ due, e.1.participant = participant) {count count' : Nat}
    (hs : s.recomputeReady due = .ok (count, s')) (ht : t.recomputeReady due = .ok (count', t')) :
    SameFor participant s' t' := by
  induction due generalizing s t count count' with
  | nil =>
    obtain ⟨-, rfl⟩ := recomputeReady_nil_eq_ok hs
    obtain ⟨-, rfl⟩ := recomputeReady_nil_eq_ok ht
    exact h
  | cons e rest ih =>
    obtain ⟨k, r⟩ := e
    obtain ⟨hk, hrest⟩ := List.forall_mem_cons.1 hdue
    have hright := recomputeReady_cons_eq_ok ht
    rw [h.isWaiting hk] at hright
    rcases recomputeReady_cons_eq_ok hs with ⟨hwaiting, hmore⟩ |
      ⟨hready, u, later, hone, hmore, -⟩
    · simp only [hwaiting, true_and, reduceCtorEq, false_and, or_false] at hright
      exact ih h hrest hmore hright
    · simp only [hready, reduceCtorEq, false_and, true_and, false_or] at hright
      obtain ⟨u', later', hone', hmore', -⟩ := hright
      exact ih (h.recomputeResult hk hone hone') hrest hmore hmore'

/-! ### Rounds -/

theorem SameFor.settles (h : SameFor participant s t) {outcome outcome' : ResultOutcome}
    {out out' : Except Fault (ResultOutcome × Store)} (hs : Settles now outcome s out)
    (ht : Settles now outcome' t out') {last last' : ResultOutcome} (hok : out = .ok (last, s'))
    (hok' : out' = .ok (last', t')) : SameFor participant s' t' := by
  have hdrained : ∀ {s t : Store} {o o' last last' : ResultOutcome} {s' t' : Store},
      SameFor participant s t →
      Drains now s ((s.resultsIn .toBePropagated).map (·.1)) o (.ok (last, s')) →
      Drains now t ((t.resultsIn .toBePropagated).map (·.1)) o' (.ok (last', t')) →
      SameFor participant s' t' := by
    intro s t o o' last last' s' t' h hs ht
    rw [h.resultsIn (by decide)] at ht
    refine h.drains (fun k hk => ?_) hs ht rfl rfl
    obtain ⟨e, he, rfl⟩ := List.mem_map.1 hk
    exact h.left.participant_of_mem (by decide) he
  induction hs generalizing t outcome' with
  | drainFault => exact absurd hok (by simp)
  | recomputeFault => exact absurd hok (by simp)
  | stalled => exact absurd hok (by simp)
  | settled hdrains hchanged hdue =>
    obtain ⟨-, rfl⟩ := Prod.mk.inj (Except.ok.inj hok)
    cases ht with
    | drainFault | recomputeFault | stalled => exact absurd hok' (by simp)
    | settled hdrains' =>
      obtain ⟨-, rfl⟩ := Prod.mk.inj (Except.ok.inj hok')
      exact hdrained h hdrains hdrains'
    | round hdrains' hpending =>
      rw [h.resultsIn (by decide), (hdrained h hdrains hdrains').resultsIn (by decide)] at hpending
      exact absurd ⟨hchanged, hdue⟩ hpending
  | round hdrains hpending hready _ _ ih =>
    cases ht with
    | drainFault | recomputeFault | stalled => exact absurd hok' (by simp)
    | settled hdrains' hchanged hdue =>
      rw [h.resultsIn (by decide)] at hchanged
      rw [(hdrained h hdrains hdrains').resultsIn (by decide)] at hdue
      exact absurd ⟨hchanged, hdue⟩ hpending
    | round hdrains' _ hready' _ hrounds' =>
      have hnext := hdrained h hdrains hdrains'
      rw [hnext.resultsIn (by decide)] at hready'
      refine ih (hnext.recomputeReady (fun e he => ?_) hready hready') hrounds' hok
      exact hnext.left.participant_of_mem (by decide) he

/-- Settling comes to the same for the participant. -/
theorem SameFor.propagateResults (h : SameFor participant s t) (hs : s.Layered) (ht : t.Layered)
    {outcome outcome' : ResultOutcome} (hok : s.propagateResults now = .ok (outcome, s'))
    (hok' : t.propagateResults now = .ok (outcome', t')) : SameFor participant s' t' :=
  h.settles (hs.propagateResults now).1 (ht.propagateResults now).1 hok hok'

end Store

end Courseware
