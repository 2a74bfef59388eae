import Courseware.Proofs.Followed
import Courseware.Proofs.ItemGraph

/-!
# The branch that work belongs to

Work on an item is recorded for one participant, and what is passed on goes up along links, from
attempt to attempt but never to another participant. Since every result is settled before the call,
all that it marks, creates or recomputes lies on the item itself or on what that is part of: the
participant's branch (`onlyBranch_work`).
-/

namespace Courseware

/-- The participant and the item that a call records work for. -/
def Call.worksOn : Call → Option (GroupId × ItemId)
  | .createAttempt participant rootItem _ => rootItem.map (participant, ·)
  | .submitAnswer key _ _ => some (key.participant, key.item)
  | .recordGrade event => some (event.result.participant, event.result.item)
  | .setEditRule key _ => some (key.participant, key.item)
  | _ => none

theorem Call.area_of_worksOn {call : Call} {work : GroupId × ItemId}
    (h : call.worksOn = some work) : call.area = .results := by
  cases call with
  | createAttempt | submitAnswer | recordGrade | setEditRule => rfl
  | _ => exact absurd h (by simp [worksOn])

namespace Store

open Relation

variable {s s' t : Store} {now : Timestamp} {participant : GroupId} {item : ItemId} {key : ResultKey}

/-- A result of the participant on the item or on something that the item is part of. -/
structure InBranch (s : Store) (participant : GroupId) (item : ItemId) (key : ResultKey) : Prop where
  participant : key.participant = participant
  path : ReflTransGen s.HasPart key.item item

/-- It goes on with what is marked above. -/
theorem InBranch.above (h : s.InBranch participant item key) {attempt : AttemptId} {whole : ItemId}
    (hlink : s.HasPart whole key.item) :
    s.InBranch participant item ⟨key.participant, attempt, whole⟩ :=
  ⟨h.participant, h.path.head hlink⟩

/-- What joins the queue when a result is passed up was marked by it. -/
theorem mem_waiting_markWholes {attempt : AttemptId} {wholes : List (ItemId × Link × Item)}
    {out : List ResultKey × Nat} (hok : s.markWholes participant attempt now wholes = .ok (out, s'))
    (hkey : key ∈ out.1) : ∃ w ∈ wholes, key = ⟨participant, attempt, w.1⟩ := by
  induction wholes generalizing s out with
  | nil =>
    obtain ⟨rfl, -⟩ := markWholes_nil_eq_ok hok
    exact absurd hkey List.not_mem_nil
  | cons whole rest ih =>
    obtain ⟨first, link, row⟩ := whole
    have hlater : ∀ {t : Store} {out : List ResultKey × Nat},
        t.markWholes participant attempt now rest = .ok (out, s') → key ∈ out.1 →
          ∃ w ∈ (first, link, row) :: rest, key = ⟨participant, attempt, w.1⟩ := by
      intro t out hrest hmem
      obtain ⟨w, hw, heq⟩ := ih hrest hmem
      exact ⟨w, List.mem_cons_of_mem _ hw, heq⟩
    rcases markWholes_cons_eq_ok hok with ⟨r, later, n, -, hrest, rfl⟩ |
      ⟨-, -, new, t, later, n, -, hrest, rfl⟩ | ⟨-, -, hrest⟩
    · dsimp only at hkey
      split at hkey
      · rcases List.mem_cons.1 hkey with heq | hkey
        · exact ⟨_, List.mem_cons_self, heq⟩
        · exact hlater hrest hkey
      · exact hlater hrest hkey
    · exact hlater hrest hkey
    · exact hlater hrest hkey

theorem mem_waiting_passUp {first : ResultKey} {out : List ResultKey × Nat}
    (hok : s.passUp first now = .ok (out, s')) (hkey : key ∈ out.1) :
    ∃ attempt whole, s.HasPart whole first.item ∧ key = ⟨first.participant, attempt, whole⟩ := by
  rcases passUp_eq_ok hok with ⟨-, rfl, -⟩ | ⟨r, -, ⟨-, rfl, -⟩ | ⟨attempt, -, hwholes⟩⟩
  · exact absurd hkey List.not_mem_nil
  · exact absurd hkey List.not_mem_nil
  · obtain ⟨⟨whole, link, row⟩, hw, rfl⟩ := mem_waiting_markWholes hwholes hkey
    exact ⟨attempt, whole, Table.contains_of_get? (mem_wholesOf.1 hw).1, rfl⟩

/-! ### Settling -/

/-- Nothing but results differs, and those that do are in the branch. -/
structure OnlyBranch (s : Store) (participant : GroupId) (item : ItemId) (t : Store) : Prop where
  links : t.links = s.links
  rows : ∀ k, ¬ s.InBranch participant item k → t.results.get? k = s.results.get? k

theorem OnlyBranch.refl (s : Store) (participant : GroupId) (item : ItemId) :
    s.OnlyBranch participant item s :=
  ⟨rfl, fun _ _ => rfl⟩

theorem OnlyBranch.congr (h : s.OnlyBranch participant item t) {u : Store} (hlinks : u.links = t.links)
    (hresults : u.results = t.results) : s.OnlyBranch participant item u :=
  ⟨hlinks.trans h.links, fun k hk => hresults ▸ h.rows k hk⟩

theorem OnlyBranch.modify (h : s.OnlyBranch participant item t) {k : ResultKey}
    (hk : s.InBranch participant item k) (f : Result → Result) :
    s.OnlyBranch participant item { t with results := t.results.modify k f } := by
  refine ⟨h.links, fun k' hk' => ?_⟩
  rw [Table.get?_modify, if_neg]
  · exact h.rows k' hk'
  · rintro rfl
    exact hk' hk

theorem OnlyBranch.insertResult (h : s.OnlyBranch participant item t) {k : ResultKey}
    (hk : s.InBranch participant item k) {progress : Progress} {created : Bool} {u : Store}
    (hinsert : t.insertResult k progress now = .ok (created, u)) : s.OnlyBranch participant item u := by
  rcases insertResult_eq_ok hinsert with ⟨-, -, rfl⟩ | ⟨-, -, -, -, rfl⟩
  · exact h
  · refine ⟨h.links, fun k' hk' => ?_⟩
    rw [Table.get?_insert, if_neg]
    · exact h.rows k' hk'
    · rintro rfl
      exact hk' hk

/-- If all was settled before, what is passed up and recomputed is in the branch. -/
theorem onlyBranch_keptAmong (hdone : s.AllDone) (now : Timestamp) (participant : GroupId)
    (item : ItemId) :
    KeptAmong now (s.InBranch participant item) (s.OnlyBranch participant item) := by
  have hpending : ∀ {t : Store} {k : ResultKey} {r : Result}, s.OnlyBranch participant item t →
      t.results.get? k = some r → r.progress ≠ .done → s.InBranch participant item k := by
    intro t k r ht hr hprogress
    by_contra hout
    exact hprogress (hdone k r ((ht.rows k hout).symm.trans hr))
  constructor
  · intro t k ht hk
    obtain ⟨r, hr, hprogress⟩ := mem_announcing.1 hk
    exact hpending ht hr (by rw [hprogress]; decide)
  · intro t t' first out ht hfirst hok
    have habove : ∀ attempt whole, t.HasPart whole first.item →
        s.InBranch participant item ⟨first.participant, attempt, whole⟩ := by
      intro attempt whole hlink
      rw [HasPart, ht.links] at hlink
      exact hfirst.above hlink
    have hwholes : ∀ w ∈ t.wholesOf first.item, t.HasPart w.1 first.item := fun w hw =>
      Table.contains_of_get? (mem_wholesOf.1 hw).1
    refine ⟨passUp_keeps (fun hu => hu.modify hfirst _)
      (fun u attempt w hw hu => hu.modify (habove attempt w.1 (hwholes w hw)) _)
      (fun u u' created attempt w hw hu _ hinsert =>
        hu.insertResult (habove attempt w.1 (hwholes w hw)) hinsert) ht hok, fun k hk => ?_⟩
    obtain ⟨attempt, whole, hlink, rfl⟩ := mem_waiting_passUp hok hk
    exact habove attempt whole hlink
  · intro t t' k r ht hr hdue hok
    obtain ⟨score, -, rfl⟩ := recomputeResult_eq_ok hok
    exact ht.modify (hpending ht hr (by rw [hdue]; decide)) _

theorem OnlyBranch.propagateResults (hdone : s.AllDone) (h : s.OnlyBranch participant item t)
    (ht : t.Layered) {outcome : ResultOutcome} (hok : t.propagateResults now = .ok (outcome, s')) :
    s.OnlyBranch participant item s' :=
  (onlyBranch_keptAmong hdone now participant item).settles (ht.propagateResults now).1 h hok

/-! ### Calls -/

theorem OnlyBranch.touchLeaf (h : s.OnlyBranch participant item t) {k : ResultKey}
    (hk : s.InBranch participant item k) {u : Store} (htouch : t.touchLeaf k now = .ok u) :
    s.OnlyBranch participant item u := by
  obtain ⟨created, v, hinsert, rfl⟩ := touchLeaf_eq_ok htouch
  split
  · exact h.insertResult hk hinsert
  · exact (h.insertResult hk hinsert).modify hk _

theorem OnlyBranch.addAnswer (h : s.OnlyBranch participant item t) {policy : RetryPolicy}
    {ids : IdSource} {answer : Answer} {id : AnswerId} {u : Store}
    (hk : s.InBranch participant item answer.result)
    (hadd : (t.addAnswer policy ids answer now).1 = .ok (id, u)) :
    s.OnlyBranch participant item u := by
  obtain ⟨v, htouch, hinsert⟩ := addAnswer_eq_ok hadd
  obtain ⟨-, -, rfl⟩ := insertAnswer_eq_ok hinsert
  exact (h.touchLeaf hk htouch).congr rfl rfl

theorem OnlyBranch.gradeAnswer (hdone : s.AllDone) (h : s.OnlyBranch participant item t)
    (ht : t.Coherent) {id : AnswerId} {event : GradingEvent} {status : GradeStatus}
    (hk : s.InBranch participant item event.result)
    (hgrade : t.gradeAnswer id event now = .ok (status, s')) :
    s.OnlyBranch participant item s' := by
  rcases gradeAnswer_eq_ok hgrade with ⟨-, rfl⟩ | ⟨-, u, v, outcome, hinsert, htouch, hsettle⟩
  · exact h
  · have hv := (ht.insertGrading hinsert).resultsGrow (resultsGrow_touchLeaf htouch)
    obtain ⟨-, score, -, rfl⟩ := insertGrading_eq_ok hinsert
    refine OnlyBranch.propagateResults hdone (OnlyBranch.touchLeaf ?_ hk htouch) hv.toLayered hsettle
    exact h.congr rfl rfl

/-- A call that records work changes results in the branch of its item only. -/
theorem onlyBranch_work (hs : s.Coherent) (hdone : s.AllDone) {call : Call}
    (hcall : call.worksOn = some (participant, item)) (hwork : Worked now s s' call) :
    s.OnlyBranch participant item s' := by
  have hself := OnlyBranch.refl s participant item
  have hown : ∀ attempt, s.InBranch participant item ⟨participant, attempt, item⟩ :=
    fun _ => ⟨rfl, .refl⟩
  cases hwork with
  | start hinsert =>
    obtain ⟨-, -, -, rfl⟩ := insertAttempt_eq_ok hinsert
    exact hself.congr rfl rfl
  | startOn hinsert hresult hsettle =>
    obtain ⟨rfl, rfl⟩ := Prod.mk.inj (Option.some.inj hcall)
    have hu := (hs.insertAttempt hinsert).resultsGrow (resultsGrow_insertResult hresult)
    obtain ⟨-, -, -, rfl⟩ := insertAttempt_eq_ok hinsert
    refine OnlyBranch.propagateResults hdone (OnlyBranch.insertResult ?_ (hown _) hresult)
      hu.toLayered hsettle
    exact hself.congr rfl rfl
  | answer hadd hsettle =>
    obtain ⟨rfl, rfl⟩ := Prod.mk.inj (Option.some.inj hcall)
    exact (hself.addAnswer (hown _) hadd).propagateResults hdone (hs.addAnswer hadd).toLayered hsettle
  | grade _ _ hgrade =>
    obtain ⟨rfl, rfl⟩ := Prod.mk.inj (Option.some.inj hcall)
    exact hself.gradeAnswer hdone hs (hown _) hgrade
  | gradeNew hadd hgrade =>
    obtain ⟨rfl, rfl⟩ := Prod.mk.inj (Option.some.inj hcall)
    exact (hself.addAnswer (hown _) hadd).gradeAnswer hdone (hs.addAnswer hadd) (hown _) hgrade
  | correct hsettle =>
    obtain ⟨rfl, rfl⟩ := Prod.mk.inj (Option.some.inj hcall)
    refine OnlyBranch.propagateResults hdone ((hself.modify (hown _) _).modify (hown _) _) ?_ hsettle
    exact ((hs.resultsGrow (resultsGrow_setEditRule s _ _)).resultsGrow
      (resultsGrow_setProgress _ _ _)).toLayered
  | settle => exact absurd hcall (by simp [Call.worksOn])

end Store

end Courseware
