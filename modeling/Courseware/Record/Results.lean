import Courseware.Record
import Courseware.Result

/-!
# Attempts and results as records
-/

namespace Courseware

instance : Recorded ((GroupId × AttemptId) × Attempt) :=
  .ofFields ["participant", "id", "root_item", "parent_attempt", "created_at"]
    (fun ((participant, id), a) => (participant, id, a.rootItem, a.parent, a.createdAt, ()))
    (fun (participant, id, rootItem, parent, createdAt, ()) =>
      ((participant, id), { rootItem, parent, createdAt }))

instance : Recorded (ResultKey × Result) :=
  .ofFields ["participant", "attempt", "item", "score_computed", "score_obtained_at",
      "validated_at", "score_edit_rule", "score_edit_value", "tasks_tried", "latest_activity_at",
      "propagation_state"]
    (fun (k, r) =>
      (k.participant, k.attempt, k.item, r.values.score, r.values.obtainedAt,
        r.values.validatedAt, r.editRule, r.editValue, r.values.tasksTried, r.values.activityAt,
        r.progress, ()))
    (fun (participant, attempt, item, score, obtainedAt, validatedAt, editRule, editValue,
        tasksTried, activityAt, progress, ()) =>
      ({ participant, attempt, item },
        { values := { score, obtainedAt, validatedAt, tasksTried, activityAt }
          editRule, editValue, progress }))

instance : Recorded (AnswerId × Answer) :=
  .ofFields ["id", "participant", "attempt", "item", "author", "answer", "submitted_at"]
    (fun (id, a) =>
      (id, a.result.participant, a.result.attempt, a.result.item, a.author, a.text, a.submittedAt,
        ()))
    (fun (id, participant, attempt, item, author, text, submittedAt, ()) =>
      (id, { result := { participant, attempt, item }, author, text, submittedAt }))

instance : Recorded (AnswerId × Grading) :=
  .ofFields ["answer", "score", "graded_at"]
    (fun (answer, g) => (answer, g.score, g.gradedAt, ()))
    (fun (answer, score, gradedAt, ()) => (answer, { score, gradedAt }))

instance : Recorded GradingEvent :=
  .ofFields ["participant", "attempt", "item", "answer", "score", "graded_at"]
    (fun e =>
      (e.result.participant, e.result.attempt, e.result.item, e.answer, e.score, e.gradedAt, ()))
    (fun (participant, attempt, item, answer, score, gradedAt, ()) =>
      { result := { participant, attempt, item }, answer, score, gradedAt })

end Courseware
