import Courseware.Proofs.Bests
import Courseware.Proofs.Chronology

/-!
# What graded answers come to

The best score of some answers, the earliest date of those with full score and the latest activity
are bounds that some of the answers attain. They say all there is to say about the values of a leaf:
more answers, or more of them graded, never give less (`aggregateAnswers_advances`), and neither order
nor repetition of the answers matters (`aggregateAnswers_congr`).
-/

namespace Courseware

namespace Score

variable {a b c : Score}

/-! ### Comparing scores -/

theorem atMost_iff :
    a.atMost b = true ↔ (a.isNaN = false ∧ b.isNaN = false) ∧ a.signed ≤ b.signed := by
  rw [atMost, Bool.and_eq_true, Bool.and_eq_true, Bool.not_eq_true', Bool.not_eq_true',
    decide_eq_true_eq]

theorem atMost_refl (h : a.isNaN = false) : a.atMost a = true :=
  atMost_iff.2 ⟨⟨h, h⟩, Int.le_refl _⟩

theorem atMost_trans (hab : a.atMost b = true) (hbc : b.atMost c = true) : a.atMost c = true := by
  obtain ⟨⟨ha, -⟩, hab⟩ := atMost_iff.1 hab
  obtain ⟨⟨-, hc⟩, hbc⟩ := atMost_iff.1 hbc
  exact atMost_iff.2 ⟨⟨ha, hc⟩, Int.le_trans hab hbc⟩

theorem Alike.atMost (h : Alike a b) (ha : a.isNaN = false) : a.atMost b = true :=
  atMost_iff.2 ⟨⟨ha, h.isNaN ▸ ha⟩, Int.le_of_eq h.signed⟩

theorem alike_of_atMost (hab : a.atMost b = true) (hba : b.atMost a = true) : Alike a b :=
  alike_of_signed_eq (Int.le_antisymm (atMost_iff.1 hab).2 (atMost_iff.1 hba).2)

/-- A score is brought no further down than another that is no larger. -/
theorem atMost_clamp (h : a.atMost b = true) : a.clamp.atMost b.clamp = true := by
  obtain ⟨⟨ha, hb⟩, hle⟩ := atMost_iff.1 h
  have hzero : zero.signed = 0 := rfl
  have hfull : full.signed = 0x4059000000000000 := rfl
  refine atMost_iff.2 ⟨⟨isNaN_clamp ha, isNaN_clamp hb⟩, ?_⟩
  simp only [clamp, less, ha, hb, Bool.not_false, Bool.true_and, Bool.and_true,
    decide_eq_true_eq, show zero.isNaN = false from rfl, show full.isNaN = false from rfl, hzero,
    hfull]
  split
  · split
    · omega
    · split <;> omega
  · split
    · split
      · omega
      · split <;> omega
    · split
      · omega
      · split <;> omega

theorem full_atMost_of_clamp (h : full.atMost a.clamp = true) : full.atMost a = true := by
  rw [clamp] at h
  split at h
  · exact absurd h (by decide)
  · split at h
    · rename_i hless
      simp only [less, Bool.and_eq_true, Bool.not_eq_true', decide_eq_true_eq] at hless
      exact atMost_iff.2 ⟨hless.1, Int.le_of_lt hless.2⟩
    · exact h

/-! ### The best of some scores -/

instance : Max Score := ⟨max⟩

instance : Std.MaxEqOr Score where
  max_eq_or a b := by
    change a.max b = a ∨ a.max b = b
    rw [Score.max]
    split
    · exact Or.inr rfl
    · exact Or.inl rfl

theorem atMost_max_left (ha : a.isNaN = false) : a.atMost (a.max b) = true := by
  rw [max, ha, Bool.false_or]
  split
  · rename_i hless
    simp only [less, Bool.and_eq_true, Bool.not_eq_true', decide_eq_true_eq] at hless
    exact atMost_iff.2 ⟨hless.1, Int.le_of_lt hless.2⟩
  · exact atMost_refl ha

theorem atMost_max_right (ha : a.isNaN = false) (hb : b.isNaN = false) :
    b.atMost (a.max b) = true := by
  rw [max, ha, Bool.false_or]
  split
  · exact atMost_refl hb
  · rename_i hless
    simp only [less, ha, hb, Bool.not_false, Bool.true_and, decide_eq_true_eq] at hless
    exact atMost_iff.2 ⟨⟨hb, ha⟩, by omega⟩

theorem isNaN_of_atMost_right (h : a.atMost b = true) : b.isNaN = false :=
  (atMost_iff.1 h).1.2

theorem atMost_foldl_max (ha : a.isNaN = false) (scores : List Score) :
    a.atMost (scores.foldl max a) = true := by
  induction scores generalizing a with
  | nil => exact atMost_refl ha
  | cons b rest ih =>
    have hfirst := atMost_max_left (b := b) ha
    exact atMost_trans hfirst (ih (isNaN_of_atMost_right hfirst))

theorem atMost_foldl_max_of_mem (ha : a.isNaN = false) {scores : List Score} (hb : b ∈ scores)
    (hnumber : b.isNaN = false) : b.atMost (scores.foldl max a) = true := by
  induction scores generalizing a with
  | nil => exact absurd hb List.not_mem_nil
  | cons c rest ih =>
    have hnext := isNaN_of_atMost_right (atMost_max_left (b := c) ha)
    rcases List.mem_cons.1 hb with rfl | hb
    · exact atMost_trans (atMost_max_right ha hnumber) (atMost_foldl_max hnext rest)
    · exact ih hnext hb

theorem foldl_max_eq_or_mem (a : Score) (scores : List Score) :
    scores.foldl max a = a ∨ scores.foldl max a ∈ scores :=
  List.mem_cons.1 (List.max?_mem List.max?_cons')

/-- Among more scores there is a better one. -/
theorem foldl_max_atMost (ha : a.isNaN = false) {scores scores' : List Score}
    (hsub : ∀ b ∈ scores, b ∈ scores') :
    (scores.foldl max a).atMost (scores'.foldl max a) = true := by
  rcases foldl_max_eq_or_mem a scores with hfirst | hmem
  · rw [hfirst]
    exact atMost_foldl_max ha scores'
  · exact atMost_foldl_max_of_mem ha (hsub _ hmem)
      (isNaN_of_atMost_right (atMost_foldl_max ha scores))

end Score

namespace Timestamp

variable {t u : Timestamp}

/-! ### The earliest and the latest of some dates -/

theorem foldl_max_le_iff {dates : List Timestamp} :
    dates.foldl max t ≤ u ↔ t ≤ u ∧ ∀ date ∈ dates, date ≤ u :=
  (List.max?_le_iff List.max?_cons').trans List.forall_mem_cons

theorem earliestOf_eq_min? (dates : List Timestamp) : earliestOf dates = dates.min? := by
  cases dates <;> rfl

theorem earliestOf_eq_some_iff {dates : List Timestamp} :
    earliestOf dates = some t ↔ t ∈ dates ∧ ∀ date ∈ dates, t ≤ date := by
  rw [earliestOf_eq_min?, List.min?_eq_some_iff]

theorem exists_earliestOf {dates : List Timestamp} (h : t ∈ dates) :
    ∃ first, earliestOf dates = some first ∧ first ≤ t := by
  cases dates with
  | nil => exact absurd h List.not_mem_nil
  | cons first rest => exact ⟨_, rfl, (earliestOf_eq_some_iff.1 rfl).2 t h⟩

theorem earliestOf_congr {dates dates' : List Timestamp} (h : ∀ date, date ∈ dates ↔ date ∈ dates') :
    earliestOf dates = earliestOf dates' := by
  refine Option.ext fun t => ?_
  rw [earliestOf_eq_some_iff, earliestOf_eq_some_iff, h]
  exact and_congr_right fun _ => forall_congr' fun date => by rw [h]

end Timestamp

namespace Aggregate

variable {a b c : Aggregate}

/-! ### Getting further -/

/-- The score and the counts are no lower, and what was validated was so no later. -/
structure Advances (a b : Aggregate) : Prop where
  score : a.score.atMost b.score = true
  validatedAt : ∀ date, a.validatedAt = some date → ∃ date', b.validatedAt = some date' ∧ date' ≤ date
  tasksTried : a.tasksTried ≤ b.tasksTried
  activityAt : a.activityAt ≤ b.activityAt

theorem Advances.refl (h : a.score.isNaN = false) : a.Advances a :=
  ⟨Score.atMost_refl h, fun date hdate => ⟨date, hdate, le_refl date⟩, Int64.le_refl _,
    le_refl _⟩

theorem Advances.isNaN_left (h : a.Advances b) : a.score.isNaN = false :=
  (Score.atMost_iff.1 h.score).1.1

theorem Advances.trans (hab : a.Advances b) (hbc : b.Advances c) : a.Advances c := by
  refine ⟨Score.atMost_trans hab.score hbc.score, fun date hdate => ?_,
    Int64.le_trans hab.tasksTried hbc.tasksTried, le_trans hab.activityAt hbc.activityAt⟩
  obtain ⟨date', hdate', hle⟩ := hab.validatedAt date hdate
  obtain ⟨date'', hdate'', hle'⟩ := hbc.validatedAt date' hdate'
  exact ⟨date'', hdate'', le_trans hle' hle⟩

/-- The sign of a zero makes no difference. -/
theorem advances_of_alike {score : Score} (h : Score.Alike a.score score)
    (hnumber : a.score.isNaN = false) :
    a.Advances { a with score } ∧ Advances { a with score } a := by
  have hsame := Advances.refl (a := a) hnumber
  have hnumber' : score.isNaN = false := h.isNaN ▸ hnumber
  exact ⟨⟨h.atMost hnumber, hsame.validatedAt, hsame.tasksTried, hsame.activityAt⟩,
    ⟨h.symm.atMost hnumber', hsame.validatedAt, hsame.tasksTried, hsame.activityAt⟩⟩

/-- What is validated stays so. -/
theorem Advances.isSome (h : a.Advances b) (ha : a.validatedAt.isSome = true) :
    b.validatedAt.isSome = true := by
  obtain ⟨date, hdate⟩ := Option.isSome_iff_exists.1 ha
  obtain ⟨date', hdate', -⟩ := h.validatedAt date hdate
  rw [hdate']
  rfl

/-- Without a correction the score is only brought between 0 and 100. -/
theorem score_corrected (a : Aggregate) (value : Option Score) :
    a.corrected none value = { a with score := a.score.clamp } := by
  rw [corrected]
  cases value <;> rfl

theorem Advances.corrected (h : a.Advances b) (value value' : Option Score) :
    (a.corrected none value).Advances (b.corrected none value') := by
  rw [score_corrected, score_corrected]
  exact ⟨Score.atMost_clamp h.score, h.validatedAt, h.tasksTried, h.activityAt⟩

end Aggregate

/-! ### Answers -/

section Answers

variable {answers answers' : List (Timestamp × Option Score)} {activity activity' : Timestamp}

/-- Every answer is among the others, with the same grading if it has one. -/
def CoveredBy (answers answers' : List (Timestamp × Option Score)) : Prop :=
  ∀ a ∈ answers, ∃ b ∈ answers', b.1 = a.1 ∧ ∀ score, a.2 = some score → b.2 = some score

theorem coveredBy_of_subset (h : ∀ a ∈ answers, a ∈ answers') : CoveredBy answers answers' :=
  fun a ha => ⟨a, h a ha, rfl, fun _ hscore => hscore⟩

/-- The graded ones among some answers. -/
def gradedOf (answers : List (Timestamp × Option Score)) : List (Timestamp × Score) :=
  answers.filterMap fun a => a.2.map fun score => (a.1, score)

theorem mem_gradedOf {date : Timestamp} {score : Score} :
    (date, score) ∈ gradedOf answers ↔ (date, some score) ∈ answers := by
  rw [gradedOf, List.mem_filterMap]
  constructor
  · rintro ⟨⟨date', grade⟩, hmem, heq⟩
    obtain ⟨score', rfl, hpair⟩ := Option.map_eq_some_iff.1 heq
    obtain ⟨rfl, rfl⟩ := Prod.mk.inj hpair
    exact hmem
  · exact fun hmem => ⟨_, hmem, rfl⟩

theorem CoveredBy.graded (h : CoveredBy answers answers') {g : Timestamp × Score}
    (hg : g ∈ gradedOf answers) : g ∈ gradedOf answers' := by
  obtain ⟨⟨date, grade⟩, hmem, hdate, hgrade⟩ := h _ (mem_gradedOf.1 hg)
  refine mem_gradedOf.2 ?_
  rwa [← hdate, ← hgrade g.2 rfl]

theorem score_aggregateAnswers (answers : List (Timestamp × Option Score)) (activity : Timestamp) :
    (aggregateAnswers answers activity).score =
      ((gradedOf answers).map (·.2)).foldl Score.max .zero :=
  rfl

theorem zero_atMost_aggregateAnswers (answers : List (Timestamp × Option Score))
    (activity : Timestamp) : Score.zero.atMost (aggregateAnswers answers activity).score = true :=
  Score.atMost_foldl_max rfl _

theorem le_activityAt_aggregateAnswers (answers : List (Timestamp × Option Score))
    (activity : Timestamp) : activity ≤ (aggregateAnswers answers activity).activityAt :=
  (Timestamp.foldl_max_le_iff.1 le_rfl).1

/-- Answers of full score validate. -/
theorem validatedAt_of_full
    (h : Score.full.atMost (aggregateAnswers answers activity).score = true) :
    (aggregateAnswers answers activity).validatedAt.isSome = true := by
  rw [score_aggregateAnswers] at h
  rcases Score.foldl_max_eq_or_mem .zero ((gradedOf answers).map (·.2)) with hzero | hmem
  · rw [hzero] at h
    exact absurd h (by decide)
  · obtain ⟨g, hg, hscore⟩ := List.mem_map.1 hmem
    rw [← hscore] at h
    have hfull : g ∈ (gradedOf answers).filter fun g => Score.full.atMost g.2 :=
      List.mem_filter.2 ⟨hg, h⟩
    obtain ⟨first, hfirst, -⟩ := Timestamp.exists_earliestOf (List.mem_map_of_mem hfull)
    exact Option.isSome_of_eq_some hfirst

/-- More answers, more of them graded, and a later start get at least as far. -/
theorem aggregateAnswers_advances (h : CoveredBy answers answers') (hactivity : activity ≤ activity') :
    (aggregateAnswers answers activity).Advances (aggregateAnswers answers' activity') := by
  refine ⟨?_, fun date hdate => ?_, ?_, ?_⟩
  · refine Score.foldl_max_atMost rfl fun score hscore => ?_
    obtain ⟨g, hg, rfl⟩ := List.mem_map.1 hscore
    exact List.mem_map_of_mem (h.graded hg)
  · obtain ⟨hmem, -⟩ := Timestamp.earliestOf_eq_some_iff.1 hdate
    obtain ⟨g, hg, rfl⟩ := List.mem_map.1 hmem
    obtain ⟨hgraded, hfull⟩ := List.mem_filter.1 hg
    exact Timestamp.exists_earliestOf
      (List.mem_map_of_mem (List.mem_filter.2 ⟨h.graded hgraded, hfull⟩))
  · change (if answers.isEmpty then (0 : Int64) else 1) ≤ if answers'.isEmpty then 0 else 1
    cases answers with
    | nil =>
      rw [List.isEmpty_nil, if_pos rfl]
      split <;> decide
    | cons a rest =>
      obtain ⟨b, hb, -⟩ := h a List.mem_cons_self
      rw [if_neg (by simp), if_neg (by simpa using List.ne_nil_of_mem hb)]
      exact Int64.le_refl _
  · have hlate := Timestamp.foldl_max_le_iff.1
      (le_refl (aggregateAnswers answers' activity').activityAt)
    refine Timestamp.foldl_max_le_iff.2 ⟨le_trans hactivity hlate.1, fun date hdate => ?_⟩
    obtain ⟨a, ha, rfl⟩ := List.mem_map.1 hdate
    obtain ⟨b, hb, heq, -⟩ := h a ha
    rw [← heq]
    exact hlate.2 _ (List.mem_map_of_mem hb)

/-- Neither the order of answers nor their repetition matters, but for the sign of a zero. -/
theorem aggregateAnswers_congr (h : ∀ a, a ∈ answers ↔ a ∈ answers') (activity : Timestamp) :
    ∃ score, Score.Alike score (aggregateAnswers answers activity).score ∧
      aggregateAnswers answers' activity = { aggregateAnswers answers activity with score } := by
  have hmore := aggregateAnswers_advances (coveredBy_of_subset fun a ha => (h a).1 ha)
    (le_refl activity)
  have hless := aggregateAnswers_advances (coveredBy_of_subset fun a ha => (h a).2 ha)
    (le_refl activity)
  have halike := Score.alike_of_atMost hless.score hmore.score
  refine ⟨_, halike, ?_⟩
  have hdates : ∀ keep keep' : Timestamp × Score → Bool, (∀ g, keep g = keep' g) → ∀ date,
      date ∈ ((gradedOf answers').filter keep).map (·.1) ↔
        date ∈ ((gradedOf answers).filter keep').map (·.1) := by
    intro keep keep' hkeep date
    simp only [List.mem_map, List.mem_filter, hkeep, Prod.exists, mem_gradedOf, h]
  rw [Aggregate.mk.injEq]
  refine ⟨rfl, Timestamp.earliestOf_congr (hdates _ _ fun g => ?_),
    Timestamp.earliestOf_congr (hdates _ _ fun _ => rfl),
    Int64.le_antisymm hless.tasksTried hmore.tasksTried,
    le_antisymm hless.activityAt hmore.activityAt⟩
  change g.2.same (aggregateAnswers answers' activity).score =
    g.2.same (aggregateAnswers answers activity).score
  rw [Score.same, Score.same, halike.isNaN, halike.signed]

end Answers

end Courseware
