import Courseware.Result.Aggregate
import Courseware.Proofs.Scores

/-!
# Results that count like none

A result with score 0 that is neither obtained nor validated is blank, as every new result is.
Among the results on a part it never stands in the way of another one, and an item is due the same
score, as a number, and the same dates whether a part has a blank result or none
(`alike_aggregateParts`).
-/

namespace Courseware

namespace Aggregate

/-- Score 0, and neither obtained nor validated. -/
structure Blank (a : Aggregate) : Prop where
  score : a.score = .zero
  obtainedAt : a.obtainedAt = none
  validatedAt : a.validatedAt = none

theorem blank_fresh (now : Timestamp) : (fresh now).Blank := ⟨rfl, rfl, rfl⟩

/-- The dates are the same, and the scores up to the sign of a zero. -/
structure Alike (a b : Aggregate) : Prop where
  score : Score.Alike a.score b.score
  obtainedAt : a.obtainedAt = b.obtainedAt
  validatedAt : a.validatedAt = b.validatedAt

theorem Alike.corrected {a b : Aggregate} (h : Alike a b) (rule : Option EditRule)
    (value : Option Score) : Alike (a.corrected rule value) (b.corrected rule value) := by
  refine ⟨Score.Alike.clamp ?_, h.obtainedAt, h.validatedAt⟩
  split
  · exact .refl _
  · exact h.score.add_right _
  · exact h.score

end Aggregate

/-! ### The best of some results -/

/-- What is no better than a blank result is blank. -/
theorem blank_of_compareResults_ne {a b : ResultKey × Aggregate} (ha : a.2.score.Proper)
    (hb : b.2.Blank) (h : compareResults a b ≠ .lt) : a.2.Blank := by
  have hplace := ha.place
  have hzero : Score.zero.place = 0 := rfl
  rw [compareResults, hb.score, hb.obtainedAt, Score.compareTotal, hzero, hplace] at h
  have hmagnitude : ¬ 0 < (a.2.score.magnitude : Int) := by
    intro hpos
    rw [if_pos hpos] at h
    exact h rfl
  rw [if_neg hmagnitude, if_neg (by omega), Aggregate.isValidated, Aggregate.isValidated,
    hb.validatedAt] at h
  refine ⟨ha.eq_zero (by omega), ?_, ?_⟩
  · cases hobtained : a.2.obtainedAt with
    | none => rfl
    | some at_ =>
      rw [hobtained] at h
      cases hvalidated : a.2.validatedAt <;> simp [hvalidated] at h
  · cases hvalidated : a.2.validatedAt with
    | none => rfl
    | some at_ => simp [hvalidated] at h

/-- What a blank result is better than is blank. -/
theorem blank_of_compareResults {a b : ResultKey × Aggregate} (ha : a.2.Blank)
    (hb : b.2.score.Proper) (h : compareResults a b = .lt) : b.2.Blank := by
  have hplace := hb.place
  have hzero : Score.zero.place = 0 := rfl
  rw [compareResults, ha.score, ha.obtainedAt, Score.compareTotal, hzero, hplace,
    if_neg (by omega)] at h
  have hmagnitude : ¬ 0 < (b.2.score.magnitude : Int) := by
    intro hpos
    rw [if_pos hpos] at h
    simp at h
  rw [if_neg hmagnitude, Aggregate.isValidated, Aggregate.isValidated, ha.validatedAt] at h
  have hvalidated : b.2.validatedAt = none := by
    cases hvalidated : b.2.validatedAt with
    | none => rfl
    | some date => simp [hvalidated] at h
  refine ⟨hb.eq_zero (by omega), ?_, hvalidated⟩
  cases hobtained : b.2.obtainedAt with
  | none => rfl
  | some date => simp [hobtained, hvalidated] at h

theorem mem_of_bestResult {results : List (ResultKey × Aggregate)} {r : ResultKey × Aggregate}
    (h : bestResult results = some r) : r ∈ results := by
  induction results generalizing r with
  | nil => simp [bestResult] at h
  | cons e rest ih =>
    rw [bestResult] at h
    split at h
    · rename_i s hs
      split at h
      · exact List.mem_cons_of_mem _ (ih (Option.some.inj h ▸ hs))
      · exact Option.some.inj h ▸ List.mem_cons_self
    · exact Option.some.inj h ▸ List.mem_cons_self

/-- With one more blank result among them, the best of some results stays what it was, or it becomes
a blank one where it was blank, if there was any. -/
theorem bestResult_insert {before after : List (ResultKey × Aggregate)}
    {r : ResultKey × Aggregate} (hr : r.2.Blank)
    (hproper : ∀ e ∈ before ++ after, e.2.score.Proper) :
    bestResult (before ++ r :: after) = bestResult (before ++ after) ∨
      ∃ b, bestResult (before ++ r :: after) = some b ∧ b.2.Blank ∧
        ∀ a, bestResult (before ++ after) = some a → a.2.Blank := by
  induction before with
  | nil =>
    rw [List.nil_append, List.nil_append, bestResult]
    cases hbest : bestResult after with
    | none => exact Or.inr ⟨r, rfl, hr, by simp⟩
    | some s =>
      simp only
      split
      · exact Or.inl rfl
      · rename_i hne
        refine Or.inr ⟨r, rfl, hr, fun a ha => ?_⟩
        obtain rfl : s = a := Option.some.inj ha
        exact blank_of_compareResults_ne (hproper s (mem_of_bestResult hbest)) hr hne
  | cons e rest ih =>
    have he : e.2.score.Proper := hproper e List.mem_cons_self
    rw [List.cons_append, List.cons_append, bestResult, bestResult]
    rcases ih fun e' he' => hproper e' (List.mem_cons_of_mem _ he') with heq | ⟨b, hb, hblank, hold⟩
    · exact Or.inl (by rw [heq])
    · rw [hb]
      simp only
      -- The better of `e` and a blank result is blank only if `e` is.
      split
      · rename_i hlt
        have heblank := blank_of_compareResults hblank he hlt
        refine Or.inr ⟨b, rfl, hblank, fun a ha => ?_⟩
        split at ha
        · rename_i s hs
          split at ha
          · exact Option.some.inj ha ▸ hold s hs
          · exact Option.some.inj ha ▸ heblank
        · exact Option.some.inj ha ▸ heblank
      · split
        · rename_i s hs
          split
          · rename_i hlt
            have heblank := blank_of_compareResults (hold s hs) he hlt
            exact Or.inr ⟨e, rfl, heblank, fun a ha => Option.some.inj ha ▸ hold s hs⟩
          · exact Or.inl rfl
        · exact Or.inl rfl

/-! ### Parts -/

/-- The second is the first, or it is blank and so is the first, if any. -/
def NoBetter (old new : Option Aggregate) : Prop :=
  new = old ∨ ∃ b, new = some b ∧ b.Blank ∧ ∀ a, old = some a → a.Blank

theorem NoBetter.refl (a : Option Aggregate) : NoBetter a a := Or.inl rfl

theorem noBetter_bestResult_insert {before after : List (ResultKey × Aggregate)}
    {r : ResultKey × Aggregate} (hr : r.2.Blank)
    (hproper : ∀ e ∈ before ++ after, e.2.score.Proper) :
    NoBetter ((bestResult (before ++ after)).map (·.2))
      ((bestResult (before ++ r :: after)).map (·.2)) := by
  rcases bestResult_insert hr hproper with heq | ⟨b, hb, hblank, hold⟩
  · exact Or.inl (by rw [heq])
  · refine Or.inr ⟨b.2, by rw [hb]; rfl, hblank, fun a ha => ?_⟩
    obtain ⟨r', hr', rfl⟩ := Option.map_eq_some_iff.1 ha
    exact hold r' hr'

/-- They have the same dates, if any. -/
theorem NoBetter.dates {old new : Option Aggregate} (h : NoBetter old new) :
    new.bind (·.obtainedAt) = old.bind (·.obtainedAt) ∧
      new.bind (·.validatedAt) = old.bind (·.validatedAt) := by
  rcases h with rfl | ⟨b, rfl, hblank, hold⟩
  · exact ⟨rfl, rfl⟩
  · cases old with
    | none => exact ⟨hblank.obtainedAt, hblank.validatedAt⟩
    | some a =>
      have ha := hold a rfl
      exact ⟨hblank.obtainedAt.trans ha.obtainedAt.symm,
        hblank.validatedAt.trans ha.validatedAt.symm⟩

namespace Part

/-- The part is the same except for a best result that is no better. -/
structure Alike (p q : Part) : Prop where
  category : q.category = p.category
  unscored : q.unscored = p.unscored
  weight : q.weight = p.weight
  best : NoBetter p.best q.best

section Lists

variable {ps qs : List Part}

theorem alike_filter (h : List.Forall₂ Alike ps qs) (keep : Part → Bool)
    (hkeep : ∀ p q, Alike p q → keep q = keep p) :
    List.Forall₂ Alike (ps.filter keep) (qs.filter keep) := by
  induction h with
  | nil => exact .nil
  | cons hpq _ ih =>
    rw [List.filter_cons, List.filter_cons, hkeep _ _ hpq]
    split
    · exact .cons hpq ih
    · exact ih

theorem map_of_alike {α : Type} (h : List.Forall₂ Alike ps qs) {f : Part → α}
    (hf : ∀ p q, Alike p q → f q = f p) : qs.map f = ps.map f := by
  induction h with
  | nil => rfl
  | cons hpq _ ih => rw [List.map_cons, List.map_cons, ih, hf _ _ hpq]

/-- What a part adds to the sum of scores, if anything. -/
def term (p : Part) : Option Score := p.best.map fun b => b.score.mul (.ofInt64 p.weight)

theorem Alike.term {p q : Part} (h : Alike p q) :
    q.term = p.term ∨ (p.term = none ∧ q.term = some (Score.zero.mul (.ofInt64 q.weight))) := by
  rcases h.best with heq | ⟨b, hb, hblank, hold⟩
  · exact Or.inl (by rw [Part.term, Part.term, heq, h.weight])
  · cases hp : p.best with
    | none =>
      refine Or.inr ⟨by rw [Part.term, hp]; rfl, ?_⟩
      rw [Part.term, hb, Option.map_some, hblank.score]
    | some a =>
      refine Or.inl ?_
      rw [Part.term, Part.term, hb, hp, Option.map_some, Option.map_some, hblank.score,
        (hold a hp).score, h.weight]

/-- Blank results do not change the sum. -/
theorem alike_sum (h : List.Forall₂ Alike ps qs) {x y : Score} (hx : x.IsPacked) (hy : y.IsPacked)
    (hxy : Score.Alike x y) :
    Score.Alike ((ps.filterMap term).foldl Score.add x) ((qs.filterMap term).foldl Score.add y) := by
  induction h generalizing x y with
  | nil => exact hxy
  | @cons p q _ _ hpq _ ih =>
    rw [List.filterMap_cons, List.filterMap_cons]
    rcases hpq.term with heq | ⟨hp, hq⟩
    · rw [heq]
      cases p.term with
      | none => exact ih hx hy hxy
      | some z => exact ih (Score.isPacked_add x z) (Score.isPacked_add y z) (hxy.add_right z)
    · rw [hp, hq]
      exact ih hx (Score.isPacked_add y _) (hxy.trans (Score.alike_add_zero hy _).symm)

theorem alike_averageScore (h : List.Forall₂ Alike ps qs) :
    Score.Alike (averageScore ps) (averageScore qs) := by
  have hsum := alike_sum h Score.isPacked_zero Score.isPacked_zero (.refl _)
  rw [averageScore, averageScore, map_of_alike h fun _ _ hpq => hpq.weight]
  split
  · rename_i hweight
    exact hsum.div_right hweight
  · exact .refl _

theorem validatedAt_of_alike (h : List.Forall₂ Alike ps qs) (validation : Validation) :
    validatedAt validation qs = validatedAt validation ps := by
  have hdates : ∀ {ps qs : List Part}, List.Forall₂ Alike ps qs →
      (qs.map fun p => p.best.bind (·.validatedAt)) = ps.map fun p => p.best.bind (·.validatedAt) :=
    fun h => map_of_alike h fun _ _ hpq => hpq.best.dates.2
  cases validation with
  | standard =>
    simp only [validatedAt]
    rw [hdates h]
  | categories =>
    have hrequired := alike_filter h (fun p => decide (p.category = .validation))
      fun _ _ hpq => by rw [hpq.category]
    simp only [validatedAt]
    rw [hdates hrequired]

end Lists

end Part

theorem alike_aggregateParts {ps qs : List Part} (h : List.Forall₂ Part.Alike ps qs)
    (validation : Validation) (activity activity' : Timestamp) :
    (aggregateParts validation ps activity).Alike (aggregateParts validation qs activity') := by
  have hscored := Part.alike_filter h (fun p => !p.unscored) fun _ _ hpq => by
    rw [hpq.unscored]
  refine ⟨Part.alike_averageScore hscored, ?_, (Part.validatedAt_of_alike hscored validation).symm⟩
  simp only [aggregateParts, List.filterMap_filterMap]
  refine congrArg Timestamp.latestOf ?_
  have hdates := Part.map_of_alike hscored (f := fun p => p.best.bind (·.obtainedAt))
    fun _ _ hpq => hpq.best.dates.1
  have hall : ∀ parts : List Part, (parts.filterMap fun p => p.best.bind (·.obtainedAt)) =
      (parts.map fun p => p.best.bind (·.obtainedAt)).filterMap id := fun parts => by
    rw [List.filterMap_map]
    rfl
  rw [hall, hall, hdates]

/-- While nothing counts on any part, an item is due what a new result has. -/
theorem alike_aggregateParts_fresh {parts : List Part} (h : ∀ p ∈ parts, p.best = none)
    (validation : Validation) (activity now : Timestamp) :
    (Aggregate.fresh now).Alike (aggregateParts validation parts activity) := by
  have hscored : ∀ p ∈ parts.filter fun p => !p.unscored, p.best = none := fun p hp =>
    h p (List.mem_filter.1 hp).1
  generalize hparts : parts.filter (fun p => !p.unscored) = scored at hscored
  have hnone : ∀ {α : Type} (f : Part → Option α), (∀ p ∈ scored, f p = none) →
      scored.filterMap f = [] := fun f hf => List.filterMap_eq_nil_iff.2 hf
  have hbests : scored.filterMap (·.best) = [] := hnone _ hscored
  refine ⟨?_, ?_, ?_⟩
  · simp only [aggregateParts, hparts, Part.averageScore]
    rw [hnone _ fun p hp => by rw [hscored p hp]; rfl]
    split
    · rename_i hweight
      exact (Score.alike_zero_div hweight).symm
    · exact .refl _
  · simp only [aggregateParts, hparts, hbests]
    rfl
  · simp only [aggregateParts, hparts]
    cases validation with
    | standard =>
      simp only [Part.validatedAt, List.filterMap_map]
      rw [hnone _ fun p hp => by simp [hscored p hp]]
      rfl
    | categories =>
      simp only [Part.validatedAt]
      split
      · rw [List.filterMap_eq_nil_iff.2]
        · rfl
        · intro date hdate
          obtain ⟨p, hp, rfl⟩ := List.mem_map.1 hdate
          simp [hscored p (List.mem_filter.1 hp).1]
      · rfl

end Courseware
