import Courseware.Result.Propagation
import Courseware.Proofs.Bests
import Courseware.Proofs.Integrity

/-!
# Results that are what they are due

A result is consistent if recomputing it would change neither its score, as a number, nor its dates.
What it is due follows from its own correction and from the best of the results that count on each
part, or from its graded answers; so it stays consistent while these are sustained
(`Sustains.consistent`). They are even when a blank result joins those that count
(`sustains_insert`).
-/

namespace Courseware

/-- The scores are the same number, and the dates are the same. -/
def Aggregate.Agrees (a b : Aggregate) : Prop :=
  a.score.same b.score = true ∧ a.obtainedAt = b.obtainedAt ∧ a.validatedAt = b.validatedAt

instance (a b : Aggregate) : Decidable (a.Agrees b) := inferInstanceAs (Decidable (_ ∧ _ ∧ _))

theorem Aggregate.Alike.agrees {a b c : Aggregate} (h : a.Alike b) (hac : a.Agrees c) :
    b.Agrees c :=
  ⟨by rw [← h.score.same_left]; exact hac.1, h.obtainedAt.symm.trans hac.2.1,
    h.validatedAt.symm.trans hac.2.2⟩

namespace Table

variable {κ ν : Type} [DecidableEq κ] [Key κ]

/-- A row under a new key comes in between the others. -/
theorem toList_insert_of_new {t : Table κ ν} {k : κ} (v : ν) (h : t.contains k = false) :
    ∃ before after, t.toList = before ++ after ∧
      (t.insert k v).toList = before ++ (k, v) :: after := by
  have hrows : ∀ rows : List (κ × ν), (∀ e ∈ rows, e.1 ≠ k) →
      ∃ before after, rows = before ++ after ∧ insertRow k v rows = before ++ (k, v) :: after := by
    intro rows
    induction rows with
    | nil => exact fun _ => ⟨[], [], rfl, rfl⟩
    | cons e rest ih =>
      intro hne
      rw [insertRow, if_neg (hne e List.mem_cons_self)]
      split
      · exact ⟨[], e :: rest, rfl, rfl⟩
      · obtain ⟨before, after, hrest, hinsert⟩ :=
          ih fun e' he' => hne e' (List.mem_cons_of_mem _ he')
        exact ⟨e :: before, after, by rw [hrest]; rfl, by rw [hinsert]; rfl⟩
  refine hrows t.entries fun e he hk => ?_
  have hget : t.get? e.1 = some e.2 := mem_toList_iff.1 he
  rw [hk, get?_eq_none_iff.2 h] at hget
  exact absurd hget (by simp)

end Table

namespace Store

variable {s t : Store} {key : ResultKey}

/-- The result has the score and the dates that it is due. -/
def Consistent (s : Store) (key : ResultKey) (r : Result) : Prop :=
  (s.dueValues key r).Agrees r.values

instance (s : Store) (key : ResultKey) (r : Result) : Decidable (s.Consistent key r) :=
  inferInstanceAs (Decidable (Aggregate.Agrees _ _))

/-! ### What a result is made of -/

/-- The values of a result, if there is one. -/
def valuesAt (s : Store) (key : ResultKey) : Option Aggregate :=
  (s.results.get? key).map (·.values)

/-- A result that counts on a part of the item of another. -/
structure IsSource (s : Store) (src key : ResultKey) : Prop where
  participant : src.participant = key.participant
  link : s.links.contains (key.item, src.item) = true
  feeds : s.feeds src key.attempt = true

/-- The values of the results that count on an item. -/
def countedValues (s : Store) (key : ResultKey) (part : ItemId) : Table ResultKey Aggregate :=
  (s.results.filter fun k _ => decide (k.participant = key.participant) &&
    decide (k.item = part) && s.feeds k key.attempt).map fun _ r => r.values

/-- The values of the best of them. -/
def partBest (s : Store) (key : ResultKey) (part : ItemId) : Option Aggregate :=
  (bestResult (s.countedValues key part).toList).map (·.2)

theorem get?_countedValues {part : ItemId} {src : ResultKey} {a : Aggregate} :
    (s.countedValues key part).get? src = some a ↔
      s.valuesAt src = some a ∧ src.participant = key.participant ∧ src.item = part ∧
        s.feeds src key.attempt = true := by
  rw [countedValues, Table.get?_map_eq_some, valuesAt, Option.map_eq_some_iff]
  simp only [Table.get?_filter_eq_some, Bool.and_eq_true, decide_eq_true_eq]
  constructor
  · rintro ⟨r, ⟨hr, ⟨hparticipant, hitem⟩, hfeeds⟩, ha⟩
    exact ⟨⟨r, hr, ha⟩, hparticipant, hitem, hfeeds⟩
  · rintro ⟨⟨r, hr, ha⟩, hparticipant, hitem, hfeeds⟩
    exact ⟨r, ⟨hr, ⟨hparticipant, hitem⟩, hfeeds⟩, ha⟩

theorem linkedResults_values (s : Store) (key : ResultKey) (part : ItemId) :
    (s.linkedResults key.participant key.attempt part).map (fun e => (e.1, e.2.values)) =
      (s.countedValues key part).toList := by
  rw [linkedResults, resultsOn, List.filter_filter]
  refine congrArg (List.map fun e : ResultKey × Result => (e.1, e.2.values))
    (List.filter_congr fun e _ => ?_)
  rw [Bool.and_comm]

/-- A part with the best of the results that count on it. -/
def partOf (s : Store) (key : ResultKey) (p : ItemId × Link × Item) : Part where
  category := p.2.1.category
  unscored := p.2.2.unscored
  weight := p.2.1.weight
  best := s.partBest key p.1

theorem baseValues_eq {item : Item} (hitem : s.items.get? key.item = some item) (r : Result) :
    s.baseValues key r =
      if (s.partsOf key.item).isEmpty then
        aggregateAnswers
          ((s.gradedAnswers key).map fun a => (a.2.1.submittedAt, a.2.2.map (·.score)))
          r.values.activityAt
      else
        aggregateParts item.validation ((s.partsOf key.item).map (s.partOf key))
          r.values.activityAt := by
  rw [baseValues, hitem]
  simp only [sources, List.isEmpty_map, List.map_map]
  split
  · rfl
  · refine congrArg (aggregateParts item.validation · r.values.activityAt)
      (List.map_congr_left fun p _ => ?_)
    simp only [Function.comp_apply, linkedResults_values]
    rfl

/-- What the result under a key is made of is the same in both stores, apart from results that are
no better. -/
structure Sustains (s t : Store) (key : ResultKey) : Prop where
  item : ∃ item, s.items.get? key.item = some item ∧ t.items.get? key.item = some item
  parts : t.partsOf key.item = s.partsOf key.item
  answers : t.gradedAnswers key = s.gradedAnswers key
  bests : ∀ part, s.links.contains (key.item, part) = true →
    NoBetter (s.partBest key part) (t.partBest key part)

theorem Sustains.alike (h : s.Sustains t key) {r r' : Result} (hrule : r'.editRule = r.editRule)
    (hvalue : r'.editValue = r.editValue) : (s.dueValues key r).Alike (t.dueValues key r') := by
  obtain ⟨item, hs, ht⟩ := h.item
  rw [dueValues, dueValues, hrule, hvalue]
  refine Aggregate.Alike.corrected ?_ _ _
  rw [baseValues_eq hs, baseValues_eq ht, h.parts, h.answers]
  split
  · exact ⟨.refl _, rfl, rfl⟩
  · refine alike_aggregateParts ?_ _ _ _
    rw [List.forall₂_map_left_iff, List.forall₂_map_right_iff]
    refine List.forall₂_same.2 fun p hp => ⟨rfl, rfl, rfl, ?_⟩
    exact h.bests p.1 (Table.contains_of_get? (mem_partsOf.1 hp).1)

theorem Sustains.consistent (h : s.Sustains t key) {r r' : Result} (hvalues : r'.values = r.values)
    (hrule : r'.editRule = r.editRule) (hvalue : r'.editValue = r.editValue)
    (hr : s.Consistent key r) : t.Consistent key r' := by
  rw [Consistent, hvalues]
  exact (h.alike hrule hvalue).agrees hr

/-- The same results count. -/
theorem Sustains.of_counted (hitem : ∃ item, s.items.get? key.item = some item ∧
      t.items.get? key.item = some item)
    (hparts : t.partsOf key.item = s.partsOf key.item)
    (hanswers : t.gradedAnswers key = s.gradedAnswers key)
    (hcounted : ∀ src a, src.participant = key.participant →
      s.links.contains (key.item, src.item) = true →
      (t.valuesAt src = some a ∧ t.feeds src key.attempt = true ↔
        s.valuesAt src = some a ∧ s.feeds src key.attempt = true)) :
    s.Sustains t key := by
  refine ⟨hitem, hparts, hanswers, fun part hpart => Or.inl ?_⟩
  rw [partBest, partBest]
  refine congrArg (fun table => (bestResult (Table.toList table)).map (·.2))
    (Table.ext_get? fun src => Option.ext fun a => ?_)
  rw [get?_countedValues, get?_countedValues]
  constructor
  · rintro ⟨ha, hparticipant, rfl, hfeeds⟩
    obtain ⟨ha', hfeeds'⟩ := (hcounted src a hparticipant hpart).1 ⟨ha, hfeeds⟩
    exact ⟨ha', hparticipant, rfl, hfeeds'⟩
  · rintro ⟨ha, hparticipant, rfl, hfeeds⟩
    obtain ⟨ha', hfeeds'⟩ := (hcounted src a hparticipant hpart).2 ⟨ha, hfeeds⟩
    exact ⟨ha', hparticipant, rfl, hfeeds'⟩

/-- Nothing but results differs, and those that count have the same values. -/
theorem sustains_setResults {rs : Table ResultKey Result} (hitem : s.items.contains key.item = true)
    (hsame : ∀ src, s.IsSource src key → { s with results := rs }.valuesAt src = s.valuesAt src) :
    s.Sustains { s with results := rs } key := by
  obtain ⟨item, hget⟩ := Table.contains_iff.1 hitem
  refine .of_counted ⟨item, hget, hget⟩ rfl rfl fun src a hparticipant hlink => ?_
  refine and_congr_left fun hfeeds => ?_
  rw [hsame src ⟨hparticipant, hlink, hfeeds⟩]

/-- The score of every result is a number from 0 to 100, and what corrects it is a number. -/
def ProperScores (s : Store) : Prop :=
  ∀ key r, s.results.get? key = some r →
    r.values.score.Proper ∧ ∀ value ∈ r.editValue, value.isNaN = false

/-- The scores of the results that count for a result are numbers from 0 to 100. -/
def ProperSources (s : Store) (key : ResultKey) : Prop :=
  ∀ src r, s.results.get? src = some r → s.IsSource src key → r.values.score.Proper

theorem ProperScores.sources (h : s.ProperScores) (key : ResultKey) : s.ProperSources key :=
  fun src r hr _ => (h src r hr).1

theorem valuesAt_insert (s : Store) (new src : ResultKey) (row : Result) :
    { s with results := s.results.insert new row }.valuesAt src =
      if new = src then some row.values else s.valuesAt src := by
  rw [valuesAt, Table.get?_insert]
  split
  · rfl
  · rfl

theorem valuesAt_eq_none_iff : s.valuesAt key = none ↔ s.results.contains key = false := by
  rw [valuesAt, Option.map_eq_none_iff, Table.get?_eq_none_iff]

/-- A blank result joins. -/
theorem sustains_insert {new : ResultKey} {row : Result} (hitem : s.items.contains key.item = true)
    (hnew : s.results.contains new = false) (hblank : row.values.Blank) (hproper : s.ProperSources key) :
    s.Sustains { s with results := s.results.insert new row } key := by
  obtain ⟨item, hget⟩ := Table.contains_iff.1 hitem
  refine ⟨⟨item, hget, hget⟩, rfl, rfl, fun part hlink => ?_⟩
  have hold : ∀ e ∈ (s.countedValues key part).toList, e.2.score.Proper := by
    intro e he
    obtain ⟨hvalues, hparticipant, rfl, hfeeds⟩ :=
      get?_countedValues.1 (Table.mem_toList_iff.1 he)
    obtain ⟨r, hr, heq⟩ := Option.map_eq_some_iff.1 hvalues
    rw [← heq]
    exact hproper e.1 r hr ⟨hparticipant, hlink, hfeeds⟩
  have hnone := valuesAt_eq_none_iff.2 hnew
  by_cases hcounts : new.participant = key.participant ∧ new.item = part ∧
      s.feeds new key.attempt = true
  · have hinsert : { s with results := s.results.insert new row }.countedValues key part =
        (s.countedValues key part).insert new row.values := by
      refine Table.ext_get? fun src => Option.ext fun a => ?_
      rw [get?_countedValues, valuesAt_insert, Table.get?_insert]
      split
      · rename_i heq
        subst heq
        exact and_iff_left hcounts
      · exact get?_countedValues.symm
    have hfresh : (s.countedValues key part).contains new = false := by
      rw [← Table.get?_eq_none_iff, Option.eq_none_iff_forall_ne_some]
      intro a ha
      rw [get?_countedValues, hnone] at ha
      exact absurd ha.1 (by simp)
    obtain ⟨before, after, hlist, hlist'⟩ := Table.toList_insert_of_new row.values hfresh
    rw [partBest, partBest, hinsert, hlist', hlist]
    rw [hlist] at hold
    exact noBetter_bestResult_insert hblank hold
  · have hsame : { s with results := s.results.insert new row }.countedValues key part =
        s.countedValues key part := by
      refine Table.ext_get? fun src => Option.ext fun a => ?_
      rw [get?_countedValues, get?_countedValues, valuesAt_insert]
      split
      · rename_i heq
        subst heq
        rw [hnone]
        exact ⟨fun h => absurd h.2 hcounts, fun h => absurd h.1 (by simp)⟩
      · exact Iff.rfl
    rw [partBest, partBest, hsame]
    exact .refl _

end Store

end Courseware
