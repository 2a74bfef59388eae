import Courseware.Proofs.Bests
import Courseware.Proofs.Table
import Courseware.Store.Results
import Mathlib.Data.List.Nodup
import Mathlib.Data.Prod.Lex
import Mathlib.Order.WithBot

/-!
# The best result

Results are compared one value after the other: by score, by whether they are validated, by when the
score was obtained, and by attempt. Comparing two results is comparing their ranks in a linear order
(`compareResults_eq`), where results of different attempts have different ranks. The best result is
one of lowest rank, so among results of different attempts there is only one that it can be, in
whatever order they are listed.
-/

namespace Courseware

/-- The values that results are compared by. -/
def comparedValues (r : ResultKey × Aggregate) : Score × Bool × Option Timestamp × AttemptId :=
  (r.2.score, r.2.isValidated, r.2.obtainedAt, r.1.attempt)

/-- Whether the first date is before the second; a missing one is after all others. -/
def Earlier : Option Timestamp → Option Timestamp → Prop
  | some s, some t => s < t
  | some _, none => True
  | none, _ => False

/-- `a` is better than `b` in one value and equal in those that come before it. -/
inductive Outranks (a b : ResultKey × Aggregate) : Prop
  | score (h : b.2.score.place < a.2.score.place)
  | validated (hscore : a.2.score = b.2.score) (ha : a.2.isValidated = true)
      (hb : b.2.isValidated = false)
  | obtained (hscore : a.2.score = b.2.score) (hvalidated : a.2.isValidated = b.2.isValidated)
      (h : Earlier a.2.obtainedAt b.2.obtainedAt)
  | attempt (hscore : a.2.score = b.2.score) (hvalidated : a.2.isValidated = b.2.isValidated)
      (hobtained : a.2.obtainedAt = b.2.obtainedAt) (h : a.1.attempt < b.1.attempt)

/-- The total order of bits tells any two scores apart. -/
theorem Score.place_inj {a b : Score} (h : a.place = b.place) : a = b := by
  obtain ⟨⟨a⟩⟩ := a
  obtain ⟨⟨b⟩⟩ := b
  simp only [place, isNegative, magnitude, decide_eq_true_eq, UInt64.toNat_ofBitVec] at h
  refine congrArg (fun bits => Score.mk ⟨bits⟩) (BitVec.eq_of_toNat_eq ?_)
  have ha := a.isLt
  have hb := b.isLt
  split at h <;> split at h <;> omega

theorem Score.compareTotal_eq (a b : Score) : a.compareTotal b = compare a.place b.place := by
  rw [compareTotal]
  split
  · rename_i h
    exact (compare_lt_iff_lt.2 h).symm
  · split
    · rename_i h
      exact (compare_gt_iff_gt.2 h).symm
    · exact (compare_eq_iff_eq.2 (by omega)).symm

/-! ### Ranks -/

/-- The place of a date, a missing one being after all others. -/
def dateRank : Option Timestamp → WithTop ℤ
  | some t => t.toInt
  | none => ⊤

theorem dateRank_inj {s t : Option Timestamp} : dateRank s = dateRank t ↔ s = t := by
  cases s <;> cases t <;> simp [dateRank, Timestamp.toInt_inj]

theorem dateRank_lt {s t : Option Timestamp} : dateRank s < dateRank t ↔ Earlier s t := by
  cases s <;> cases t <;> simp [dateRank, Earlier, Timestamp.lt_iff_toInt_lt]

theorem dateRank_lt_none (s : Timestamp) : dateRank (some s) < dateRank none :=
  WithTop.coe_lt_top _

theorem compare_dateRank (s t : Timestamp) :
    compare (dateRank (some s)) (dateRank (some t)) = s.compare t := by
  rw [Timestamp.compare]
  split
  · rename_i h
    exact compare_lt_iff_lt.2 (dateRank_lt.2 h)
  · rename_i hst
    split
    · rename_i h
      exact compare_gt_iff_gt.2 (dateRank_lt.2 h)
    · rename_i hts
      rw [Timestamp.lt_iff_toInt_lt] at hst hts
      have heq : s = t := Timestamp.toInt_inj.1 (by omega)
      exact compare_eq_iff_eq.2 (by rw [heq])

/-- The better a result, the lower its rank. -/
def resultRank (r : ResultKey × Aggregate) : ℤᵒᵈ ×ₗ Boolᵒᵈ ×ₗ WithTop ℤ ×ₗ ℤ :=
  toLex (OrderDual.toDual r.2.score.place, toLex (OrderDual.toDual r.2.isValidated,
    toLex (dateRank r.2.obtainedAt, r.1.attempt)))

theorem resultRank_inj {a b : ResultKey × Aggregate} :
    resultRank a = resultRank b ↔ comparedValues a = comparedValues b := by
  simp only [resultRank, comparedValues, EmbeddingLike.apply_eq_iff_eq, Prod.mk.injEq, dateRank_inj]
  exact and_congr_left fun _ => ⟨Score.place_inj, congrArg Score.place⟩

theorem resultRank_lt {a b : ResultKey × Aggregate} :
    resultRank a < resultRank b ↔ Outranks a b := by
  simp only [resultRank, Prod.Lex.toLex_lt_toLex, OrderDual.toDual_lt_toDual,
    EmbeddingLike.apply_eq_iff_eq, dateRank_lt, dateRank_inj, Bool.lt_iff]
  constructor
  · rintro (h | ⟨hscore, ⟨hb, ha⟩ | ⟨hvalidated, h | ⟨hobtained, h⟩⟩⟩)
    · exact .score h
    · exact .validated (Score.place_inj hscore) ha hb
    · exact .obtained (Score.place_inj hscore) hvalidated h
    · exact .attempt (Score.place_inj hscore) hvalidated hobtained h
  · rintro (h | ⟨hscore, ha, hb⟩ | ⟨hscore, hvalidated, h⟩ | ⟨hscore, hvalidated, hobtained, h⟩)
    · exact .inl h
    · exact .inr ⟨congrArg Score.place hscore, .inl ⟨hb, ha⟩⟩
    · exact .inr ⟨congrArg Score.place hscore, .inr ⟨hvalidated, .inl h⟩⟩
    · exact .inr ⟨congrArg Score.place hscore, .inr ⟨hvalidated, .inr ⟨hobtained, h⟩⟩⟩

/-- Comparing results is comparing their ranks. -/
theorem compareResults_eq (a b : ResultKey × Aggregate) :
    compareResults a b = compare (resultRank a) (resultRank b) := by
  have hvalidated : (if a.2.isValidated = b.2.isValidated then .eq
      else if a.2.isValidated then .lt else .gt : Ordering) =
      compare b.2.isValidated a.2.isValidated := by
    cases a.2.isValidated <;> cases b.2.isValidated <;> rfl
  have hrank : compare (resultRank a) (resultRank b) =
      (compare b.2.score.place a.2.score.place).then
        ((compare b.2.isValidated a.2.isValidated).then
          ((compare (dateRank a.2.obtainedAt) (dateRank b.2.obtainedAt)).then
            (compare a.1.attempt b.1.attempt))) := by
    simp only [Prod.Lex.compare_def]
    rfl
  rw [compareResults, Score.compareTotal_eq, hvalidated, hrank]
  split
  · rename_i s t hs ht
    rw [hs, ht, compare_dateRank]
  · rename_i s hs ht
    rw [hs, ht, compare_lt_iff_lt.2 (dateRank_lt_none s)]
  · rename_i t hs ht
    rw [hs, ht, compare_gt_iff_gt.2 (dateRank_lt_none t)]
  · rename_i hs ht
    rw [hs, ht, compare_eq_iff_eq.2 rfl]

theorem compareResults_eq_lt {a b : ResultKey × Aggregate} :
    compareResults a b = .lt ↔ resultRank a < resultRank b := by
  rw [compareResults_eq, compare_lt_iff_lt]

theorem compareResults_eq_eq {a b : ResultKey × Aggregate} :
    compareResults a b = .eq ↔ comparedValues a = comparedValues b := by
  rw [compareResults_eq, compare_eq_iff_eq, resultRank_inj]

theorem compareResults_ne_gt {a b : ResultKey × Aggregate} :
    compareResults a b ≠ .gt ↔ resultRank a ≤ resultRank b := by
  rw [compareResults_eq, compare_le_iff_le]

instance : Std.TransCmp compareResults where
  eq_swap {a b} := by
    rw [compareResults_eq, compareResults_eq]
    exact Std.OrientedCmp.eq_swap
  isLE_trans {a b c} hab hbc := by
    rw [compareResults_eq] at *
    exact Std.TransCmp.isLE_trans hab hbc

/-! ### The best of some results -/

variable {results results' : List (ResultKey × Aggregate)} {best : ResultKey × Aggregate}

theorem bestResult_cons (r : ResultKey × Aggregate) (rest : List (ResultKey × Aggregate)) :
    bestResult (r :: rest) =
      some ((bestResult rest).elim r fun s => if resultRank s < resultRank r then s else r) := by
  rw [bestResult]
  cases bestResult rest with
  | none => rfl
  | some s =>
    simp only [compareResults_eq_lt, Option.elim_some]
    split <;> rfl

theorem exists_bestResult (h : results ≠ []) : ∃ best, bestResult results = some best := by
  cases results with
  | nil => exact absurd rfl h
  | cons r rest => exact ⟨_, bestResult_cons r rest⟩

theorem resultRank_bestResult_le (h : bestResult results = some best) :
    ∀ r ∈ results, resultRank best ≤ resultRank r := by
  induction results generalizing best with
  | nil => simp
  | cons e rest ih =>
    rw [bestResult_cons, Option.some.injEq] at h
    subst h
    cases hrest : bestResult rest with
    | none =>
      have hnil : rest = [] := by
        by_contra hne
        obtain ⟨s, hs⟩ := exists_bestResult hne
        simp [hs] at hrest
      simp [hnil]
    | some s =>
      have hs := ih hrest
      rw [Option.elim_some]
      intro r hr
      split
      · rename_i hlt
        rcases List.mem_cons.1 hr with rfl | hr
        · exact hlt.le
        · exact hs r hr
      · rename_i hge
        rcases List.mem_cons.1 hr with rfl | hr
        · exact le_rfl
        · exact (not_lt.1 hge).trans (hs r hr)

/-- The best of two lists together is the better one of their bests. -/
theorem bestResult_append (front back : List (ResultKey × Aggregate)) :
    bestResult (front ++ back) =
      bestResult ((bestResult front).toList ++ (bestResult back).toList) := by
  induction front with
  | nil =>
    cases hback : bestResult back with
    | none => simp [hback, bestResult]
    | some s => simp [hback, bestResult]
  | cons r rest ih =>
    rw [List.cons_append, bestResult_cons, ih, bestResult_cons]
    cases hrest : bestResult rest with
    | none =>
      cases hback : bestResult back with
      | none => simp [bestResult]
      | some t => simp [bestResult_cons, bestResult]
    | some s =>
      cases hback : bestResult back with
      | none => simp [bestResult_cons, bestResult]
      | some t =>
        simp only [bestResult_cons, bestResult, Option.toList_some, List.cons_append,
          List.nil_append, Option.elim_some, Option.some.injEq]
        grind

/-- Of different attempts, only one result is the best, in whatever order they are listed. -/
theorem bestResult_perm (hattempts : (results.map (·.1.attempt)).Nodup)
    (hperm : results.Perm results') : bestResult results' = bestResult results := by
  by_cases hnil : results = []
  · subst hnil
    rw [hperm.nil_eq]
  · have hnil' : results' ≠ [] := fun h => hnil (List.Perm.eq_nil (h ▸ hperm))
    obtain ⟨best, hbest⟩ := exists_bestResult hnil
    obtain ⟨best', hbest'⟩ := exists_bestResult hnil'
    have hmem := mem_of_bestResult hbest
    have hmem' := hperm.mem_iff.2 (mem_of_bestResult hbest')
    have hrank : resultRank best' = resultRank best :=
      le_antisymm (resultRank_bestResult_le hbest' best (hperm.mem_iff.1 hmem))
        (resultRank_bestResult_le hbest best' hmem')
    have hattempt : best'.1.attempt = best.1.attempt :=
      congrArg (·.2.2.2) (resultRank_inj.1 hrank)
    rw [hbest, hbest', List.inj_on_of_nodup_map hattempts hmem' hmem hattempt]

/-- The results of a participant on an item that count for the same attempt are themselves of
different attempts. -/
theorem Store.nodup_attempts_linkedResults (s : Store) (participant : GroupId) (attempt : AttemptId)
    (part : ItemId) :
    (((s.linkedResults participant attempt part).map fun e => (e.1, e.2.values)).map
      (·.1.attempt)).Nodup := by
  have hkeys : (s.results.toList.map (·.1)).Nodup := s.results.nodup_keys
  have hrows : (s.linkedResults participant attempt part).Sublist s.results.toList :=
    List.filter_sublist.trans List.filter_sublist
  rw [List.map_map]
  refine List.Nodup.map_on (fun x hx y hy hattempt => ?_) (hkeys.of_map.sublist hrows)
  simp only [linkedResults, resultsOn, List.mem_filter, Bool.and_eq_true,
    decide_eq_true_eq] at hx hy
  obtain ⟨⟨hxrow, hxparticipant, hxitem⟩, -⟩ := hx
  obtain ⟨⟨hyrow, hyparticipant, hyitem⟩, -⟩ := hy
  refine List.inj_on_of_nodup_map hkeys hxrow hyrow ?_
  obtain ⟨⟨_, _, _⟩, _⟩ := x
  obtain ⟨⟨_, _, _⟩, _⟩ := y
  simp_all

/-- The comparison of results is a total preorder that goes by score, validation, date and attempt,
and never takes results of different attempts for equally good. So among results of different
attempts the best one is determined whatever their order, no other is better, and it can be found
from the bests of two halves. In particular the result on a part that counts does not depend on the
order of rows. -/
theorem bestResult_determined :
    Std.TransCmp compareResults ∧
      (∀ a b, compareResults a b = .lt ↔ Outranks a b) ∧
      (∀ a b, compareResults a b = .eq ↔ comparedValues a = comparedValues b) ∧
      (∀ a b, a.1.attempt ≠ b.1.attempt → compareResults a b ≠ .eq) ∧
      (∀ results : List (ResultKey × Aggregate), (results.map (·.1.attempt)).Nodup →
        (∀ results', results.Perm results' → bestResult results' = bestResult results) ∧
        (results ≠ [] → ∃ best ∈ results, bestResult results = some best ∧
          ∀ r ∈ results, compareResults best r ≠ .gt) ∧
        ∀ front back, results = front ++ back →
          bestResult results =
            bestResult ((bestResult front).toList ++ (bestResult back).toList)) ∧
      ∀ (s : Store) participant attempt part rows,
        ((s.linkedResults participant attempt part).map fun e => (e.1, e.2.values)).Perm rows →
          bestResult rows = bestResult
            ((s.linkedResults participant attempt part).map fun e => (e.1, e.2.values)) := by
  refine ⟨inferInstance, fun a b => compareResults_eq_lt.trans resultRank_lt,
    fun a b => compareResults_eq_eq, fun a b hne heq => ?_, fun results hattempts => ⟨?_, ?_, ?_⟩,
    fun s participant attempt part rows hperm => ?_⟩
  · exact hne (congrArg (·.2.2.2) (compareResults_eq_eq.1 heq))
  · intro results' hperm
    exact bestResult_perm hattempts hperm
  · intro hsome
    obtain ⟨best, hbest⟩ := exists_bestResult hsome
    exact ⟨best, mem_of_bestResult hbest, hbest, fun r hr =>
      compareResults_ne_gt.2 (resultRank_bestResult_le hbest r hr)⟩
  · rintro front back rfl
    exact bestResult_append front back
  · exact bestResult_perm (s.nodup_attempts_linkedResults participant attempt part) hperm

/-- A full score obtained early, the same one validated later, and a result without work. -/
def tiedResults : List (ResultKey × Aggregate) :=
  [ (⟨1, 2, 10⟩, ⟨.full, some ⟨5⟩, none, 1, ⟨5⟩⟩),
    (⟨1, 0, 10⟩, ⟨.full, some ⟨9⟩, some ⟨9⟩, 1, ⟨9⟩⟩),
    (⟨1, 1, 10⟩, ⟨.zero, none, none, 0, ⟨0⟩⟩) ]

theorem bestResult_tiedResults :
    (tiedResults.map (·.1.attempt)).Nodup ∧
      bestResult tiedResults = some (⟨1, 0, 10⟩, ⟨.full, some ⟨9⟩, some ⟨9⟩, 1, ⟨9⟩⟩) ∧
      bestResult tiedResults.reverse = bestResult tiedResults := by
  have hattempts : (tiedResults.map (·.1.attempt)).Nodup := by decide
  have hlaw := bestResult_determined.2.2.2.2.1 tiedResults hattempts
  exact ⟨hattempts, by decide, hlaw.1 _ tiedResults.reverse_perm.symm⟩

end Courseware
