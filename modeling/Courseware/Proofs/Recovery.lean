import Courseware.Proofs.Faithful

/-!
# Settling from any mixture of progress

Settling ends with every result as it is due, if before each one was so, or was due to be recomputed,
or something that it is made of was still to pass on a change (`propagateResults_loses_nothing`). The
scores that are there may be any numbers. One that is not from 0 to 100 may hide that another result
is new, so nothing is said about what it counts for (`Heeded`) until it is recomputed and told as new;
and in the end there is none, as the lowest results are what they are due, and so those above them.
-/

namespace Courseware

namespace Store

variable {s s' t : Store} {now : Timestamp} {src key : ResultKey}

/-- Scores are as a column gives them back: numbers, of which only one is zero. -/
def ScoresStored (s : Store) : Prop :=
  ∀ key r, s.results.get? key = some r → r.values.score.stored? = some r.values.score

instance (s : Store) : Decidable s.ScoresStored :=
  decidable_of_iff (∀ e ∈ s.results.toList, e.2.values.score.stored? = some e.2.values.score)
    ⟨fun h key r hr => h (key, r) (Table.mem_toList_iff.2 hr),
      fun h e he => h e.1 e.2 (Table.mem_toList_iff.1 he)⟩

/-- No attempt was started for a part of what it has a result on. -/
def AllAligned (s : Store) : Prop := ∀ key, s.results.contains key = true → s.Aligned key

instance (s : Store) : Decidable s.AllAligned :=
  decidable_of_iff (∀ key ∈ s.results.keys, s.Aligned key) (by simp only [Table.mem_keys, AllAligned])

/-! ### What settling keeps -/

/-- Rows refer to rows, and each row of a result is one that there may be. -/
structure Storable (s : Store) : Prop extends Coherent s where
  scores : s.ScoresStored
  aligned : s.AllAligned

theorem Storable.resultsGrow (hs : s.Storable) (hgrow : s.ResultsGrow t)
    (hrows : ∀ key r, t.results.get? key = some r → r.values.score.stored? = some r.values.score ∧
      (s.results.contains key = true ∨ s.Aligned key)) : t.Storable := by
  refine ⟨hs.toCoherent.resultsGrow hgrow, fun key r hr => (hrows key r hr).1, fun key hkey => ?_⟩
  obtain ⟨r, hr⟩ := Table.contains_iff.1 hkey
  obtain ⟨rs, rfl⟩ := hgrow.frame
  exact (hrows key r hr).2.elim (hs.aligned key) id

theorem storable_keptBySettling (now : Timestamp) : KeptBySettling now Storable where
  setProgress {s} k progress hs := by
    refine hs.resultsGrow (resultsGrow_setProgress s k progress) fun key r' hr' => ?_
    rcases get?_setProgress hr' with ⟨-, r, hr, rfl⟩ | ⟨-, hr⟩
    · exact ⟨hs.scores key r hr, Or.inl (Table.contains_of_get? hr)⟩
    · exact ⟨hs.scores key r' hr, Or.inl (Table.contains_of_get? hr)⟩
  insertResult {s s' k item created} hs hcreate hinsert := by
    refine hs.resultsGrow (resultsGrow_insertResult hinsert) fun key r hr => ?_
    rcases get?_insertResult hinsert hr with ⟨rfl, -, rfl⟩ | hold
    · exact ⟨Score.proper_zero.stored, Or.inr (aligned_of_mayCreate hs.toLayered hcreate)⟩
    · exact ⟨hs.scores key r hold, Or.inl (Table.contains_of_get? hold)⟩
  recomputeResult {s s' k old} hs hok := by
    refine hs.resultsGrow (resultsGrow_recomputeResult hok) fun key r hr => ?_
    obtain ⟨score, hscore, rfl⟩ := recomputeResult_eq_ok hok
    rw [Table.get?_modify] at hr
    split at hr
    · obtain ⟨row, hrow, rfl⟩ := Option.map_eq_some_iff.1 hr
      exact ⟨Score.stored?_of_stored? hscore, Or.inl (Table.contains_of_get? hrow)⟩
    · exact ⟨hs.scores key r hr, Or.inl (Table.contains_of_get? hr)⟩

/-- Passing up a result keeps the values of all. -/
theorem valuesAt_passUp {first : ResultKey} {out : List ResultKey × Nat} {a : Aggregate}
    (hok : s.passUp first now = .ok (out, s')) (h : s.valuesAt src = some a) :
    s'.valuesAt src = some a := by
  have hmark : ∀ (t : Store) (k : ResultKey) (progress : Progress), t.valuesAt src = some a →
      (t.setProgress k progress).valuesAt src = some a := by
    intro t k progress ht
    have hsame : (t.setProgress k progress).valuesAt src = t.valuesAt src :=
      valuesAt_modify k src fun _ => rfl
    exact hsame.trans ht
  refine passUp_keeps (P := fun t => t.valuesAt src = some a) (hmark s _ _)
    (fun t _ _ _ => hmark t _ _) ?_ h hok
  intro t t' created attempt w _ ht _ hinsert
  rcases insertResult_eq_ok hinsert with ⟨-, -, rfl⟩ | ⟨hnew, -, -, -, rfl⟩
  · exact ht
  · rw [valuesAt_insert, if_neg, ht]
    rintro rfl
    rw [valuesAt_eq_none_iff.2 hnew] at ht
    exact absurd ht (by simp)

/-! ### What has to be kept track of -/

/-- The result is kept track of, unless something that counts for it has a score that is not from 0
to 100. -/
def Heeded (s : Store) (queue : List ResultKey) (key : ResultKey) : Prop :=
  s.ProperSources key → Tracked (fun _ => False) s queue key

theorem ProperSources.of_passUp {first : ResultKey} {out : List ResultKey × Nat}
    (hok : s.passUp first now = .ok (out, s')) (h : s'.ProperSources key) : s.ProperSources key := by
  obtain ⟨rs, rfl⟩ := ((resultsGrow_keptBySettling now s).passUp (.refl s) hok).frame
  intro src r hr hsrc
  have hvalues : s.valuesAt src = some r.values := by
    rw [valuesAt, hr]
    rfl
  obtain ⟨r', hr', heq⟩ := Option.map_eq_some_iff.1 (valuesAt_passUp hok hvalues)
  rw [← heq]
  exact h src r' hr' (isSource_setResults.2 hsrc)

/-- Recomputing either leaves a result with what counts for it as it was, or brings a score that was
not from 0 to 100 into these bounds, and then the result is told. -/
theorem Heeded.recomputeResult (hs : s.Storable) (h : s.Heeded s.announcing key) {k : ResultKey}
    {old : Result} (hold : s.results.get? k = some old) (hdue : old.progress = .toBeRecomputed)
    (hok : s.recomputeResult k old = .ok s') : s'.Heeded s'.announcing key := by
  intro hproper r hr
  obtain ⟨score, rs, hscore, rfl, hrow, hothers⟩ := rows_recomputeResult hold hok
  have hstored := hs.scores k old hold
  have haligned : s.Aligned key := by
    refine hs.aligned key ?_
    by_cases hkey : k = key
    · exact hkey ▸ Table.contains_of_get? hold
    · exact Table.contains_of_get? ((hothers key hkey).symm.trans hr)
  by_cases himproper : s.IsSource k key ∧ ¬ old.values.score.Proper
  · obtain ⟨hsrc, himproper⟩ := himproper
    have hchanged : (s.dueValues k old).same old.values = false := by
      rw [← Bool.not_eq_true]
      intro hsame
      have hwritten := congrArg Aggregate.score (written_eq_of_same hscore hstored hsame)
      exact himproper (hwritten ▸ Score.proper_of_clamp hscore)
    exact Or.inr (Or.inr (Or.inr ⟨k, announces_recomputeResult hold hok haligned hsrc hchanged⟩))
  · have hbefore : s.ProperSources key := by
      intro src r₀ hr₀ hsrc
      by_cases hsrck : k = src
      · subst hsrck
        obtain rfl := Option.some.inj (hold.symm.trans hr₀)
        exact Classical.not_not.1 fun hnot => himproper ⟨hsrc, hnot⟩
      · exact hproper src r₀ ((hothers src hsrck).trans hr₀) (isSource_setResults.2 hsrc)
    exact (h hbefore).recomputeResult hold hok hs.toCoherent hstored haligned hdue r hr

theorem heeded_followed (now : Timestamp) (key : ResultKey) :
    Followed now fun s queue => s.Storable ∧ s.Heeded queue key where
  mono h hsub := ⟨h.1, fun hproper => (h.2 hproper).mono hsub⟩
  passUp h hok := by
    obtain ⟨hs, hheeded⟩ := h
    refine ⟨(storable_keptBySettling now).passUp hs hok, fun hproper => ?_⟩
    have hbefore := hproper.of_passUp hok
    exact (hheeded hbefore).passUp ⟨hs.toCoherent, hbefore⟩ hok
  recomputeResult h hrow hdue hok :=
    ⟨(storable_keptBySettling now).recomputeResult h.1 hok, h.2.recomputeResult h.1 hrow hdue hok⟩

/-! ### The end -/

/-- A result that is what it is due has a score from 0 to 100. -/
theorem Consistent.proper {r : Result} (h : s.Consistent key r)
    (hstored : r.values.score.stored? = some r.values.score) : r.values.score.Proper :=
  Score.proper_of_same_clamp hstored h.1

/-- When all are settled, from the lowest items up every result is what it is due. -/
theorem allConsistent_of_heeded (hs : s.Layered) (hscores : s.ScoresStored) (hdone : s.AllDone)
    (h : ∀ key, s.Heeded [] key) : s.AllConsistent := by
  intro key r hr
  induction hheight : s.height key.item using Nat.strongRecOn generalizing key r with
  | ind height ih =>
    have hproper : s.ProperSources key := by
      intro src r' hr' hsrc
      have hlt := hs.height_lt hsrc.link
      exact (ih (s.height src.item) (by omega) src r' hr' rfl).proper (hscores src r' hr')
    rcases h key hproper r hr with hexempt | hconsistent | hdue | ⟨src, hsrc, -⟩
    · exact hexempt.elim
    · exact hconsistent
    · exact absurd ((hdone key r hr).symm.trans hdue) (by decide)
    · exact absurd hsrc List.not_mem_nil

/-- Settling loses no update. If each result that is not due to be recomputed is what it is due, or
is made of one that is still to pass on a change, then in the end every result is what it is due and
is settled, those included that settling created. This takes it that scores are as columns hold them,
and that no attempt was started for a part of what it has a result on. -/
theorem propagateResults_loses_nothing (hs : s.Coherent) (hscores : s.ScoresStored)
    (haligned : s.AllAligned)
    (hresults : ∀ key r, s.results.get? key = some r → r.progress ≠ .toBeRecomputed →
      s.Consistent key r ∨ ∃ src r', s.IsSource src key ∧ s.results.get? src = some r' ∧
        r'.progress = .toBePropagated)
    {outcome : ResultOutcome} (hok : s.propagateResults now = .ok (outcome, s')) :
    s'.AllConsistent ∧ s'.AllDone := by
  have hheeded : ∀ key, s.Heeded s.announcing key := by
    intro key _ r hr
    by_cases hdue : r.progress = .toBeRecomputed
    · exact Or.inr (Or.inr (Or.inl hdue))
    · rcases hresults key r hr hdue with hconsistent | ⟨src, r', hsrc, hr', hprogress⟩
      · exact Or.inr (Or.inl hconsistent)
      · exact Or.inr (Or.inr (Or.inr ⟨src, mem_announcing.2 ⟨r', hr', hprogress⟩,
          (haligned key (Table.contains_of_get? hr)).announces (Table.contains_of_get? hr') hsrc⟩))
  have hstorable : s.Storable := ⟨hs, hscores, haligned⟩
  have hend : ∀ key, s'.Storable ∧ s'.Heeded [] key := fun key =>
    (heeded_followed now key).propagateResults (hs.toLayered.propagateResults now).1
      ⟨hstorable, hheeded key⟩ hok
  have hs' := (storable_keptBySettling now).propagateResults hstorable hok
  have hdone := allDone_propagateResults hs.toLayered hok
  exact ⟨allConsistent_of_heeded hs'.toLayered hs'.scores hdone fun key => (hend key).2, hdone⟩

end Store

namespace Session

open Store

/-- A score out of bounds that passes for settled, a part that is to pass on its score, and a result
whose values are lost. -/
def mixture : Store :=
  let s := ((start (.ofList [7, 8, 9]) .zero .standard).run otherPartTried).committed
  { s with
    results := ((s.results.modify ⟨1, 0, 10⟩ fun r =>
        { r with values := { r.values with score := ⟨0x406F400000000000⟩ } }).modify ⟨1, 0, 11⟩
        fun r => { r with progress := .toBePropagated }).modify ⟨1, 0, 12⟩
        fun r => { r with values := .fresh .zero, progress := .toBeRecomputed } }

/-- None of the values that were wrong is left. -/
theorem recovers_mixture :
    ¬ mixture.AllConsistent ∧ ∃ outcome s', mixture.propagateResults .zero = .ok (outcome, s') ∧
      s'.AllConsistent ∧ s'.AllDone := by
  refine ⟨by decide +kernel, ?_⟩
  have hcoherent : mixture.Coherent := by
    refine (coherent_run (.ofList [7, 8, 9]) .zero .standard otherPartTried).resultsGrow
      (.of_contains fun key => ?_)
    simp only [Table.contains_modify]
  have hscores : mixture.ScoresStored := by decide +kernel
  have haligned : mixture.AllAligned := by decide +kernel
  have hrows : ∀ e ∈ mixture.results.toList, e.2.progress ≠ .toBeRecomputed →
      mixture.Consistent e.1 e.2 ∨ e.1 = ⟨1, 0, 10⟩ := by
    decide +kernel
  have hpart : mixture.IsSource ⟨1, 0, 11⟩ ⟨1, 0, 10⟩ :=
    ⟨rfl, by decide +kernel, by decide +kernel⟩
  have hpending : ∃ r ∈ mixture.results.get? ⟨1, 0, 11⟩, r.progress = .toBePropagated := by
    decide +kernel
  have hsettles : (mixture.propagateResults .zero).toOption.isSome = true := by decide +kernel
  cases hok : mixture.propagateResults .zero with
  | error fault =>
    rw [hok] at hsettles
    exact absurd hsettles (by simp [Except.toOption])
  | ok out =>
    obtain ⟨r, hr, hprogress⟩ := hpending
    refine ⟨out.1, out.2, rfl, propagateResults_loses_nothing hcoherent hscores haligned ?_ hok⟩
    intro key result hresult hdue
    rcases hrows (key, result) (Table.mem_toList_iff.2 hresult) hdue with hconsistent | rfl
    · exact Or.inl hconsistent
    · exact Or.inr ⟨_, r, hpart, hr, hprogress⟩

end Session

end Courseware
