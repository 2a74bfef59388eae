import Courseware.Proofs.Marks

/-!
# Results that come into being

Passing up a result creates those above it that are missing and may be created. So while results are
settled nothing comes into being outside of a set that holds all there is and, with each result, all
that may be created above it (`Closed.propagateResults`). And if nothing was missing, then nothing is
once they are settled, unless above a new result that has nothing in it: such a one does not change
and is not passed up (`Founded.propagateResults`).
-/

namespace Courseware

namespace Store

variable {s s' t : Store} {now : Timestamp} {key above : ResultKey}

/-- Passing up the first result creates the second if it is missing. -/
structure Begets (s : Store) (now : Timestamp) (key above : ResultKey) : Prop where
  participant : above.participant = key.participant
  attempt : s.upwardAttempt key = some above.attempt
  link : s.links.contains (above.item, key.item) = true
  wanted : ∃ item, s.items.get? above.item = some item ∧ s.mayCreate above item now = true

/-- Only results, answers and gradings differ. -/
def OnlyResults (s t : Store) : Prop :=
  ∃ rs as gs, t = { s with results := rs, answers := as, gradings := gs }

theorem ResultsGrow.onlyResults (h : s.ResultsGrow t) : s.OnlyResults t := by
  obtain ⟨rs, rfl⟩ := h.frame
  exact ⟨rs, s.answers, s.gradings, rfl⟩

theorem Begets.onlyResults (h : s.OnlyResults t) :
    t.Begets now key above ↔ s.Begets now key above := by
  obtain ⟨rs, as, gs, rfl⟩ := h
  exact ⟨fun ⟨h₁, h₂, h₃, h₄⟩ => ⟨h₁, h₂, h₃, h₄⟩, fun ⟨h₁, h₂, h₃, h₄⟩ => ⟨h₁, h₂, h₃, h₄⟩⟩

theorem Begets.resultsGrow (hgrow : s.ResultsGrow t) :
    t.Begets now key above ↔ s.Begets now key above :=
  Begets.onlyResults hgrow.onlyResults

instance (s : Store) (now : Timestamp) (key above : ResultKey) : Decidable (s.Begets now key above) :=
  decidable_of_iff (above.participant = key.participant ∧
      s.upwardAttempt key = some above.attempt ∧ s.links.contains (above.item, key.item) = true ∧
      (s.items.get? above.item).any (fun item => s.mayCreate above item now) = true)
    ⟨fun ⟨h₁, h₂, h₃, h₄⟩ => ⟨h₁, h₂, h₃, Option.any_eq_true _ _ |>.1 h₄⟩,
      fun ⟨h₁, h₂, h₃, h₄⟩ => ⟨h₁, h₂, h₃, Option.any_eq_true _ _ |>.2 h₄⟩⟩

/-- What results beget is found along the links. -/
theorem forall_begets_iff {P : ResultKey → ResultKey → Prop} :
    (∀ key above, s.results.contains key = true → t.Begets now key above → P key above) ↔
      ∀ e ∈ s.results.toList, ∀ l ∈ t.links.toList, ∀ attempt ∈ t.upwardAttempt e.1,
        t.Begets now e.1 ⟨e.1.participant, attempt, l.1.1⟩ →
          P e.1 ⟨e.1.participant, attempt, l.1.1⟩ := by
  constructor
  · intro h e he l _ attempt _ hbegets
    exact h _ _ (Table.contains_of_get? (Table.mem_entries_iff.1 he)) hbegets
  · rintro h key ⟨participant, attempt, whole⟩ hkey hbegets
    obtain ⟨r, hr⟩ := Table.contains_iff.1 hkey
    obtain ⟨link, hlink⟩ := Table.contains_iff.1 hbegets.link
    obtain rfl : participant = key.participant := hbegets.participant
    exact h (key, r) (Table.mem_toList_iff.2 hr) ((whole, key.item), link)
      (Table.mem_toList_iff.2 hlink) attempt hbegets.attempt hbegets

/-- The set holds, with each result, all that may be created above it. -/
def Closed (s : Store) (now : Timestamp) (T : ResultKey → Prop) : Prop :=
  ∀ key above, T key → s.Begets now key above → T above

/-- Nothing that may be created is missing above a stored result. -/
def Complete (s : Store) (now : Timestamp) : Prop :=
  s.Closed now fun key => s.results.contains key = true

instance (s : Store) (now : Timestamp) : Decidable (s.Complete now) :=
  decidable_of_iff _ forall_begets_iff.symm

/-! ### Passing up one result -/

theorem contains_markWholes {participant : GroupId} {attempt : AttemptId}
    {wholes : List (ItemId × Link × Item)} {out : List ResultKey × Nat}
    (hok : s.markWholes participant attempt now wholes = .ok (out, s'))
    {w : ItemId × Link × Item} (hw : w ∈ wholes)
    (hmay : s.mayCreate ⟨participant, attempt, w.1⟩ w.2.2 now = true) :
    s'.results.contains ⟨participant, attempt, w.1⟩ = true := by
  induction wholes generalizing s out with
  | nil => exact absurd hw List.not_mem_nil
  | cons whole rest ih =>
    obtain ⟨item, link, row⟩ := whole
    have hlater : ∀ {t out}, s.ResultsGrow t →
        t.markWholes participant attempt now rest = .ok (out, s') →
        (w = (item, link, row) → t.results.contains ⟨participant, attempt, w.1⟩ = true) →
        s'.results.contains ⟨participant, attempt, w.1⟩ = true := by
      intro t out hgrow hrest hhead
      rcases List.mem_cons.1 hw with heq | hw
      · exact ((resultsGrow_keptBySettling now t).markWholes (.refl t) hrest).kept _ (hhead heq)
      · refine ih hrest hw ?_
        obtain ⟨rs, rfl⟩ := hgrow.frame
        exact hmay
    rcases markWholes_cons_eq_ok hok with ⟨r, later, n, hr, hrest, -⟩ |
      ⟨-, -, created, t, later, n, hinsert, hrest, -⟩ | ⟨-, hno, hrest⟩
    · have hgrow := resultsGrow_setProgress s ⟨participant, attempt, item⟩ .toBeRecomputed
      refine hlater hgrow hrest ?_
      rintro rfl
      exact hgrow.kept _ (Table.contains_of_get? hr)
    · refine hlater (resultsGrow_insertResult hinsert) hrest ?_
      rintro rfl
      rcases insertResult_eq_ok hinsert with ⟨hstored, -, rfl⟩ | ⟨-, -, -, -, rfl⟩
      · exact hstored
      · simp
    · refine hlater (.refl s) hrest ?_
      rintro rfl
      exact absurd hmay hno

/-- While a result is passed up rows keep their values or are new, and what is new is begotten by
it. -/
structure Passing (now : Timestamp) (first : ResultKey) (s t : Store) : Prop where
  grow : s.ResultsGrow t
  values : ∀ key, t.valuesAt key = s.valuesAt key ∨ t.valuesAt key = some (.fresh now)
  begotten : ∀ key, t.results.contains key = true →
    s.results.contains key = true ∨ (s.results.contains first = true ∧ s.Begets now first key)

/-- In the end all that it begets is there. -/
structure Passed (now : Timestamp) (first : ResultKey) (s t : Store) : Prop
    extends Passing now first s t where
  above : ∀ key, s.results.contains first = true → s.Begets now first key →
    t.results.contains key = true

theorem Passing.refl (now : Timestamp) (first : ResultKey) (s : Store) : Passing now first s s :=
  ⟨.refl s, fun _ => Or.inl rfl, fun _ hkey => Or.inl hkey⟩

theorem Passing.setProgress {first : ResultKey} (h : Passing now first s t) (k : ResultKey)
    (progress : Progress) : Passing now first s (t.setProgress k progress) := by
  refine ⟨h.grow.trans (resultsGrow_setProgress t k progress), fun key => ?_, fun key hkey => ?_⟩
  · have hsame : (t.setProgress k progress).valuesAt key = t.valuesAt key :=
      valuesAt_modify k key fun _ => rfl
    rw [hsame]
    exact h.values key
  · rw [Store.setProgress, Table.contains_modify] at hkey
    exact h.begotten key hkey

theorem Passing.insertResult {first k : ResultKey} {created : Bool} (h : Passing now first s t)
    (hfirst : s.results.contains first = true) (hbegets : s.Begets now first k)
    (hinsert : t.insertResult k .toBeRecomputed now = .ok (created, s')) :
    Passing now first s s' := by
  have hgrow := h.grow.trans (resultsGrow_insertResult hinsert)
  rcases insertResult_eq_ok hinsert with ⟨-, -, rfl⟩ | ⟨-, -, -, -, rfl⟩
  · exact h
  · refine ⟨hgrow, fun key => ?_, fun key hkey => ?_⟩
    · rw [valuesAt_insert]
      split
      · exact Or.inr rfl
      · exact h.values key
    · rw [Table.contains_insert, Bool.or_eq_true, decide_eq_true_eq] at hkey
      rcases hkey with rfl | hkey
      · exact Or.inr ⟨hfirst, hbegets⟩
      · exact h.begotten key hkey

theorem passed_markWholes {first : ResultKey} (hfirst : s.results.contains first = true)
    {attempt : AttemptId} (hupward : s.upwardAttempt first = some attempt)
    {out : List ResultKey × Nat}
    (hok : s.markWholes first.participant attempt now (s.wholesOf first.item) = .ok (out, s')) :
    Passed now first s s' := by
  have hinsert : ∀ t t' created, ∀ w ∈ s.wholesOf first.item, Passing now first s t →
      t.mayCreate ⟨first.participant, attempt, w.1⟩ w.2.2 now = true →
      t.insertResult ⟨first.participant, attempt, w.1⟩ .toBeRecomputed now = .ok (created, t') →
      Passing now first s t' := by
    intro t t' created w hw ht hmay hinsert
    obtain ⟨hlink, hitem⟩ := mem_wholesOf.1 hw
    refine ht.insertResult hfirst ?_ hinsert
    obtain ⟨rs, rfl⟩ := ht.grow.frame
    exact ⟨rfl, hupward, Table.contains_of_get? hlink, w.2.2, hitem, hmay⟩
  refine ⟨markWholes_keeps (fun _ _ _ ht => ht.setProgress _ _) hinsert (.refl now first s) hok, ?_⟩
  rintro key - ⟨hparticipant, hattempt, hlink, item, hitem, hmay⟩
  obtain ⟨link, hlink⟩ := Table.contains_iff.1 hlink
  obtain rfl := Option.some.inj (hupward.symm.trans hattempt)
  rw [← hparticipant] at hok
  exact contains_markWholes hok (mem_wholesOf.2 ⟨hlink, hitem⟩) hmay

theorem passed_passUp {first : ResultKey} {out : List ResultKey × Nat}
    (hok : s.passUp first now = .ok (out, s')) : Passed now first s s' := by
  rcases passUp_eq_ok hok with ⟨hnone, -, rfl⟩ |
    ⟨r, hr, ⟨hupward, -, rfl⟩ | ⟨attempt, hupward, hmark⟩⟩
  · refine ⟨.refl now first _, fun key hfirst _ => ?_⟩
    rw [Table.get?_eq_none_iff.1 hnone] at hfirst
    exact absurd hfirst (by simp)
  · exact ⟨settle_keeps (.refl now first s) (.setProgress (.refl now first s) first .done),
      fun key _ hkey => absurd (hkey.attempt.symm.trans hupward) (by simp)⟩
  · have hfirst := Table.contains_of_get? hr
    have hpassing : Passing now first s (s.settle first r) :=
      settle_keeps (.refl now first s) (.setProgress (.refl now first s) first .done)
    have hsettled := hpassing.grow.kept first hfirst
    obtain ⟨rs, hframe⟩ := s.settle_frame first r
    rw [hframe] at hpassing hsettled hmark
    have hmarked := passed_markWholes hsettled hupward hmark
    refine ⟨⟨hpassing.grow.trans hmarked.grow, fun key => ?_, fun key hkey => ?_⟩,
      fun key _ hkey => ?_⟩
    · rcases hmarked.values key with hsame | hfresh
      · rw [hsame]
        exact hpassing.values key
      · exact Or.inr hfresh
    · rcases hmarked.begotten key hkey with hkey | ⟨-, hbegets⟩
      · exact hpassing.begotten key hkey
      · exact Or.inr ⟨hfirst, (Begets.resultsGrow hpassing.grow).1 hbegets⟩
    · exact hmarked.above key hsettled ((Begets.resultsGrow hpassing.grow).2 hkey)

/-! ### Nothing else comes into being -/

theorem Closed.onlyResults {T : ResultKey → Prop} (h : s.OnlyResults t) :
    t.Closed now T ↔ s.Closed now T := by
  rw [Closed, Closed]
  simp only [Begets.onlyResults h]

theorem closed_followed (now : Timestamp) (T : ResultKey → Prop) :
    Followed now fun s _ => s.Closed now T ∧ ∀ key, s.results.contains key = true → T key where
  mono h _ := h
  passUp {s s' first queue out} h hok := by
    obtain ⟨hclosed, hstored⟩ := h
    have hpassed := passed_passUp hok
    refine ⟨(Closed.onlyResults hpassed.grow.onlyResults).2 hclosed, fun key hkey => ?_⟩
    rcases hpassed.begotten key hkey with hkey | ⟨hfirst, hbegets⟩
    · exact hstored key hkey
    · exact hclosed first key (hstored first hfirst) hbegets
  recomputeResult {s s' k r} h _ _ hok := by
    obtain ⟨hclosed, hstored⟩ := h
    refine ⟨(Closed.onlyResults (resultsGrow_recomputeResult hok).onlyResults).2 hclosed, fun key hkey => ?_⟩
    obtain ⟨score, -, rfl⟩ := recomputeResult_eq_ok hok
    rw [Table.contains_modify] at hkey
    exact hstored key hkey

/-- All that settling adds lies in any set that holds what there was and is closed. -/
theorem Closed.propagateResults {T : ResultKey → Prop} (hs : s.Layered) (hclosed : s.Closed now T)
    (hstored : ∀ key, s.results.contains key = true → T key) {outcome : ResultOutcome}
    (hok : s.propagateResults now = .ok (outcome, s')) :
    ∀ key, s'.results.contains key = true → T key :=
  ((closed_followed now T).propagateResults (hs.propagateResults now).1 ⟨hclosed, hstored⟩ hok).2

/-! ### Nothing is missing -/

/-- Nothing that the result begets is missing. -/
def PassedOn (s : Store) (now : Timestamp) (key : ResultKey) : Prop :=
  ∀ above, s.Begets now key above → s.results.contains above = true

theorem PassedOn.onlyResults (h : s.PassedOn now key) (hwork : s.OnlyResults t)
    (hkept : ∀ k, s.results.contains k = true → t.results.contains k = true) :
    t.PassedOn now key :=
  fun above habove => hkept above (h above ((Begets.onlyResults hwork).1 habove))

theorem PassedOn.resultsGrow (h : s.PassedOn now key) (hgrow : s.ResultsGrow t) :
    t.PassedOn now key :=
  h.onlyResults hgrow.onlyResults hgrow.kept

/-- A result begets nothing that is missing, or it is to be passed up, or it has nothing in it. -/
def Founded (s : Store) (now : Timestamp) (queue : List ResultKey) : Prop :=
  ∀ key values, s.valuesAt key = some values →
    values = .fresh now ∨ s.PassedOn now key ∨ key ∈ queue

theorem contains_of_valuesAt {values : Aggregate} (h : s.valuesAt key = some values) :
    s.results.contains key = true := by
  rw [← Bool.not_eq_false, ← valuesAt_eq_none_iff, h]
  simp

theorem Founded.passUp {first : ResultKey} {queue : List ResultKey}
    (h : s.Founded now (first :: queue)) {out : List ResultKey × Nat}
    (hok : s.passUp first now = .ok (out, s')) : s'.Founded now queue := by
  have hpassed := passed_passUp hok
  intro key values hvalues
  rcases hpassed.values key with hsame | hfresh
  · rw [hsame] at hvalues
    rcases h key values hvalues with hfresh | hpassedOn | hmem
    · exact Or.inl hfresh
    · exact Or.inr (Or.inl (hpassedOn.resultsGrow hpassed.grow))
    · rcases List.mem_cons.1 hmem with rfl | hmem
      · refine Or.inr (Or.inl fun above habove => hpassed.above above ?_ ?_)
        · exact contains_of_valuesAt hvalues
        · exact (Begets.resultsGrow hpassed.grow).1 habove
      · exact Or.inr (Or.inr hmem)
  · exact Or.inl (Option.some.inj (hvalues.symm.trans hfresh))

theorem Founded.recomputeResult (hs : s.Grounded) (h : s.Founded now s.announcing) {k : ResultKey}
    {old : Result} (hold : s.results.get? k = some old) (hdue : old.progress = .toBeRecomputed)
    (hok : s.recomputeResult k old = .ok s') : s'.Founded now s'.announcing := by
  have hgrow := resultsGrow_recomputeResult hok
  obtain ⟨score, rs, hscore, rfl, hrow, hothers⟩ := rows_recomputeResult hold hok
  intro key values hvalues
  by_cases heq : k = key
  · subst heq
    rw [valuesAt, hrow, Option.map_some] at hvalues
    obtain rfl := Option.some.inj hvalues
    by_cases hsame : (s.dueValues k old).same old.values = true
    · -- It has the values that it had, and it was not to be passed up.
      rw [written_eq_of_same hscore (hs.proper k old hold).1.stored hsame]
      rcases h k old.values (by rw [valuesAt, hold]; rfl) with hfresh | hpassedOn | hmem
      · exact Or.inl hfresh
      · exact Or.inr (Or.inl (hpassedOn.resultsGrow hgrow))
      · obtain ⟨row, hrow', hprogress⟩ := mem_announcing.1 hmem
        obtain rfl := Option.some.inj (hold.symm.trans hrow')
        exact absurd (hdue.symm.trans hprogress) (by decide)
    · exact Or.inr (Or.inr (mem_announcing.2 ⟨_, hrow, if_neg hsame⟩))
  · have hvalues' : s.valuesAt key = some values := by
      rw [valuesAt, ← hothers key heq]
      exact hvalues
    rcases h key values hvalues' with hfresh | hpassedOn | hmem
    · exact Or.inl hfresh
    · exact Or.inr (Or.inl (hpassedOn.resultsGrow hgrow))
    · obtain ⟨row, hrow', hprogress⟩ := mem_announcing.1 hmem
      exact Or.inr (Or.inr (mem_announcing.2 ⟨row, (hothers key heq).trans hrow', hprogress⟩))

theorem founded_followed (now : Timestamp) :
    Followed now fun s queue => s.Grounded ∧ s.Founded now queue where
  mono h hsub := ⟨h.1, fun key values hvalues =>
    (h.2 key values hvalues).imp_right (Or.imp_right (hsub key))⟩
  passUp h hok := ⟨(grounded_keptBySettling now).passUp h.1 hok, h.2.passUp hok⟩
  recomputeResult h hold hdue hok :=
    ⟨h.1.recomputeResult hok, h.2.recomputeResult h.1 hold hdue hok⟩

theorem Founded.propagateResults (hs : s.Grounded) (h : s.Founded now s.announcing)
    {outcome : ResultOutcome} (hok : s.propagateResults now = .ok (outcome, s')) :
    s'.Founded now [] :=
  ((founded_followed now).propagateResults (hs.toLayered.propagateResults now).1 ⟨hs, h⟩ hok).2

/-- What is new and has nothing in it was passed on all the same. -/
def BlankPassedOn (s : Store) (now : Timestamp) : Prop :=
  ∀ key, s.valuesAt key = some (.fresh now) → s.PassedOn now key

instance (s : Store) (now : Timestamp) : Decidable (s.BlankPassedOn now) :=
  decidable_of_iff _ ((forall_begets_iff (s := s) (P := fun key above =>
    s.valuesAt key = some (.fresh now) → s.results.contains above = true)).symm.trans
    ⟨fun h key hkey above habove => h key above (contains_of_valuesAt hkey) habove hkey,
      fun h key above _ habove hkey => h key hkey above habove⟩)

theorem Founded.complete (h : s.Founded now []) (hblank : s.BlankPassedOn now) : s.Complete now := by
  intro key above hkey habove
  obtain ⟨r, hr⟩ := Table.contains_iff.1 hkey
  have hvalues : s.valuesAt key = some r.values := by
    rw [valuesAt, hr]
    rfl
  rcases h key r.values hvalues with heq | hpassedOn | hmem
  · exact hblank key (by rw [hvalues, heq]) above habove
  · exact hpassedOn above habove
  · exact absurd hmem List.not_mem_nil

end Store

end Courseware
