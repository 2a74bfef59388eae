import Courseware.Proofs.Followed
import Courseware.Proofs.Grounds

/-!
# No change is lost on the way up

While results are settled, each one is what it is due, or it is due to be recomputed, or something
that it is made of is still to pass up a change (`Tracked`). Marking, creating, passing up and
recomputing keep it so, in whatever order they come, and once nothing is left to be done the result
is what it is due (`Tracked.propagateResults`). This takes it that what counts for a result also
passes its changes up to it, which is so unless a part of its item is what its attempt was started
for (`Aligned`).
-/

namespace Courseware

namespace Store

variable {s s' t : Store} {now : Timestamp} {src key : ResultKey}

/-! ### Who tells whom -/

/-- What its attempt was started for is no part of the item of a result. -/
def Aligned (s : Store) (key : ResultKey) : Prop :=
  ∀ root ∈ (s.attempts.get? (key.participant, key.attempt)).bind (·.rootItem),
    s.links.contains (key.item, root) = false

instance (s : Store) (key : ResultKey) : Decidable (s.Aligned key) :=
  inferInstanceAs (Decidable (∀ root ∈ Option.bind _ _, _))

/-- Passing up the first result marks the second. -/
structure Announces (s : Store) (src key : ResultKey) : Prop where
  stored : s.results.contains src = true
  participant : src.participant = key.participant
  link : s.links.contains (key.item, src.item) = true
  attempt : s.upwardAttempt src = some key.attempt

theorem Aligned.announces (haligned : s.Aligned key) (hstored : s.results.contains src = true)
    (hsrc : s.IsSource src key) : s.Announces src key := by
  refine ⟨hstored, hsrc.participant, hsrc.link, ?_⟩
  have hfeeds := hsrc.feeds
  rw [feeds, Option.any_eq_true] at hfeeds
  obtain ⟨attempt, hattempt, hcounts⟩ := hfeeds
  rw [Bool.or_eq_true, Bool.and_eq_true, decide_eq_true_eq, decide_eq_true_eq,
    decide_eq_true_eq] at hcounts
  rw [upwardAttempt, hattempt]
  simp only
  rcases hcounts with hsame | ⟨hroot, hparent⟩
  · have hother : attempt.rootItem ≠ some src.item := by
      intro hroot
      have hno := haligned src.item (by
        rw [← hsrc.participant, ← hsame, hattempt]
        exact hroot)
      rw [hsrc.link] at hno
      exact absurd hno (by simp)
    rw [if_neg hother, hsame]
  · rw [if_pos hroot, hparent]

/-- The result has values that are exempt, or it is what it is due, or it is due to be recomputed,
or a result in the queue is to mark it. -/
def Tracked (exempt : Aggregate → Prop) (s : Store) (queue : List ResultKey) (key : ResultKey) :
    Prop :=
  ∀ r, s.results.get? key = some r →
    exempt r.values ∨ s.Consistent key r ∨ r.progress = .toBeRecomputed ∨
      ∃ src ∈ queue, s.Announces src key

theorem Tracked.mono {exempt : Aggregate → Prop} {queue queue' : List ResultKey}
    (h : Tracked exempt s queue key) (hsub : ∀ src ∈ queue, src ∈ queue') :
    Tracked exempt s queue' key := by
  intro r hr
  refine (h r hr).imp_right (Or.imp_right (Or.imp_right ?_))
  rintro ⟨src, hsrc, hannounces⟩
  exact ⟨src, hsub src hsrc, hannounces⟩

/-- The values and the correction of a result are kept, and so is that it is due to be recomputed. -/
structure Keeps (r r' : Result) : Prop where
  values : r'.values = r.values
  editRule : r'.editRule = r.editRule
  editValue : r'.editValue = r.editValue
  due : r.progress = .toBeRecomputed → r'.progress = .toBeRecomputed

theorem Keeps.refl (r : Result) : Keeps r r := ⟨rfl, rfl, rfl, id⟩

/-! ### What counts for a result -/

theorem isSource_setResults {rs : Table ResultKey Result} :
    { s with results := rs }.IsSource src key ↔ s.IsSource src key :=
  ⟨fun h => ⟨h.participant, h.link, h.feeds⟩, fun h => ⟨h.participant, h.link, h.feeds⟩⟩

/-- Rows refer to rows, and what counts for the result has a proper score. -/
structure Weighed (s : Store) (key : ResultKey) : Prop extends Coherent s where
  sources : s.ProperSources key

theorem Grounded.weighed (hs : s.Grounded) (key : ResultKey) : s.Weighed key :=
  ⟨hs.toCoherent, hs.proper.sources key⟩

theorem Weighed.setProgress (hs : s.Weighed key) (k : ResultKey) (progress : Progress) :
    (s.setProgress k progress).Weighed key := by
  refine ⟨hs.toCoherent.resultsGrow (resultsGrow_setProgress s k progress), fun src r' hr' hsrc => ?_⟩
  rcases get?_setProgress hr' with ⟨-, r, hr, rfl⟩ | ⟨-, hr⟩
  · exact hs.sources src r hr (isSource_setResults.1 hsrc)
  · exact hs.sources src r' hr (isSource_setResults.1 hsrc)

theorem Weighed.insertResult (hs : s.Weighed key) {k : ResultKey} {progress : Progress}
    {created : Bool} (hinsert : s.insertResult k progress now = .ok (created, s')) :
    s'.Weighed key := by
  have hgrow := resultsGrow_insertResult hinsert
  refine ⟨hs.toCoherent.resultsGrow hgrow, fun src r hr hsrc => ?_⟩
  obtain ⟨rs, rfl⟩ := hgrow.frame
  rcases get?_insertResult hinsert hr with ⟨-, -, rfl⟩ | hold
  · exact Score.proper_zero
  · exact hs.sources src r hold (isSource_setResults.1 hsrc)

section Steps

variable {exempt : Aggregate → Prop} {queue : List ResultKey}

/-- A write keeps track of a result if it makes it due to be recomputed, or sustains it and keeps
its values and its correction, and if it leaves those that are to mark it as they are. -/
theorem Tracked.sustained (h : Tracked exempt s queue key)
    (hrow : ∀ r', t.results.get? key = some r' → r'.progress = .toBeRecomputed ∨
      ∃ r, s.results.get? key = some r ∧ Keeps r r' ∧ s.Sustains t key)
    (htold : ∀ src ∈ queue, s.Announces src key → t.Announces src key) :
    Tracked exempt t queue key := by
  intro r' hr'
  rcases hrow r' hr' with hdue | ⟨r, hr, hkeeps, hsustains⟩
  · exact Or.inr (Or.inr (Or.inl hdue))
  · rcases h r hr with hexempt | hconsistent | hdue | ⟨src, hsrc, hannounces⟩
    · rw [← hkeeps.values] at hexempt
      exact Or.inl hexempt
    · exact Or.inr (Or.inl
        (hsustains.consistent hkeeps.values hkeeps.editRule hkeeps.editValue hconsistent))
    · exact Or.inr (Or.inr (Or.inl (hkeeps.due hdue)))
    · exact Or.inr (Or.inr (Or.inr ⟨src, hsrc, htold src hsrc hannounces⟩))

theorem Tracked.setResults {rs : Table ResultKey Result} (h : Tracked exempt s queue key)
    (hkept : ∀ k, s.results.contains k = true → rs.contains k = true)
    (hsustains : s.results.contains key = true → s.Sustains { s with results := rs } key)
    (hrow : ∀ r', rs.get? key = some r' →
      r'.progress = .toBeRecomputed ∨ ∃ r, s.results.get? key = some r ∧ Keeps r r') :
    Tracked exempt { s with results := rs } queue key := by
  refine h.sustained (fun r' hr' => (hrow r' hr').imp_right ?_) fun src _ hannounces =>
    ⟨hkept src hannounces.stored, hannounces.participant, hannounces.link, hannounces.attempt⟩
  rintro ⟨r, hr, hkeeps⟩
  exact ⟨r, hr, hkeeps, hsustains (Table.contains_of_get? hr)⟩

theorem valuesAt_modify (k src : ResultKey) {f : Result → Result}
    (hf : ∀ r, (f r).values = r.values) :
    { s with results := s.results.modify k f }.valuesAt src = s.valuesAt src := by
  rw [valuesAt, valuesAt, Table.get?_modify]
  split
  · rw [Option.map_map]
    exact congrArg (Option.map · (s.results.get? src)) (funext hf)
  · rfl

theorem Tracked.setProgress (hs : s.Coherent) (h : Tracked exempt s queue key) (k : ResultKey)
    {progress : Progress}
    (hdue : ∀ r, s.results.get? k = some r → r.progress = .toBeRecomputed →
      progress = .toBeRecomputed) : Tracked exempt (s.setProgress k progress) queue key := by
  refine h.setResults (fun k' hk' => ?_) (fun hstored => ?_) fun r' hr' => ?_
  · rw [Table.contains_modify]
    exact hk'
  · exact sustains_setResults (hs.results key hstored).2 fun src _ =>
      valuesAt_modify k src fun _ => rfl
  · rcases get?_setProgress hr' with ⟨rfl, r, hr, rfl⟩ | ⟨-, hr⟩
    · exact Or.inr ⟨r, hr, rfl, rfl, rfl, hdue r hr⟩
    · exact Or.inr ⟨r', hr, .refl r'⟩

theorem Tracked.insertResult (hs : s.Weighed key) (h : Tracked exempt s queue key) {k : ResultKey}
    {created : Bool} (hinsert : s.insertResult k .toBeRecomputed now = .ok (created, s')) :
    Tracked exempt s' queue key := by
  rcases insertResult_eq_ok hinsert with ⟨-, -, rfl⟩ | ⟨hnew, -, -, -, rfl⟩
  · exact h
  · refine h.setResults (fun k' hk' => ?_) (fun hstored => ?_) fun r' hr' => ?_
    · simp [hk']
    · exact sustains_insert (hs.results key hstored).2 hnew (Aggregate.blank_fresh now) hs.sources
    · rw [Table.get?_insert] at hr'
      split at hr'
      · exact Or.inl (Option.some.inj hr' ▸ rfl)
      · exact Or.inr ⟨r', hr', .refl r'⟩

end Steps

/-! ### Marking and passing up -/

/-- The result is due to be recomputed, if there is one. -/
def Marked (s : Store) (key : ResultKey) : Prop :=
  ∀ r, s.results.get? key = some r → r.progress = .toBeRecomputed

theorem Marked.setProgress (h : s.Marked key) (k : ResultKey) :
    (s.setProgress k .toBeRecomputed).Marked key := by
  intro r hr
  rcases get?_setProgress hr with ⟨-, old, -, rfl⟩ | ⟨-, hold⟩
  · rfl
  · exact h r hold

theorem marked_setProgress (s : Store) (key : ResultKey) :
    (s.setProgress key .toBeRecomputed).Marked key := by
  intro r hr
  rcases get?_setProgress hr with ⟨-, old, -, rfl⟩ | ⟨hne, -⟩
  · rfl
  · exact absurd rfl hne

theorem Marked.insertResult (h : s.Marked key) {k : ResultKey} {created : Bool}
    (hinsert : s.insertResult k .toBeRecomputed now = .ok (created, s')) : s'.Marked key := by
  intro r hr
  rcases get?_insertResult hinsert hr with ⟨-, -, rfl⟩ | hold
  · rfl
  · exact h r hold

theorem marked_of_none (h : s.results.get? key = none) : s.Marked key := by
  intro r hr
  rw [h] at hr
  exact absurd hr (by simp)

section Passing

variable {exempt : Aggregate → Prop} {queue : List ResultKey}

/-- Marking keeps track of every result, and it marks what it is asked to mark. -/
theorem Tracked.markWholes (hs : s.Weighed key) (h : Tracked exempt s queue key)
    {participant : GroupId} {attempt : AttemptId} {wholes : List (ItemId × Link × Item)}
    {out : List ResultKey × Nat}
    (hok : s.markWholes participant attempt now wholes = .ok (out, s')) :
    Tracked exempt s' queue key ∧
      (s.Marked key ∨ (∃ w ∈ wholes, (⟨participant, attempt, w.1⟩ : ResultKey) = key) →
        s'.Marked key) := by
  induction wholes generalizing s out with
  | nil =>
    obtain ⟨-, rfl⟩ := markWholes_nil_eq_ok hok
    exact ⟨h, fun hmark => hmark.resolve_right (by simp)⟩
  | cons whole rest ih =>
    obtain ⟨item, link, row⟩ := whole
    -- The head marks its own result, and what is marked stays so.
    have hhead : ∀ t : Store, (s.Marked key → t.Marked key) →
        ((⟨participant, attempt, item⟩ : ResultKey) = key → t.Marked key) →
        (t.Marked key ∨ (∃ w ∈ rest, (⟨participant, attempt, w.1⟩ : ResultKey) = key) →
          s'.Marked key) →
        s.Marked key ∨ (∃ w ∈ (item, link, row) :: rest,
          (⟨participant, attempt, w.1⟩ : ResultKey) = key) → s'.Marked key := by
      intro t hkept hown hrest hmark
      refine hrest ?_
      rcases hmark with hmark | ⟨w, hw, heq⟩
      · exact Or.inl (hkept hmark)
      · rcases List.mem_cons.1 hw with rfl | hw
        · exact Or.inl (hown heq)
        · exact Or.inr ⟨w, hw, heq⟩
    rcases markWholes_cons_eq_ok hok with ⟨r, later, n, -, hrest, -⟩ |
      ⟨hnone, -, created, t, later, n, hinsert, hrest, -⟩ | ⟨hnone, -, hrest⟩
    · obtain ⟨htracked, hmarked⟩ := ih (hs.setProgress _ _)
        (h.setProgress hs.toCoherent ⟨participant, attempt, item⟩ fun _ _ _ => rfl) hrest
      refine ⟨htracked, hhead _ (fun hmark => hmark.setProgress _) (fun heq => ?_) hmarked⟩
      exact heq ▸ marked_setProgress s _
    · obtain ⟨htracked, hmarked⟩ := ih (hs.insertResult hinsert) (h.insertResult hs hinsert) hrest
      refine ⟨htracked, hhead _ (fun hmark => hmark.insertResult hinsert) (fun heq => ?_) hmarked⟩
      exact (marked_of_none (heq ▸ hnone)).insertResult hinsert
    · obtain ⟨htracked, hmarked⟩ := ih hs h hrest
      exact ⟨htracked, hhead _ id (fun heq => marked_of_none (heq ▸ hnone)) hmarked⟩

/-- The first in the queue is not needed any more if it marks nothing that is not marked. -/
theorem Tracked.drop_first {first : ResultKey} (h : Tracked exempt s (first :: queue) key)
    (hfirst : s.Announces first key → s.Marked key) : Tracked exempt s queue key := by
  intro r hr
  rcases h r hr with hexempt | hconsistent | hdue | ⟨src, hsrc, hannounces⟩
  · exact Or.inl hexempt
  · exact Or.inr (Or.inl hconsistent)
  · exact Or.inr (Or.inr (Or.inl hdue))
  · rcases List.mem_cons.1 hsrc with rfl | hsrc
    · exact Or.inr (Or.inr (Or.inl (hfirst hannounces r hr)))
    · exact Or.inr (Or.inr (Or.inr ⟨src, hsrc, hannounces⟩))

theorem Tracked.settle {first : ResultKey} {r : Result} (hs : s.Coherent)
    (h : Tracked exempt s queue key) (hr : s.results.get? first = some r) :
    Tracked exempt (s.settle first r) queue key := by
  unfold Store.settle
  split
  · rename_i hp
    refine h.setProgress hs first fun r' hr' hdue => ?_
    obtain rfl : r = r' := Option.some.inj (hr.symm.trans hr')
    rw [hp] at hdue
    exact absurd hdue (by decide)
  · exact h

/-- A result that is passed up has marked whatever it was to mark. -/
theorem Tracked.passUp {first : ResultKey} (hs : s.Weighed key)
    (h : Tracked exempt s (first :: queue) key) {out : List ResultKey × Nat}
    (hok : s.passUp first now = .ok (out, s')) : Tracked exempt s' queue key := by
  rcases passUp_eq_ok hok with ⟨hnone, -, rfl⟩ |
    ⟨r, hr, ⟨hupward, -, rfl⟩ | ⟨attempt, hupward, hmark⟩⟩
  · refine h.drop_first fun hannounces => ?_
    have hstored := hannounces.stored
    rw [Table.get?_eq_none_iff.1 hnone] at hstored
    exact absurd hstored (by simp)
  · refine (h.settle hs.toCoherent hr).drop_first fun hannounces => ?_
    obtain ⟨rs, hframe⟩ := s.settle_frame first r
    rw [hframe] at hannounces
    exact absurd (hannounces.attempt.symm.trans hupward) (by simp)
  · have ht : (s.settle first r).Weighed key :=
      settle_keeps (P := fun t => t.Weighed key) hs (hs.setProgress first .done)
    have htracked := h.settle hs.toCoherent hr
    obtain ⟨rs, hframe⟩ := s.settle_frame first r
    rw [hframe] at ht htracked hmark
    obtain ⟨hafter, hmarked⟩ := htracked.markWholes ht hmark
    obtain ⟨rs', rfl⟩ := ((resultsGrow_keptBySettling now _).markWholes (.refl _) hmark).frame
    refine hafter.drop_first fun hannounces => hmarked (Or.inr ?_)
    obtain ⟨link, hlink⟩ := Table.contains_iff.1 hannounces.link
    obtain ⟨row, hrow⟩ := Table.contains_iff.1 (ht.links _ (Table.contains_of_get? hlink)).1
    refine ⟨(key.item, link, row), mem_wholesOf.2 ⟨hlink, hrow⟩, ?_⟩
    have hattempt : attempt = key.attempt :=
      Option.some.inj (hupward.symm.trans hannounces.attempt)
    rw [hannounces.participant, hattempt]

end Passing

/-! ### Recomputing -/

section Recomputing

variable {exempt : Aggregate → Prop}

/-- The values that are written are those that were due. -/
theorem agrees_written {a : Aggregate} {score : Score} (h : a.score.stored? = some score) :
    a.Agrees { a with score } :=
  ⟨Score.same_stored h, rfl, rfl⟩

/-- Values that were due and no different from the old ones are written as the old ones. -/
theorem written_eq_of_same {a b : Aggregate} {score : Score} (h : a.score.stored? = some score)
    (hb : b.score.stored? = some b.score) (hsame : a.same b = true) :
    { a with score } = b := by
  simp only [Aggregate.same, Bool.and_eq_true, decide_eq_true_eq] at hsame
  obtain ⟨⟨⟨⟨hscores, hobtained⟩, hvalidated⟩, htried⟩, hactivity⟩ := hsame
  have heq : score = b.score := by
    refine Score.eq_of_same_stored (Score.stored?_of_stored? h) hb ?_
    rw [← (Score.alike_stored h).same_left]
    exact hscores
  rw [heq, hobtained, hvalidated, htried, hactivity]

theorem not_isSource_self (hs : s.Layered) (key : ResultKey) : ¬ s.IsSource key key := by
  intro hsrc
  exact hs.acyclic key.item key.item .never hsrc.link (.stay _)

section Change

variable {k : ResultKey} {old : Result} (hold : s.results.get? k = some old)
  (hok : s.recomputeResult k old = .ok s')

include hold hok

/-- One row is written, and no other. -/
theorem rows_recomputeResult : ∃ score rs, (s.dueValues k old).score.stored? = some score ∧
    s' = { s with results := rs } ∧
    rs.get? k = some { old with
      values := { s.dueValues k old with score }
      progress := if (s.dueValues k old).same old.values then .done else .toBePropagated } ∧
    ∀ key, k ≠ key → rs.get? key = s.results.get? key := by
  obtain ⟨score, hscore, rfl⟩ := recomputeResult_eq_ok hok
  refine ⟨score, _, hscore, rfl, ?_, fun key hne => ?_⟩
  · rw [Table.get?_modify, if_pos rfl, hold, Option.map_some]
  · rw [Table.get?_modify, if_neg hne]

/-- What was recomputed and is no different, or does not count, makes no difference. -/
theorem sustains_recomputeResult (hstored : old.values.score.stored? = some old.values.score)
    (hkey : s.items.contains key.item = true)
    (hsame : s.IsSource k key → (s.dueValues k old).same old.values = true) :
    s.Sustains s' key := by
  obtain ⟨score, rs, hscore, rfl, hrow, hothers⟩ := rows_recomputeResult hold hok
  refine sustains_setResults hkey fun src hsrc => ?_
  rw [valuesAt, valuesAt]
  by_cases heq : k = src
  · subst heq
    rw [hrow, hold, Option.map_some, Option.map_some]
    exact congrArg some (written_eq_of_same hscore hstored (hsame hsrc))
  · rw [hothers src heq]

/-- What is recomputed is what it is due. -/
theorem consistent_recomputeResult (hs : s.Coherent)
    (hstored : old.values.score.stored? = some old.values.score) {r : Result}
    (hr : s'.results.get? k = some r) : s'.Consistent k r := by
  have hsustains := sustains_recomputeResult hold hok hstored
    (hs.results k (Table.contains_of_get? hold)).2
    fun hself => absurd hself (not_isSource_self hs.toLayered k)
  obtain ⟨score, rs, hscore, rfl, hrow, -⟩ := rows_recomputeResult hold hok
  obtain rfl := Option.some.inj (hrow.symm.trans hr)
  rw [Consistent]
  exact Aggregate.Alike.agrees (hsustains.alike (r := old) rfl rfl) (agrees_written hscore)

/-- What was recomputed and is different tells what it counts for. -/
theorem announces_recomputeResult (haligned : s.Aligned key) (hsrc : s.IsSource k key)
    (hchanged : (s.dueValues k old).same old.values = false) :
    k ∈ s'.announcing ∧ s'.Announces k key := by
  obtain ⟨-, hparticipant, hlink, hattempt⟩ :=
    haligned.announces (Table.contains_of_get? hold) hsrc
  obtain ⟨score, rs, -, rfl, hrow, -⟩ := rows_recomputeResult hold hok
  refine ⟨mem_announcing.2 ⟨_, hrow, ?_⟩, Table.contains_of_get? hrow, hparticipant, hlink, hattempt⟩
  simp only [hchanged]
  rfl

/-- What is to tell something is not recomputed, and it is still to do so. -/
theorem Announces.recomputeResult (hdue : old.progress = .toBeRecomputed)
    (hsrc : src ∈ s.announcing) (h : s.Announces src key) :
    src ∈ s'.announcing ∧ s'.Announces src key := by
  obtain ⟨row, hrow, hprogress⟩ := mem_announcing.1 hsrc
  obtain ⟨score, rs, -, rfl, -, hothers⟩ := rows_recomputeResult hold hok
  have hother : k ≠ src := by
    rintro rfl
    obtain rfl := Option.some.inj (hold.symm.trans hrow)
    rw [hdue] at hprogress
    exact absurd hprogress (by decide)
  have hrow' := (hothers src hother).trans hrow
  exact ⟨mem_announcing.2 ⟨row, hrow', hprogress⟩, Table.contains_of_get? hrow', h.participant,
    h.link, h.attempt⟩

/-- A result that is recomputed is what it is due, and if it is new to others they are told. -/
theorem Tracked.recomputeResult (hs : s.Coherent)
    (hstored : old.values.score.stored? = some old.values.score) (haligned : s.Aligned key)
    (hdue : old.progress = .toBeRecomputed) (h : Tracked exempt s s.announcing key) :
    Tracked exempt s' s'.announcing key := by
  intro r hr
  by_cases hkey : k = key
  · subst hkey
    exact Or.inr (Or.inl (consistent_recomputeResult hold hok hs hstored hr))
  · have hr' : s.results.get? key = some r := by
      obtain ⟨score, rs, -, rfl, -, hothers⟩ := rows_recomputeResult hold hok
      exact (hothers key hkey).symm.trans hr
    rcases h r hr' with hexempt | hconsistent | hdue' | ⟨src, hsrc, hannounces⟩
    · exact Or.inl hexempt
    · -- It is told, or nothing that it is made of has changed.
      by_cases htold : s.IsSource k key ∧ (s.dueValues k old).same old.values = false
      · exact Or.inr (Or.inr (Or.inr
          ⟨k, announces_recomputeResult hold hok haligned htold.1 htold.2⟩))
      · refine Or.inr (Or.inl (Sustains.consistent ?_ rfl rfl rfl hconsistent))
        refine sustains_recomputeResult hold hok hstored
          (hs.results key (Table.contains_of_get? hr')).2 fun hsrc => ?_
        rw [← Bool.not_eq_false]
        exact fun hno => htold ⟨hsrc, hno⟩
    · exact Or.inr (Or.inr (Or.inl hdue'))
    · exact Or.inr (Or.inr (Or.inr
        ⟨src, hannounces.recomputeResult hold hok hdue hsrc⟩))

end Change

/-! ### Settling -/

theorem aligned_resultsGrow (hgrow : s.ResultsGrow t) : t.Aligned key ↔ s.Aligned key := by
  obtain ⟨rs, rfl⟩ := hgrow.frame
  exact Iff.rfl

theorem tracked_followed (exempt : Aggregate → Prop) (now : Timestamp) (key : ResultKey) :
    Followed now fun s queue => s.Grounded ∧ s.Aligned key ∧ Tracked exempt s queue key where
  mono h hsub := ⟨h.1, h.2.1, h.2.2.mono hsub⟩
  passUp h hok := by
    obtain ⟨hs, haligned, htracked⟩ := h
    have hgrow := (resultsGrow_keptBySettling now _).passUp (.refl _) hok
    exact ⟨(grounded_keptBySettling now).passUp hs hok, (aligned_resultsGrow hgrow).2 haligned,
      htracked.passUp (hs.weighed key) hok⟩
  recomputeResult h hrow hdue hok := by
    obtain ⟨hs, haligned, htracked⟩ := h
    have hgrow := resultsGrow_recomputeResult hok
    exact ⟨hs.recomputeResult hok, (aligned_resultsGrow hgrow).2 haligned,
      htracked.recomputeResult hrow hok hs.toCoherent (hs.proper _ _ hrow).1.stored haligned hdue⟩

/-- Once nothing is left to be done, a result that was kept track of has exempt values or is what it
is due. -/
theorem Tracked.propagateResults (hs : s.Grounded) (haligned : s.Aligned key)
    (h : Tracked exempt s s.announcing key) {outcome : ResultOutcome}
    (hok : s.propagateResults now = .ok (outcome, s')) :
    ∀ r, s'.results.get? key = some r → exempt r.values ∨ s'.Consistent key r := by
  obtain ⟨-, -, htracked⟩ := (tracked_followed exempt now key).propagateResults
    (hs.toLayered.propagateResults now).1 ⟨hs, haligned, h⟩ hok
  have hdone := allDone_propagateResults hs.toLayered hok
  intro r hr
  rcases htracked r hr with hexempt | hconsistent | hdue | ⟨src, hsrc, -⟩
  · exact Or.inl hexempt
  · exact Or.inr hconsistent
  · exact absurd ((hdone key r hr).symm.trans hdue) (by decide)
  · exact absurd hsrc List.not_mem_nil

end Recomputing

/-! ### Settling pairs -/

section Pairs

variable {exempt : Aggregate → Prop} {queue : List ResultKey}

theorem get?_markResults {p : ResultKey → Bool} {progress : Progress} {r' : Result}
    (hr' : (s.markResults p progress).2.results.get? key = some r') :
    ∃ r, s.results.get? key = some r ∧ Keeps r r' ∧ (r.progress ≠ .done → r' = r) := by
  rw [markResults, Table.get?_map_eq_some] at hr'
  obtain ⟨r, hr, rfl⟩ := hr'
  refine ⟨r, hr, ?_, fun hpending => ?_⟩
  · split
    · rename_i hdone
      simp only [Bool.and_eq_true, decide_eq_true_eq] at hdone
      exact ⟨rfl, rfl, rfl, fun hdue => absurd (hdone.1.symm.trans hdue) (by decide)⟩
    · exact .refl r
  · rw [if_neg]
    simp [hpending]

theorem valuesAt_markResults (s : Store) (p : ResultKey → Bool) (progress : Progress)
    (src : ResultKey) : (s.markResults p progress).2.valuesAt src = s.valuesAt src := by
  rw [valuesAt, valuesAt, markResults, Table.get?_map, Option.map_map]
  refine congrArg (Option.map · (s.results.get? src)) (funext fun r => ?_)
  simp only [Function.comp_apply]
  split <;> rfl

theorem Tracked.markResults (hs : s.Coherent) (h : Tracked exempt s queue key)
    (p : ResultKey → Bool) (progress : Progress) :
    Tracked exempt (s.markResults p progress).2 queue key := by
  refine h.setResults (fun k hk => ?_) (fun hstored => ?_) fun r' hr' => ?_
  · rw [Table.contains_map]
    exact hk
  · exact sustains_setResults (hs.results key hstored).2 fun src _ =>
      valuesAt_markResults s p progress src
  · obtain ⟨r, hr, hkeeps, -⟩ := get?_markResults hr'
    exact Or.inr ⟨r, hr, hkeeps⟩

theorem mem_announcing_markResults (hsrc : src ∈ s.announcing) (p : ResultKey → Bool)
    (progress : Progress) : src ∈ (s.markResults p progress).2.announcing := by
  obtain ⟨r, hr, hprogress⟩ := mem_announcing.1 hsrc
  refine mem_announcing.2 ⟨r, ?_, hprogress⟩
  rw [Store.markResults, Table.get?_map, hr, Option.map_some, if_neg]
  simp [hprogress]

/-- Settled results right below an item are to tell it once it became visible. -/
theorem mem_announcing_markBelow {src : ResultKey} {pairs : List Pair} {pair : Pair}
    (hpair : pair ∈ pairs) (hlink : s.links.contains (pair.2, src.item) = true)
    (habove : s.isAncestorAt pair.1 src.participant now = true)
    (hsrc : ∃ r, s.results.get? src = some r ∧ r.progress ≠ .toBeRecomputed) :
    src ∈ (s.markBelow now pairs).announcing := by
  have hkept : ∀ (pairs : List Pair) (u : Store), src ∈ u.announcing →
      src ∈ (u.markBelow now pairs).announcing := fun pairs u hu =>
    markBelow_keeps (P := fun t => src ∈ t.announcing)
      (fun t p ht => mem_announcing_markResults ht p _) hu now pairs
  induction pairs generalizing s with
  | nil => exact absurd hpair List.not_mem_nil
  | cons first rest ih =>
    obtain ⟨r, hr, hprogress⟩ := hsrc
    rw [markBelow]
    -- Either the first marks it, or it is as it was.
    have hmarked : ∀ marks : Bool, (s.links.contains (first.2, src.item) &&
        s.isAncestorAt first.1 src.participant now) = marks →
        (s.markPartResultsBelow first.1 first.2 now).2.results.get? src =
          some (if r.progress = .done && marks then { r with progress := .toBePropagated } else r) := by
      rintro _ rfl
      rw [markPartResultsBelow, markResults, Table.get?_map, hr, Option.map_some]
    rcases List.mem_cons.1 hpair with rfl | hrest
    · refine hkept rest _ (mem_announcing.2 ⟨_, hmarked true (by rw [hlink, habove]; rfl), ?_⟩)
      split
      · rfl
      · rename_i hpending
        cases hcase : r.progress with
        | done => simp [hcase] at hpending
        | toBePropagated => rfl
        | toBeRecomputed => exact absurd hcase hprogress
    · refine ih hrest hlink habove ⟨_, hmarked _ rfl, ?_⟩
      split
      · simp
      · exact hprogress

theorem Tracked.setGenerated (h : Tracked exempt s queue key) (gen : Table Pair Generated) :
    Tracked exempt { s with generated := gen } queue key := by
  intro r hr
  refine (h r hr).imp_right (Or.imp_right (Or.imp_right ?_))
  rintro ⟨src, hsrc, hstored, hparticipant, hlink, hattempt⟩
  exact ⟨src, hsrc, hstored, hparticipant, hlink, hattempt⟩

theorem Tracked.settlesTo (hs : s.Grounded) (haligned : s.Aligned key)
    (h : Tracked exempt s s.announcing key) (hsettles : SettlesTo now s s') :
    ∀ r, s'.results.get? key = some r → exempt r.values ∨ s'.Consistent key r := by
  obtain ⟨gen, pairs, outcome, hok⟩ := hsettles
  have hmark : ∀ (u : Store) (p : ResultKey → Bool),
      u.Grounded ∧ u.Aligned key ∧ Tracked exempt u u.announcing key →
      (u.markResults p .toBePropagated).2.Grounded ∧
        (u.markResults p .toBePropagated).2.Aligned key ∧
        Tracked exempt (u.markResults p .toBePropagated).2
          (u.markResults p .toBePropagated).2.announcing key := by
    intro u p ⟨hu, hualigned, htracked⟩
    refine ⟨hu.markResults p _, hualigned, (htracked.markResults hu.toCoherent p _).mono fun src hsrc => ?_⟩
    exact mem_announcing_markResults hsrc p _
  obtain ⟨hmarked, haligned', htracked⟩ := markBelow_keeps hmark
    ⟨hs.setGenerated gen, haligned, h.setGenerated gen⟩ now pairs
  exact htracked.propagateResults hmarked haligned' hok

end Pairs

end Store

end Courseware
