import Courseware.Proofs.Frame
import Courseware.Proofs.Items

/-!
# Draining the queue of results

Passing up takes results from a queue that grows while it is worked off. It ends all the same: a
result joins the queue only when it stops being due to pass on a change, and nothing becomes so
meanwhile. So `passUpAll` finds the end of the queue within its turns and does what the queue alone,
without a count of turns, says (`Drains`). All that is marked lies higher up than what it was marked
for, in any ranking of items that grows along links.
-/

namespace Courseware

/-! ### Outcomes other than a stall -/

/-- The outcome is not that settling got nowhere. -/
def Unstalled {α : Type} (outcome : Except Fault α) : Prop := ∀ n, outcome ≠ .error (.stalled n)

theorem unstalled_ok {α : Type} (a : α) : Unstalled (.ok a) := by
  intro n h
  exact absurd h (by simp)

theorem unstalled_lift {α : Type} (outcome : Except StoreFault α) :
    Unstalled (Fault.lift outcome) := by
  intro n h
  cases outcome with
  | ok a => simp at h
  | error fault => cases fault <;> simp [Fault.ofStore] at h

theorem Unstalled.bind {α β : Type} {x : Except Fault α} {f : α → Except Fault β}
    (hx : Unstalled x) (hf : ∀ a, x = .ok a → Unstalled (f a)) : Unstalled (x >>= f) := by
  cases x with
  | error fault => exact fun n h => hx n (by simpa [Bind.bind, Except.bind] using h)
  | ok a => exact hf a rfl

theorem Fault.ofStore_ne_stalled (fault : StoreFault) (n : Nat) :
    Fault.ofStore fault ≠ .stalled n := by
  cases fault <;> simp [Fault.ofStore]

/-- What fails for other reasons does not stall. -/
theorem FailsFor.unstalled {α : Type} {outcome : Except Fault α}
    (h : FailsFor (fun fault => ∀ n, fault ≠ .stalled n) outcome) : Unstalled outcome := by
  intro n heq
  exact h _ heq n rfl

namespace Table

variable {κ ν : Type} [DecidableEq κ] [Key κ]

theorem size_erase_le (t : Table κ ν) (k : κ) : (t.erase k).size ≤ t.size :=
  List.length_filter_le _ _

theorem size_erase_lt {t : Table κ ν} {k : κ} (h : t.contains k = true) :
    (t.erase k).size < t.size := by
  obtain ⟨v, hv⟩ := contains_iff.1 h
  refine List.length_filter_lt_length_iff_exists.2 ⟨(k, v), mem_toList_iff.2 hv, ?_⟩
  simp

end Table

namespace Store

variable {s s' : Store} {now : Timestamp}

/-! ### Results in one state of progress -/

/-- The results in one state of progress. -/
def tableIn (s : Store) (progress : Progress) : Table ResultKey Result :=
  s.results.filter fun _ r => decide (r.progress = progress)

theorem resultsIn_eq (s : Store) (progress : Progress) :
    s.resultsIn progress = (s.tableIn progress).toList :=
  rfl

theorem length_resultsIn (s : Store) (progress : Progress) :
    (s.resultsIn progress).length = (s.tableIn progress).size :=
  rfl

theorem length_resultsIn_le (s : Store) (progress : Progress) :
    (s.resultsIn progress).length ≤ s.results.size :=
  List.length_filter_le _ _

theorem mem_resultsIn {progress : Progress} {key : ResultKey} {r : Result} :
    (key, r) ∈ s.resultsIn progress ↔ s.results.get? key = some r ∧ r.progress = progress := by
  rw [resultsIn_eq, Table.mem_toList_iff, tableIn, Table.get?_filter_eq_some, decide_eq_true_eq]

theorem resultsIn_eq_nil {progress : Progress} :
    s.resultsIn progress = [] ↔
      ∀ key r, s.results.get? key = some r → r.progress ≠ progress := by
  rw [List.eq_nil_iff_forall_not_mem]
  constructor
  · intro h key r hr hp
    exact h (key, r) (mem_resultsIn.2 ⟨hr, hp⟩)
  · rintro h ⟨key, r⟩ hmem
    exact h key r (mem_resultsIn.1 hmem).1 (mem_resultsIn.1 hmem).2

/-- A result that leaves a state of progress is taken out of it. -/
theorem tableIn_setProgress {progress other : Progress} (hne : other ≠ progress)
    (key : ResultKey) :
    (s.setProgress key other).tableIn progress = (s.tableIn progress).erase key := by
  refine Table.ext_get? fun k => ?_
  rw [tableIn, tableIn, setProgress, Table.get?_filter, Table.get?_modify, Table.get?_erase,
    Table.get?_filter]
  split
  · cases s.results.get? k <;> simp [Option.filter, hne]
  · rfl

theorem length_resultsIn_setProgress (s : Store) {progress other : Progress}
    (hne : other ≠ progress) (key : ResultKey) :
    ((s.setProgress key other).resultsIn progress).length ≤ (s.resultsIn progress).length := by
  rw [length_resultsIn, length_resultsIn, tableIn_setProgress hne]
  exact Table.size_erase_le _ _

theorem length_resultsIn_setProgress_lt {progress other : Progress} (hne : other ≠ progress)
    {key : ResultKey} {r : Result} (hr : s.results.get? key = some r)
    (hp : r.progress = progress) :
    ((s.setProgress key other).resultsIn progress).length < (s.resultsIn progress).length := by
  rw [length_resultsIn, length_resultsIn, tableIn_setProgress hne]
  refine Table.size_erase_lt (Table.contains_of_get? (v := r) ?_)
  rw [tableIn, Table.get?_filter_eq_some]
  exact ⟨hr, decide_eq_true hp⟩

theorem get?_setProgress {key key' : ResultKey} {progress : Progress} {r : Result}
    (h : (s.setProgress key progress).results.get? key' = some r) :
    (key = key' ∧ ∃ old, s.results.get? key' = some old ∧ r = { old with progress }) ∨
      (key ≠ key' ∧ s.results.get? key' = some r) := by
  rw [setProgress, Table.get?_modify] at h
  split at h
  · rename_i heq
    obtain ⟨old, hold, rfl⟩ := Option.map_eq_some_iff.1 h
    exact Or.inl ⟨heq, old, hold, rfl⟩
  · rename_i hne
    exact Or.inr ⟨hne, h⟩

theorem get?_insertResult {key key' : ResultKey} {progress : Progress} {created : Bool}
    {r : Result} (hinsert : s.insertResult key progress now = .ok (created, s'))
    (h : s'.results.get? key' = some r) :
    (key = key' ∧ created = true ∧ r = ⟨.fresh now, none, none, progress⟩) ∨
      s.results.get? key' = some r := by
  rcases insertResult_eq_ok hinsert with ⟨-, -, rfl⟩ | ⟨-, hcreated, -, -, rfl⟩
  · exact Or.inr h
  · rw [Table.get?_insert] at h
    split at h
    · rename_i heq
      obtain rfl := Option.some.inj h
      exact Or.inl ⟨heq, hcreated, rfl⟩
    · exact Or.inr h

theorem resultsIn_insertResult {key : ResultKey} {progress other : Progress} {created : Bool}
    (hne : other ≠ progress) (hinsert : s.insertResult key other now = .ok (created, s')) :
    s'.resultsIn progress = s.resultsIn progress := by
  rcases insertResult_eq_ok hinsert with ⟨-, -, rfl⟩ | ⟨hnew, -, -, -, rfl⟩
  · rfl
  · rw [resultsIn_eq, resultsIn_eq]
    refine congrArg Table.toList (Table.ext_get? fun k => ?_)
    rw [tableIn, tableIn, Table.get?_filter, Table.get?_filter, Table.get?_insert]
    split
    · rename_i heq
      rw [← heq, Table.get?_eq_none_iff.2 hnew]
      simp [Option.filter, hne]
    · rfl

/-! ### The queue -/

/-- What it means to pass up results from a queue until the queue is empty. -/
inductive Drains (now : Timestamp) : Store → List ResultKey → ResultOutcome →
    Except Fault (ResultOutcome × Store) → Prop where
  | nil (s : Store) (outcome : ResultOutcome) : Drains now s [] outcome (.ok (outcome, s))
  | fault {s : Store} {key : ResultKey} {queue : List ResultKey} {outcome : ResultOutcome}
      {fault : Fault} : s.passUp key now = .error fault →
      Drains now s (key :: queue) outcome (.error fault)
  | turn {s t : Store} {key : ResultKey} {queue waiting : List ResultKey} {created : Nat}
      {outcome : ResultOutcome} {out : Except Fault (ResultOutcome × Store)} :
      s.passUp key now = .ok ((waiting, created), t) →
      Drains now t (queue ++ waiting)
        { outcome with
          propagated := outcome.propagated + 1
          created := outcome.created + created } out →
      Drains now s (key :: queue) outcome out

theorem KeptBySettling.drains {P : Store → Prop} (hP : KeptBySettling now P)
    {queue : List ResultKey} {outcome : ResultOutcome} {out : Except Fault (ResultOutcome × Store)}
    (hdrains : Drains now s queue outcome out) (hs : P s) {outcome' : ResultOutcome}
    (hok : out = .ok (outcome', s')) : P s' := by
  induction hdrains with
  | nil => exact (Prod.mk.inj (Except.ok.inj hok)).2 ▸ hs
  | fault => exact absurd hok (by simp)
  | turn hpass _ ih => exact ih (hP.passUp hs hpass) hok

theorem Ranks.resultsGrow {rank : ItemId → Nat} (h : Ranks rank s) (hgrow : s.ResultsGrow s') :
    Ranks rank s' := by
  obtain ⟨rs, rfl⟩ := hgrow.frame
  exact h

/-- While results from level `k` on are passed up: nothing up to level `k` is due to be recomputed,
and all that is due to pass on a change waits in the queue. -/
structure Draining (rank : ItemId → Nat) (k : Nat) (queue : List ResultKey) (s : Store) : Prop where
  queued : ∀ key ∈ queue, k ≤ rank key.item + 1
  calm : ∀ key r, s.results.get? key = some r → rank key.item + 1 ≤ k →
    r.progress ≠ .toBeRecomputed
  waiting : ∀ key r, s.results.get? key = some r → r.progress = .toBePropagated → key ∈ queue

section Queue

variable {rank : ItemId → Nat} {k : Nat} {queue : List ResultKey}

/-- A result that is marked although it had a change to pass on joins the queue. -/
theorem Draining.mark (hs : Draining rank k queue s) {key : ResultKey} (r : Result)
    (hkey : k ≤ rank key.item) :
    Draining rank k (queue ++ if r.progress = .toBePropagated then [key] else [])
      (s.setProgress key .toBeRecomputed) := by
  constructor
  · intro key' hmem
    rcases List.mem_append.1 hmem with hmem | hmem
    · exact hs.queued key' hmem
    · split at hmem
      · rw [List.mem_singleton.1 hmem]
        omega
      · exact absurd hmem List.not_mem_nil
  · intro key' r' hr' hlow
    rcases get?_setProgress hr' with ⟨rfl, -⟩ | ⟨-, hold⟩
    · omega
    · exact hs.calm key' r' hold hlow
  · intro key' r' hr' hp
    rcases get?_setProgress hr' with ⟨-, old, -, rfl⟩ | ⟨-, hold⟩
    · exact absurd hp (by simp)
    · exact List.mem_append_left _ (hs.waiting key' r' hold hp)

theorem Draining.insert (hs : Draining rank k queue s) {key : ResultKey} {created : Bool}
    (hkey : k ≤ rank key.item)
    (hinsert : s.insertResult key .toBeRecomputed now = .ok (created, s')) :
    Draining rank k queue s' := by
  refine ⟨hs.queued, fun key' r hr hlow => ?_, fun key' r hr hp => ?_⟩
  · rcases get?_insertResult hinsert hr with ⟨rfl, -⟩ | hold
    · omega
    · exact hs.calm key' r hold hlow
  · rcases get?_insertResult hinsert hr with ⟨-, -, rfl⟩ | hold
    · exact absurd hp (by simp)
    · exact hs.waiting key' r hold hp

theorem failsFor_markWholes {p : Fault → Prop} (hstore : ∀ fault, p (.ofStore fault)) (s : Store)
    (participant : GroupId) (attempt : AttemptId) (now : Timestamp)
    (wholes : List (ItemId × Link × Item)) :
    FailsFor p (s.markWholes participant attempt now wholes) := by
  induction wholes generalizing s with
  | nil => exact failsFor_ok _
  | cons whole rest ih =>
    obtain ⟨item, link, row⟩ := whole
    rw [markWholes]
    split
    · exact (ih _).bind fun _ _ => failsFor_ok _
    · split
      · exact (failsFor_lift hstore _).bind fun _ _ => (ih _).bind fun _ _ => failsFor_ok _
      · exact ih _

/-- Marking what lies above keeps the queue in order, and whatever joins the queue is no longer due
to pass on a change. -/
theorem Draining.markWholes (hs : Draining rank k queue s) {participant : GroupId}
    {attempt : AttemptId} {wholes : List (ItemId × Link × Item)}
    (hwholes : ∀ w ∈ wholes, k ≤ rank w.1) {waiting : List ResultKey} {created : Nat}
    (h : s.markWholes participant attempt now wholes = .ok ((waiting, created), s')) :
    Draining rank k (queue ++ waiting) s' ∧
      waiting.length + (s'.resultsIn .toBePropagated).length ≤
        (s.resultsIn .toBePropagated).length := by
  induction wholes generalizing s queue waiting created with
  | nil =>
    obtain ⟨hout, rfl⟩ := markWholes_nil_eq_ok h
    obtain ⟨rfl, -⟩ := Prod.mk.inj hout
    rw [List.append_nil]
    exact ⟨hs, by simp⟩
  | cons whole rest ih =>
    obtain ⟨item, link, row⟩ := whole
    have hitem : k ≤ rank item := hwholes _ List.mem_cons_self
    have hrest : ∀ w ∈ rest, k ≤ rank w.1 := fun w hw => hwholes w (List.mem_cons_of_mem _ hw)
    rcases markWholes_cons_eq_ok h with ⟨r, later, n, hr, hmark, hout⟩ |
      ⟨-, -, new, t, later, n, hinsert, hmark, hout⟩ | ⟨-, -, hmark⟩
    · obtain ⟨rfl, -⟩ := Prod.mk.inj hout
      obtain ⟨hdraining, hlength⟩ := ih (hs.mark r hitem) hrest hmark
      by_cases hp : r.progress = .toBePropagated
      · have hlt := length_resultsIn_setProgress_lt
          (show Progress.toBeRecomputed ≠ .toBePropagated by decide) hr hp
        rw [if_pos hp, List.append_assoc] at hdraining
        rw [if_pos hp]
        refine ⟨hdraining, ?_⟩
        rw [List.length_cons]
        omega
      · have hle := s.length_resultsIn_setProgress
          (show Progress.toBeRecomputed ≠ .toBePropagated by decide) ⟨participant, attempt, item⟩
        rw [if_neg hp, List.append_nil] at hdraining
        rw [if_neg hp]
        exact ⟨hdraining, by omega⟩
    · obtain ⟨rfl, -⟩ := Prod.mk.inj hout
      obtain ⟨hdraining, hlength⟩ := ih (hs.insert hitem hinsert) hrest hmark
      refine ⟨hdraining, ?_⟩
      rw [← resultsIn_insertResult (by decide) hinsert]
      exact hlength
    · exact ih hs hrest hmark

theorem failsFor_passUp {p : Fault → Prop} (hstore : ∀ fault, p (.ofStore fault)) (s : Store)
    (key : ResultKey) (now : Timestamp) : FailsFor p (s.passUp key now) := by
  rw [passUp]
  split
  · exact failsFor_ok _
  · simp only
    split
    · exact failsFor_ok _
    · exact failsFor_markWholes hstore _ _ _ _ _

theorem failsFor_passUpAll {p : Fault → Prop} (hstore : ∀ fault, p (.ofStore fault)) (s : Store)
    (now : Timestamp) (turns : Nat) (queue : List ResultKey) (outcome : ResultOutcome) :
    FailsFor p (s.passUpAll now turns queue outcome) := by
  induction turns generalizing s queue outcome with
  | zero => exact failsFor_ok _
  | succ turns ih =>
    cases queue with
    | nil => exact failsFor_ok _
    | cons key queue => exact (failsFor_passUp hstore s key now).bind fun _ _ => ih _ _ _

/-- Settling the first in the queue takes it out of it. -/
theorem Draining.settle {key : ResultKey} (hs : Draining rank k (key :: queue) s) {r : Result}
    (hr : s.results.get? key = some r) :
    Draining rank k queue (s.settle key r) ∧
      ((s.settle key r).resultsIn .toBePropagated).length ≤
        (s.resultsIn .toBePropagated).length := by
  have htail : ∀ key' ∈ queue, k ≤ rank key'.item + 1 := fun key' hmem =>
    hs.queued key' (List.mem_cons_of_mem _ hmem)
  unfold Store.settle
  split
  · refine ⟨⟨htail, fun key' r' hr' hlow => ?_, fun key' r' hr' hp => ?_⟩,
      s.length_resultsIn_setProgress (by decide) key⟩
    · rcases get?_setProgress hr' with ⟨-, old, -, rfl⟩ | ⟨-, hold⟩
      · simp
      · exact hs.calm key' r' hold hlow
    · rcases get?_setProgress hr' with ⟨-, old, -, rfl⟩ | ⟨hne, hold⟩
      · exact absurd hp (by simp)
      · exact (List.mem_cons.1 (hs.waiting key' r' hold hp)).resolve_left (Ne.symm hne)
  · rename_i hno
    refine ⟨⟨htail, hs.calm, fun key' r' hr' hp => ?_⟩, Nat.le_refl _⟩
    rcases List.mem_cons.1 (hs.waiting key' r' hr' hp) with rfl | hmem
    · rw [hr] at hr'
      exact absurd ((Option.some.inj hr') ▸ hp) hno
    · exact hmem

/-- A turn takes a result from the queue; what joins the queue instead lies higher up. -/
theorem Draining.passUp {key : ResultKey} (hs : Draining rank k (key :: queue) s)
    (hranks : Ranks rank s) {waiting : List ResultKey} {created : Nat}
    (h : s.passUp key now = .ok ((waiting, created), s')) :
    Draining rank k (queue ++ waiting) s' ∧
      waiting.length + (s'.resultsIn .toBePropagated).length ≤
        (s.resultsIn .toBePropagated).length := by
  have hkey : k ≤ rank key.item + 1 := hs.queued key List.mem_cons_self
  rcases passUp_eq_ok h with ⟨hnone, hout, rfl⟩ | ⟨r, hr, ⟨-, hout, rfl⟩ | ⟨attempt, -, h⟩⟩
  · obtain ⟨rfl, -⟩ := Prod.mk.inj hout
    rw [List.append_nil]
    refine ⟨⟨fun key' hmem => hs.queued key' (List.mem_cons_of_mem _ hmem), hs.calm,
      fun key' r hr hp => ?_⟩, by simp⟩
    rcases List.mem_cons.1 (hs.waiting key' r hr hp) with rfl | hmem
    · rw [hnone] at hr
      exact absurd hr (by simp)
    · exact hmem
  · obtain ⟨rfl, -⟩ := Prod.mk.inj hout
    rw [List.append_nil]
    exact ⟨(hs.settle hr).1, by simpa using (hs.settle hr).2⟩
  · have hwholes : ∀ w ∈ s.wholesOf key.item, k ≤ rank w.1 := by
      rintro ⟨whole, link, item⟩ hmem
      have hlt := hranks whole key.item (Table.contains_of_get? (mem_wholesOf.1 hmem).1)
      simp only
      omega
    obtain ⟨hdraining, hlength⟩ := (hs.settle hr).1.markWholes hwholes h
    exact ⟨hdraining, Nat.le_trans hlength (hs.settle hr).2⟩

/-- With a turn for everything in the queue and everything that may still join it, the queue is
worked off. -/
theorem Draining.passUpAll (now : Timestamp) (turns : Nat) (hs : Draining rank k queue s)
    (hranks : Ranks rank s)
    (hturns : queue.length + (s.resultsIn .toBePropagated).length ≤ turns)
    (outcome : ResultOutcome) :
    Drains now s queue outcome (s.passUpAll now turns queue outcome) ∧
      Unstalled (s.passUpAll now turns queue outcome) ∧
      ∀ outcome' s', s.passUpAll now turns queue outcome = .ok (outcome', s') →
        Draining rank k [] s' := by
  induction turns generalizing s queue outcome with
  | zero =>
    obtain rfl : queue = [] := List.length_eq_zero_iff.1 (by omega)
    rw [Store.passUpAll]
    refine ⟨.nil s outcome, unstalled_ok _, fun outcome' s' h => ?_⟩
    simp only [Except.ok.injEq, Prod.mk.injEq] at h
    exact h.2 ▸ hs
  | succ turns ih =>
    cases queue with
    | nil =>
      rw [Store.passUpAll]
      · refine ⟨.nil s outcome, unstalled_ok _, fun outcome' s' h => ?_⟩
        simp only [Except.ok.injEq, Prod.mk.injEq] at h
        exact h.2 ▸ hs
      · simp
    | cons key queue =>
      rw [Store.passUpAll]
      cases hpass : s.passUp key now with
      | error fault =>
        have hunstalled := (failsFor_passUp Fault.ofStore_ne_stalled s key now).unstalled
        rw [hpass] at hunstalled
        refine ⟨.fault hpass, fun n h => hunstalled n ?_, fun outcome' s' h => ?_⟩
        · simpa [bind, Except.bind] using h
        · simp [bind, Except.bind] at h
      | ok out =>
        obtain ⟨⟨waiting, created⟩, t⟩ := out
        obtain ⟨hdraining, hlength⟩ := hs.passUp hranks hpass
        have hgrow : s.ResultsGrow t :=
          (resultsGrow_keptBySettling now s).passUp (.refl s) hpass
        rw [List.length_cons] at hturns
        have hall := ih hdraining (hranks.resultsGrow hgrow)
          (by rw [List.length_append]; omega)
          { outcome with
            propagated := outcome.propagated + 1
            created := outcome.created + created }
        exact ⟨.turn hpass hall.1, hall.2.1, hall.2.2⟩

end Queue

end Store

end Courseware
