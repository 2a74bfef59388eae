import Courseware.Proofs.Rounds

/-!
# Following what is still to pass on a change

While results are settled, those that are still to pass on a change wait in a queue, or they are told
from the others by their progress. What the single steps carry along, passing up the first of the
queue and recomputing one result, settling as a whole carries along, and at the end of it nothing
waits (`Carried.settles`). So it is with a property that speaks of what waits
(`Followed.propagateResults`), and with one that only steps about some results need to keep, where
all that waits is among these (`KeptAmong.settles`).
-/

namespace Courseware

namespace Store

variable {s s' t : Store} {now : Timestamp} {key : ResultKey}

/-- The results that are due to pass on a change. -/
def announcing (s : Store) : List ResultKey := (s.resultsIn .toBePropagated).map (·.1)

theorem mem_announcing :
    key ∈ s.announcing ↔ ∃ r, s.results.get? key = some r ∧ r.progress = .toBePropagated := by
  rw [announcing, List.mem_map]
  constructor
  · rintro ⟨⟨k, r⟩, hmem, rfl⟩
    exact ⟨r, mem_resultsIn.1 hmem⟩
  · rintro ⟨r, hr⟩
    exact ⟨(key, r), mem_resultsIn.2 hr, rfl⟩

theorem nodup_resultsIn (s : Store) (progress : Progress) :
    ((s.resultsIn progress).map (·.1)).Nodup :=
  Table.nodup_keys (s.tableIn progress)

/-- What recomputing a stored result that is due keeps, recomputing all that are due keeps. -/
theorem recomputeReady_keeps {P : Store → Prop}
    (hone : ∀ {s s' : Store} {key : ResultKey} {r : Result}, P s → s.results.get? key = some r →
      r.progress = .toBeRecomputed → s.recomputeResult key r = .ok s' → P s')
    {due : List (ResultKey × Result)} (hnodup : (due.map (·.1)).Nodup)
    (hdue : ∀ e ∈ due, s.results.get? e.1 = some e.2 ∧ e.2.progress = .toBeRecomputed) (h : P s)
    {count : Nat} (hok : s.recomputeReady due = .ok (count, s')) : P s' := by
  induction due generalizing s count with
  | nil => exact (recomputeReady_nil_eq_ok hok).2 ▸ h
  | cons e rest ih =>
    obtain ⟨k, old⟩ := e
    obtain ⟨hnew, hrest⟩ := List.nodup_cons.1 hnodup
    obtain ⟨hold, hprogress⟩ := hdue (k, old) List.mem_cons_self
    have hlater : ∀ e ∈ rest, s.results.get? e.1 = some e.2 ∧ e.2.progress = .toBeRecomputed :=
      fun e he => hdue e (List.mem_cons_of_mem _ he)
    rcases recomputeReady_cons_eq_ok hok with ⟨-, hmore⟩ | ⟨-, t, later, hresult, hmore, -⟩
    · exact ih hrest hlater h hmore
    · have ht := hone h hold hprogress hresult
      refine ih hrest (fun e he => ?_) ht hmore
      obtain ⟨hrow, hp⟩ := hlater e he
      obtain ⟨score, -, rfl⟩ := recomputeResult_eq_ok hresult
      refine ⟨?_, hp⟩
      rw [Table.get?_modify, if_neg, hrow]
      rintro rfl
      exact hnew (List.mem_map.2 ⟨e, he, rfl⟩)

/-! ### Carrying a property along -/

/-- What a turn of the queue makes of a property of a store and its queue, and what becomes of it
where a queue has run empty and all that announces a change is to wait next. -/
structure Carried (now : Timestamp) (Q : Store → List ResultKey → Prop) : Prop where
  turn : ∀ {s s' : Store} {first : ResultKey} {queue : List ResultKey}
    {out : List ResultKey × Nat}, Q s (first :: queue) →
    s.passUp first now = .ok (out, s') → Q s' (queue ++ out.1)
  resume : ∀ {s : Store}, Q s [] → Q s s.announcing
  recomputeResult : ∀ {s s' : Store} {key : ResultKey} {r : Result}, Q s s.announcing →
    s.results.get? key = some r → r.progress = .toBeRecomputed →
    s.recomputeResult key r = .ok s' → Q s' s'.announcing

section Carried

variable {Q : Store → List ResultKey → Prop}

theorem Carried.drains (hQ : Carried now Q) {queue : List ResultKey} {outcome : ResultOutcome}
    {out : Except Fault (ResultOutcome × Store)} (hdrains : Drains now s queue outcome out)
    (h : Q s queue) {outcome' : ResultOutcome} (hok : out = .ok (outcome', t)) : Q t [] := by
  induction hdrains with
  | nil =>
    obtain ⟨-, rfl⟩ := Prod.mk.inj (Except.ok.inj hok)
    exact h
  | fault => exact absurd hok (by simp)
  | turn hpass _ ih => exact ih (hQ.turn h hpass) hok

theorem Carried.settles (hQ : Carried now Q) {outcome : ResultOutcome}
    {out : Except Fault (ResultOutcome × Store)} (hsettles : Settles now outcome s out)
    (h : Q s s.announcing) {outcome' : ResultOutcome} (hok : out = .ok (outcome', s')) :
    Q s' [] := by
  induction hsettles with
  | drainFault => exact absurd hok (by simp)
  | recomputeFault => exact absurd hok (by simp)
  | stalled => exact absurd hok (by simp)
  | settled hdrains =>
    obtain ⟨-, rfl⟩ := Prod.mk.inj (Except.ok.inj hok)
    exact hQ.drains hdrains h rfl
  | @round s t u _ _ _ _ hdrains _ hready _ _ ih =>
    have ht : Q t t.announcing := hQ.resume (hQ.drains hdrains h rfl)
    exact ih (recomputeReady_keeps (P := fun s => Q s s.announcing) hQ.recomputeResult
      (nodup_resultsIn t _) (fun _ he => mem_resultsIn.1 he) ht hready) hok

end Carried

/-! ### Staying true of what waits -/

/-- A property of a store and of what waits in it that the single steps of settling keep. -/
structure Followed (now : Timestamp) (Q : Store → List ResultKey → Prop) : Prop where
  mono : ∀ {s : Store} {queue queue' : List ResultKey}, Q s queue →
    (∀ key ∈ queue, key ∈ queue') → Q s queue'
  passUp : ∀ {s s' : Store} {first : ResultKey} {queue : List ResultKey}
    {out : List ResultKey × Nat}, Q s (first :: queue) →
    s.passUp first now = .ok (out, s') → Q s' queue
  recomputeResult : ∀ {s s' : Store} {key : ResultKey} {r : Result}, Q s s.announcing →
    s.results.get? key = some r → r.progress = .toBeRecomputed →
    s.recomputeResult key r = .ok s' → Q s' s'.announcing

section Followed

variable {Q : Store → List ResultKey → Prop}

theorem Followed.carried (hQ : Followed now Q) : Carried now Q where
  turn h hpass := hQ.mono (hQ.passUp h hpass) fun _ hmem => List.mem_append_left _ hmem
  resume h := hQ.mono h fun _ hmem => absurd hmem List.not_mem_nil
  recomputeResult := hQ.recomputeResult

/-- At the end nothing waits. -/
theorem Followed.propagateResults (hQ : Followed now Q)
    (hsettles : Settles now .none s (s.propagateResults now)) (h : Q s s.announcing)
    {outcome : ResultOutcome} (hok : s.propagateResults now = .ok (outcome, s')) : Q s' [] :=
  hQ.carried.settles hsettles h hok

end Followed

/-! ### Staying among some results -/

/-- A property of a store that the single steps of settling keep where they are about some results
only, as all is that waits. -/
structure KeptAmong (now : Timestamp) (among : ResultKey → Prop) (P : Store → Prop) : Prop where
  announcing : ∀ {s : Store} {key : ResultKey}, P s → key ∈ s.announcing → among key
  passUp : ∀ {s s' : Store} {first : ResultKey} {out : List ResultKey × Nat}, P s → among first →
    s.passUp first now = .ok (out, s') → P s' ∧ ∀ key ∈ out.1, among key
  recomputeResult : ∀ {s s' : Store} {key : ResultKey} {r : Result}, P s →
    s.results.get? key = some r → r.progress = .toBeRecomputed →
    s.recomputeResult key r = .ok s' → P s'

section KeptAmong

variable {among : ResultKey → Prop} {P : Store → Prop}

theorem KeptAmong.carried (hP : KeptAmong now among P) :
    Carried now fun s queue => P s ∧ ∀ key ∈ queue, among key where
  turn := by
    rintro s s' first queue out ⟨h, hqueue⟩ hpass
    obtain ⟨hfirst, hrest⟩ := List.forall_mem_cons.1 hqueue
    obtain ⟨hs', hwaiting⟩ := hP.passUp h hfirst hpass
    exact ⟨hs', List.forall_mem_append.2 ⟨hrest, hwaiting⟩⟩
  resume h := ⟨h.1, fun _ hkey => hP.announcing h.1 hkey⟩
  recomputeResult h hr hprogress hok :=
    have hs' := hP.recomputeResult h.1 hr hprogress hok
    ⟨hs', fun _ hkey => hP.announcing hs' hkey⟩

theorem KeptAmong.settles (hP : KeptAmong now among P) {outcome : ResultOutcome}
    {out : Except Fault (ResultOutcome × Store)} (hsettles : Settles now outcome s out) (h : P s)
    {outcome' : ResultOutcome} (hok : out = .ok (outcome', s')) : P s' :=
  (hP.carried.settles hsettles ⟨h, fun _ hkey => hP.announcing h hkey⟩ hok).1

end KeptAmong

end Store

end Courseware
