import Courseware.Proofs.Drain

/-!
# Rounds of settling

Each round of settling gets one level of items further: after `k` rounds everything below level `k`
is settled for good, and nothing on it is due to be recomputed. So there are at most as many rounds
as there are items, and a few more; and a round never gets nowhere, since of the results due to be
recomputed the lowest wait for nothing. `propagateResults` therefore does what its rounds, without a
count of them, say (`Settles`), leaves every result settled and never stalls.
-/

namespace Courseware

namespace Store

variable {s s' t : Store} {now : Timestamp}

/-- What it means to pass up and recompute in rounds until every result is settled. -/
inductive Settles (now : Timestamp) : ResultOutcome → Store →
    Except Fault (ResultOutcome × Store) → Prop where
  | drainFault {s : Store} {outcome : ResultOutcome} {fault : Fault} :
      Drains now s ((s.resultsIn .toBePropagated).map (·.1)) outcome (.error fault) →
      Settles now outcome s (.error fault)
  | settled {s t : Store} {outcome outcome' : ResultOutcome} :
      Drains now s ((s.resultsIn .toBePropagated).map (·.1)) outcome (.ok (outcome', t)) →
      s.resultsIn .toBePropagated = [] → t.resultsIn .toBeRecomputed = [] →
      Settles now outcome s (.ok (outcome', t))
  | recomputeFault {s t : Store} {outcome outcome' : ResultOutcome} {fault : Fault} :
      Drains now s ((s.resultsIn .toBePropagated).map (·.1)) outcome (.ok (outcome', t)) →
      ¬ (s.resultsIn .toBePropagated = [] ∧ t.resultsIn .toBeRecomputed = []) →
      t.recomputeReady (t.resultsIn .toBeRecomputed) = .error fault →
      Settles now outcome s (.error fault)
  | stalled {s t u : Store} {outcome outcome' : ResultOutcome} :
      Drains now s ((s.resultsIn .toBePropagated).map (·.1)) outcome (.ok (outcome', t)) →
      s.resultsIn .toBePropagated = [] → t.resultsIn .toBeRecomputed ≠ [] →
      t.recomputeReady (t.resultsIn .toBeRecomputed) = .ok (0, u) →
      Settles now outcome s (.error (.stalled (t.resultsIn .toBeRecomputed).length))
  | round {s t u : Store} {outcome outcome' : ResultOutcome} {count : Nat}
      {out : Except Fault (ResultOutcome × Store)} :
      Drains now s ((s.resultsIn .toBePropagated).map (·.1)) outcome (.ok (outcome', t)) →
      ¬ (s.resultsIn .toBePropagated = [] ∧ t.resultsIn .toBeRecomputed = []) →
      t.recomputeReady (t.resultsIn .toBeRecomputed) = .ok (count, u) →
      ¬ (s.resultsIn .toBePropagated = [] ∧ count = 0) →
      Settles now { outcome' with recomputed := outcome'.recomputed + count } u out →
      Settles now outcome s out

/-- Every result is settled. -/
def AllDone (s : Store) : Prop :=
  ∀ key r, s.results.get? key = some r → r.progress = .done

theorem AllDone.resultsIn (hs : s.AllDone) {progress : Progress} (hp : progress ≠ .done) :
    s.resultsIn progress = [] := by
  rw [resultsIn_eq_nil]
  intro key r hr heq
  exact hp (heq.symm.trans (hs key r hr))

/-! ### Waiting results -/

section Levels

variable {rank : ItemId → Nat} {k : Nat}

/-- What a result is made of lies further down. -/
theorem isWaiting_eq_false (hranks : Ranks rank s) {key : ResultKey}
    (hbelow : ∀ key' r, s.results.get? key' = some r → rank key'.item < rank key.item →
      r.progress = .done) : s.isWaiting key = false := by
  rw [isWaiting, List.any_eq_false]
  intro source hsource
  obtain ⟨⟨part, link, item⟩, hpart, rfl⟩ := List.mem_map.1 hsource
  rw [Bool.not_eq_true, List.any_eq_false]
  rintro ⟨key', r⟩ hlinked
  obtain ⟨hon, -⟩ := List.mem_filter.1 hlinked
  obtain ⟨hmem, hitem⟩ := List.mem_filter.1 hon
  have hitem : key'.item = part := of_decide_eq_true (Bool.and_eq_true_iff.1 hitem).2
  have hlt := hranks key.item part (Table.contains_of_get? (mem_partsOf.1 hpart).1)
  have hdone := hbelow key' r (Table.mem_toList_iff.1 hmem) (by rw [hitem]; exact hlt)
  rw [Progress.isPending, hdone]
  decide

theorem failsFor_recomputeReady {p : Fault → Prop} (hstore : ∀ fault, p (.ofStore fault)) (s : Store)
    (due : List (ResultKey × Result)) : FailsFor p (s.recomputeReady due) := by
  induction due generalizing s with
  | nil => exact failsFor_ok _
  | cons e rest ih =>
    obtain ⟨key, r⟩ := e
    rw [recomputeReady]
    split
    · exact ih s
    · exact (failsFor_lift hstore _).bind fun _ _ => (ih _).bind fun _ _ => failsFor_ok _

/-- Settling fails for faults of the store, or stalls. -/
theorem failsFor_settleRounds {p : Fault → Prop} (hstore : ∀ fault, p (.ofStore fault))
    (hstalled : ∀ n, p (.stalled n)) (now : Timestamp) (rounds : Nat) (outcome : ResultOutcome)
    (s : Store) : FailsFor p (settleRounds now rounds outcome s) := by
  induction rounds generalizing outcome s with
  | zero => exact failsFor_error (hstalled _)
  | succ rounds ih =>
    rw [settleRounds]
    refine (failsFor_passUpAll hstore _ _ _ _ _).bind fun p _ => ?_
    simp only
    split
    · exact failsFor_ok _
    · refine (failsFor_recomputeReady hstore _ _).bind fun q _ => ?_
      split
      · exact failsFor_error (hstalled _)
      · exact ih _ _

theorem failsFor_settlePairs {p : Fault → Prop} (hstore : ∀ fault, p (.ofStore fault))
    (hstalled : ∀ n, p (.stalled n)) (s : Store) (pairs : List Pair) (now : Timestamp) :
    FailsFor p (s.settlePairs pairs now) :=
  (failsFor_settleRounds hstore hstalled now _ _ _).bind fun _ _ => failsFor_ok _

/-- If something that is due waits for nothing, something is recomputed. -/
theorem recomputeReady_pos {due : List (ResultKey × Result)} {count : Nat}
    (hready : ∃ e ∈ due, s.isWaiting e.1 = false)
    (h : s.recomputeReady due = .ok (count, s')) : 0 < count := by
  induction due with
  | nil => exact absurd hready (by simp)
  | cons e rest ih =>
    obtain ⟨key, r⟩ := e
    rcases recomputeReady_cons_eq_ok h with ⟨hwaiting, hrest⟩ | ⟨-, t, later, -, -, rfl⟩
    · obtain ⟨e', hmem, hno⟩ := hready
      rcases List.mem_cons.1 hmem with rfl | hmem
      · rw [hwaiting] at hno
        exact absurd hno (by simp)
      · exact ih ⟨e', hmem, hno⟩ hrest
    · omega

/-- Of some results on ranked items there is a lowest. -/
theorem exists_lowest (rank : ItemId → Nat) {due : List (ResultKey × Result)} (h : due ≠ []) :
    ∃ e ∈ due, ∀ e' ∈ due, rank e.1.item ≤ rank e'.1.item := by
  induction due with
  | nil => exact absurd rfl h
  | cons e rest ih =>
    by_cases hrest : rest = []
    · subst hrest
      exact ⟨e, List.mem_cons_self, fun e' he' => Nat.le_of_eq (by rw [List.mem_singleton.1 he'])⟩
    · obtain ⟨m, hm, hmin⟩ := ih hrest
      by_cases hle : rank e.1.item ≤ rank m.1.item
      · refine ⟨e, List.mem_cons_self, fun e' he' => ?_⟩
        rcases List.mem_cons.1 he' with rfl | he'
        · exact Nat.le_refl _
        · exact Nat.le_trans hle (hmin e' he')
      · refine ⟨m, List.mem_cons_of_mem _ hm, fun e' he' => ?_⟩
        rcases List.mem_cons.1 he' with rfl | he'
        · omega
        · exact hmin e' he'

/-! ### One round -/

/-- Below level `k` all is settled, and nothing on it is due to be recomputed. Levels count from 1. -/
structure Advanced (rank : ItemId → Nat) (k : Nat) (s : Store) : Prop where
  done : ∀ key r, s.results.get? key = some r → rank key.item + 1 < k → r.progress = .done
  calm : ∀ key r, s.results.get? key = some r → rank key.item + 1 = k →
    r.progress ≠ .toBeRecomputed

theorem advanced_zero (rank : ItemId → Nat) (s : Store) : Advanced rank 0 s :=
  ⟨fun _ _ _ h => absurd h (by omega), fun _ _ _ h => absurd h (by omega)⟩

theorem progress_cases {p : Progress} (h₁ : p ≠ .toBePropagated) (h₂ : p ≠ .toBeRecomputed) :
    p = .done := by
  cases p with
  | done => rfl
  | toBePropagated => exact absurd rfl h₁
  | toBeRecomputed => exact absurd rfl h₂

theorem Advanced.draining (hs : Advanced rank k s) :
    Draining rank k ((s.resultsIn .toBePropagated).map (·.1)) s := by
  constructor
  · intro key hmem
    obtain ⟨⟨key', r⟩, hin, rfl⟩ := List.mem_map.1 hmem
    obtain ⟨hr, hp⟩ := mem_resultsIn.1 hin
    refine Nat.not_lt.1 fun hlt => ?_
    rw [hs.done key' r hr hlt] at hp
    exact absurd hp (by decide)
  · intro key r hr hle
    rcases Nat.lt_or_eq_of_le hle with hlt | heq
    · rw [hs.done key r hr hlt]
      decide
    · exact hs.calm key r hr heq
  · intro key r hr hp
    exact List.mem_map.2 ⟨(key, r), mem_resultsIn.2 ⟨hr, hp⟩, rfl⟩

theorem Draining.not_toBePropagated (hs : Draining rank k [] s) {key : ResultKey} {r : Result}
    (hr : s.results.get? key = some r) : r.progress ≠ .toBePropagated :=
  fun hp => absurd (hs.waiting key r hr hp) List.not_mem_nil

theorem Draining.done (hs : Draining rank k [] s) {key : ResultKey} {r : Result}
    (hr : s.results.get? key = some r) (hlow : rank key.item + 1 ≤ k) : r.progress = .done :=
  progress_cases (hs.not_toBePropagated hr) (hs.calm key r hr hlow)

/-- While what is due is recomputed: up to level `k` all is settled, nothing up to there is due, and
what is due on the next level is still to come. -/
structure Recomputing (rank : ItemId → Nat) (k : Nat) (due : List (ResultKey × Result))
    (s : Store) : Prop where
  done : ∀ key r, s.results.get? key = some r → rank key.item + 1 ≤ k → r.progress = .done
  due_above : ∀ e ∈ due, k ≤ rank e.1.item
  left : ∀ key r, s.results.get? key = some r → rank key.item = k →
    r.progress = .toBeRecomputed → ∃ r', (key, r') ∈ due

theorem Draining.recomputing (hs : Draining rank k [] s) :
    Recomputing rank k (s.resultsIn .toBeRecomputed) s := by
  refine ⟨fun key r hr hlow => hs.done hr hlow, ?_, fun key r hr _ hp =>
    ⟨r, mem_resultsIn.2 ⟨hr, hp⟩⟩⟩
  rintro ⟨key, r⟩ hmem
  obtain ⟨hr, hp⟩ := mem_resultsIn.1 hmem
  refine Nat.not_lt.1 fun hlt => ?_
  rw [hs.done hr hlt] at hp
  exact absurd hp (by decide)

theorem Recomputing.recomputeReady {due : List (ResultKey × Result)}
    (hs : Recomputing rank k due s) (hranks : Ranks rank s) {count : Nat}
    (h : s.recomputeReady due = .ok (count, s')) : Recomputing rank k [] s' := by
  induction due generalizing s count with
  | nil => exact (recomputeReady_nil_eq_ok h).2 ▸ hs
  | cons e rest ih =>
    obtain ⟨key, r⟩ := e
    have habove : ∀ e ∈ rest, k ≤ rank e.1.item := fun e he =>
      hs.due_above e (List.mem_cons_of_mem _ he)
    have hkey : k ≤ rank key.item := hs.due_above (key, r) List.mem_cons_self
    rcases recomputeReady_cons_eq_ok h with ⟨hwaiting, hrest⟩ | ⟨-, t, later, hone, hrest, -⟩
    · refine ih ⟨hs.done, habove, fun key' r' hr' hrank hp => ?_⟩ hranks hrest
      obtain ⟨old, hmem⟩ := hs.left key' r' hr' hrank hp
      rcases List.mem_cons.1 hmem with heq | hmem
      · -- On the next level nothing waits, since all below is settled.
        obtain ⟨rfl, -⟩ := Prod.mk.inj heq
        have hready : s.isWaiting key' = false := isWaiting_eq_false hranks fun key'' r'' hr'' hlt =>
          hs.done key'' r'' hr'' (by omega)
        rw [hready] at hwaiting
        exact absurd hwaiting (by simp)
      · exact ⟨old, hmem⟩
    · refine ih ?_ (hranks.resultsGrow (resultsGrow_recomputeResult hone)) hrest
      obtain ⟨score, -, rfl⟩ := recomputeResult_eq_ok hone
      refine ⟨fun key' r' hr' hlow => ?_, habove, fun key' r' hr' hrank hp => ?_⟩
      · rw [Table.get?_modify] at hr'
        split at hr'
        · rename_i heq
          rw [← heq] at hlow
          omega
        · exact hs.done key' r' hr' hlow
      · rw [Table.get?_modify] at hr'
        split at hr'
        · obtain ⟨old, -, rfl⟩ := Option.map_eq_some_iff.1 hr'
          simp only at hp
          split at hp <;> simp at hp
        · rename_i hne
          obtain ⟨old, hmem⟩ := hs.left key' r' hr' hrank hp
          rcases List.mem_cons.1 hmem with heq | hmem
          · exact absurd (Prod.mk.inj heq).1.symm hne
          · exact ⟨old, hmem⟩

theorem Recomputing.advanced (hs : Recomputing rank k [] s) : Advanced rank (k + 1) s := by
  refine ⟨fun key r hr hlow => hs.done key r hr (by omega), fun key r hr hrank hp => ?_⟩
  obtain ⟨old, hmem⟩ := hs.left key r hr (by omega) hp
  exact absurd hmem List.not_mem_nil

/-! ### All rounds -/

theorem passUpAll_nil (s : Store) (now : Timestamp) (turns : Nat) (outcome : ResultOutcome) :
    s.passUpAll now turns [] outcome = .ok (outcome, s) := by
  cases turns with
  | zero => rw [passUpAll]
  | succ turns =>
    rw [passUpAll]
    simp

/-- With a round for every level, settling ends, and not because it got nowhere. -/
theorem Advanced.settleRounds (rounds : Nat) {bound : Nat} (hbound : ∀ item, rank item ≤ bound)
    (hs : Advanced rank k s) (hranks : Ranks rank s) (hk : k ≤ bound + 2)
    (hrounds : bound + 3 ≤ rounds + k) (outcome : ResultOutcome) :
    Settles now outcome s (settleRounds now rounds outcome s) ∧
      Unstalled (settleRounds now rounds outcome s) ∧
      ∀ outcome' s', settleRounds now rounds outcome s = .ok (outcome', s') → s'.AllDone := by
  induction rounds generalizing s k outcome with
  | zero => omega
  | succ rounds ih =>
    have hqueue : ((s.resultsIn .toBePropagated).map (·.1)).length +
        (s.resultsIn .toBePropagated).length ≤ 2 * s.results.size + 1 := by
      have hle := length_resultsIn_le s .toBePropagated
      rw [List.length_map]
      omega
    obtain ⟨hdrains, hunstalled, hdrained⟩ := hs.draining.passUpAll now _ hranks hqueue outcome
    rw [Store.settleRounds]
    simp only
    cases hpass : s.passUpAll now (2 * s.results.size + 1)
        ((s.resultsIn .toBePropagated).map (·.1)) outcome with
    | error fault =>
      rw [hpass] at hdrains hunstalled
      refine ⟨.drainFault hdrains, fun n h => hunstalled n ?_, fun outcome' s' h => ?_⟩
      · simpa [bind, Except.bind] using h
      · simp [bind, Except.bind] at h
    | ok out =>
      obtain ⟨outcome', t⟩ := out
      rw [hpass] at hdrains
      have ht := hdrained outcome' t hpass
      simp only [bind, Except.bind]
      by_cases hopen : s.resultsIn .toBePropagated = [] ∧ t.resultsIn .toBeRecomputed = []
      · rw [if_pos (by simp [hopen.1, hopen.2])]
        refine ⟨.settled hdrains hopen.1 hopen.2, unstalled_ok _, fun outcome'' s' h => ?_⟩
        simp only [pure, Except.pure, Except.ok.injEq, Prod.mk.injEq] at h
        obtain ⟨-, rfl⟩ := h
        exact fun key r hr => progress_cases (ht.not_toBePropagated hr)
          (resultsIn_eq_nil.1 hopen.2 key r hr)
      · rw [if_neg (by simpa using hopen)]
        cases hready : t.recomputeReady (t.resultsIn .toBeRecomputed) with
        | error fault =>
          have hunstalled :=
            (failsFor_recomputeReady Fault.ofStore_ne_stalled t (t.resultsIn .toBeRecomputed)).unstalled
          rw [hready] at hunstalled
          exact ⟨.recomputeFault hdrains hopen hready, fun n h => hunstalled n (by simpa using h),
            fun outcome'' s' h => by simp at h⟩
        | ok out' =>
          obtain ⟨count, u⟩ := out'
          have hgrow : s.ResultsGrow t :=
            (resultsGrow_keptBySettling now s).passUpAll _ (.refl s) hpass
          have hranks' := hranks.resultsGrow hgrow
          have hprogress : ¬ (s.resultsIn .toBePropagated = [] ∧ count = 0) := by
            rintro ⟨hchanged, rfl⟩
            obtain ⟨⟨key, r⟩, hmem, hmin⟩ := exists_lowest rank (fun h => hopen ⟨hchanged, h⟩)
            refine absurd (recomputeReady_pos ⟨(key, r), hmem, ?_⟩ hready) (by omega)
            refine isWaiting_eq_false hranks' fun key' r' hr' hlt => ?_
            refine progress_cases (ht.not_toBePropagated hr') fun hp => ?_
            exact Nat.not_le.2 hlt (hmin _ (mem_resultsIn.2 ⟨hr', hp⟩))
          have hlevel : k ≠ bound + 2 := by
            rintro rfl
            have hall : s.AllDone := fun key r hr =>
              hs.done key r hr (by have := hbound key.item; omega)
            have hnone : s.resultsIn .toBePropagated = [] := hall.resultsIn (by decide)
            rw [hnone, List.map_nil, passUpAll_nil] at hpass
            obtain rfl : s = t := (Prod.mk.inj (Except.ok.inj hpass)).2
            exact hopen ⟨hnone, hall.resultsIn (by decide)⟩
          simp only [if_neg (show ¬ ((s.resultsIn .toBePropagated).isEmpty && decide (count = 0)) = true by
            simpa using hprogress)]
          have hnext := (ht.recomputing.recomputeReady hranks' hready).advanced
          have hranks'' := hranks'.resultsGrow
            ((resultsGrow_keptBySettling now t).recomputeReady (.refl t) hready)
          obtain ⟨h₁, h₂, h₃⟩ := ih hnext hranks'' (by omega) (by omega)
            { outcome' with recomputed := outcome'.recomputed + count }
          exact ⟨.round hdrains hopen hready hprogress h₁, h₂, h₃⟩

end Levels

end Store

end Courseware
