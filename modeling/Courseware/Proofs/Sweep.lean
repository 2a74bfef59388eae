import Courseware.Proofs.Ancestry
import Courseware.Proofs.Settled
import Courseware.Proofs.Upkeep

/-!
# The sweep

A sweep looks at rows again of which a tier came into effect since they were last looked at, and
recomputes pairs that lost an ancestor since. If rows were sound before, there is none of either
kind left afterwards (`RowCurrent`), so everything is what it would be if it were worked out from
nothing (`sweep_run`).
-/

namespace Courseware

namespace Store

variable {s s' t : Store} {q : Pair} {now : Timestamp}

/-! ### What a sweep looks for -/

theorem mem_pairsWithActivation :
    q ∈ s.pairsWithActivation now ↔
      ∃ row, s.generated.get? q = some row ∧
        ∃ e ∈ row.tiers.toList, ∃ date, e.2.since = .date date ∧
          row.computedAt < date ∧ date ≤ now := by
  rw [pairsWithActivation, Table.mem_keys, Table.contains_filter_iff]
  refine exists_congr fun row => and_congr_right fun _ => ?_
  rw [List.any_eq_true]
  refine exists_congr fun e => and_congr_right fun _ => ?_
  cases e.2.since with
  | always => simp
  | date date => simp

theorem mem_pairsWithExpiredAncestor :
    q ∈ s.pairsWithExpiredAncestor now ↔
      ∃ row, s.generated.get? q = some row ∧
        ∃ a record date, s.ancestors.get? (a, q.1) = some record ∧ record.expiry = .date date ∧
          row.computedAt < date ∧ date ≤ now := by
  rw [pairsWithExpiredAncestor, Table.mem_keys, Table.contains_filter_iff]
  refine exists_congr fun row => and_congr_right fun _ => ?_
  rw [Table.any_iff]
  constructor
  · rintro ⟨⟨a, d⟩, record, hrecord, hended⟩
    cases hexpiry : record.expiry with
    | never => simp [hexpiry] at hended
    | date date =>
      simp only [hexpiry, Bool.and_eq_true, decide_eq_true_eq] at hended
      obtain ⟨rfl, hended⟩ := hended
      exact ⟨a, record, date, hrecord, hexpiry, hended⟩
  · rintro ⟨a, record, date, hrecord, hexpiry, hended⟩
    refine ⟨(a, q.1), record, hrecord, ?_⟩
    rw [hexpiry]
    simp [hended]

/-- A tier in effect now was in effect before, unless it came into effect since. -/
theorem levels_eq_of_no_activation {tiers : Tiers} {since : Timestamp} (hle : since ≤ now)
    (h : ∀ e ∈ tiers.toList, ∀ date, e.2.since = .date date → ¬ (since < date ∧ date ≤ now)) :
    Levels.ofTiers tiers now = Levels.ofTiers tiers since := by
  have hactive : ∀ c, ∀ tier ∈ tiers.get c, tier.isActive now = tier.isActive since := by
    intro c tier htier
    have hmem : (c, tier) ∈ tiers.toList := by
      refine List.mem_flatMap.2 ⟨c, ?_, List.mem_map.2 ⟨tier, htier, rfl⟩⟩
      cases c <;> decide
    rw [Tier.isActive, Tier.isActive]
    cases hsince : tier.since with
    | always => rfl
    | date date =>
      refine Bool.eq_iff_iff.2 ⟨fun hbegun => ?_, Activation.isActive_of_le hle⟩
      have hno : ¬ since < date := fun hlt =>
        h _ hmem date hsince ⟨hlt, of_decide_eq_true hbegun⟩
      exact decide_eq_true (not_lt.1 hno)
  have hlevel : ∀ c, tiers.levelAt c now = tiers.levelAt c since := fun c => by
    rw [Tiers.levelAt, Tiers.levelAt, Tier.levelAt, Tier.levelAt, List.filter_congr (hactive c)]
  simp only [Levels.ofTiers, hlevel]

/-- The row is sound, and nothing has come into effect or ended since it was last looked at. -/
structure RowCurrent (s : Store) (now : Timestamp) (q : Pair) : Prop extends
    RowSound s now q where
  activated : q ∉ s.pairsWithActivation now
  ended : q ∉ s.pairsWithExpiredAncestor now

/-- If nothing has ended since the row was last looked at, what it tells still holds. -/
theorem RowSound.dueTiers_eq (h : s.RowSound now q) (hended : q ∉ s.pairsWithExpiredAncestor now)
    {row : Generated} (hrow : s.generated.get? q = some row) :
    s.dueTiers q row.computedAt = s.dueTiers q now := by
  refine dueTiers_eq_of_no_end (h.computedAt row hrow) fun a record hrecord hpast => ?_
  cases hexpiry : record.expiry with
  | never => simp [hexpiry, Expiry.isPast] at hpast
  | date date =>
    rw [hexpiry, Expiry.isPast, decide_eq_true_eq] at hpast
    by_contra hlater
    rw [Expiry.isPast, decide_eq_true_eq, not_le] at hlater
    exact hended (mem_pairsWithExpiredAncestor.2
      ⟨row, hrow, a, record, date, hrecord, hexpiry, hlater, hpast⟩)

theorem RowCurrent.pairExact (h : s.RowCurrent now q) : s.PairExact now q := by
  cases hrow : s.generated.get? q with
  | none =>
    have hdue := h.bare hrow
    exact (fresh_of_none hrow hdue).pairExact
  | some row =>
    have htiers := h.tiers row hrow
    rw [h.dueTiers_eq h.ended hrow] at htiers
    refine ⟨by rw [tiersOf_of_get? hrow, htiers], ?_⟩
    have hfilled := h.filled row hrow
    rw [← htiers, ne_eq, ← Tiers.isEmpty_iff, hfilled, Table.contains_of_get? hrow]
    simp

theorem RowCurrent.levels_eq (h : s.RowCurrent now q) {row : Generated}
    (hrow : s.generated.get? q = some row) : row.levels = .ofTiers row.tiers now := by
  rw [h.levels row hrow, levels_eq_of_no_activation (h.computedAt row hrow)]
  rintro e he date hsince hnow
  exact h.activated (mem_pairsWithActivation.2 ⟨row, hrow, e, he, date, hsince, hnow⟩)

theorem RowCurrent.congr (h : s.RowCurrent now q)
    (hrow : t.generated.get? q = s.generated.get? q)
    (hdue : ∀ later, t.dueTiers q later = s.dueTiers q later)
    (hancestors : t.ancestors = s.ancestors) : t.RowCurrent now q := by
  refine ⟨h.toRowSound.congr hrow hdue, ?_, ?_⟩
  · rw [mem_pairsWithActivation, hrow, ← mem_pairsWithActivation]
    exact h.activated
  · rw [mem_pairsWithExpiredAncestor, hrow, hancestors, ← mem_pairsWithExpiredAncestor]
    exact h.ended

/-- Nothing has happened since now. -/
theorem rowCurrent_of_computedAt (h : s.RowSound now q)
    (hnow : ∀ row, s.generated.get? q = some row → row.computedAt = now) :
    s.RowCurrent now q := by
  refine ⟨h, fun hmem => ?_, fun hmem => ?_⟩
  · obtain ⟨row, hrow, _, -, date, -, hlt, hle⟩ := mem_pairsWithActivation.1 hmem
    exact hle.not_gt (hnow row hrow ▸ hlt)
  · obtain ⟨row, hrow, _, _, date, -, -, hlt, hle⟩ := mem_pairsWithExpiredAncestor.1 hmem
    exact hle.not_gt (hnow row hrow ▸ hlt)

theorem Fresh.rowCurrent (h : s.Fresh now q) : s.RowCurrent now q := by
  refine rowCurrent_of_computedAt h.rowSound fun row hrow => ?_
  rw [Fresh, hrow, freshRow] at h
  split at h
  · simp at h
  · rw [Option.some.inj h]

theorem pairLaw_rowCurrent (now : Timestamp) : PairLaw now fun s q => s.RowCurrent now q :=
  .of_fresh (fun _ _ h => h.rowCurrent) fun _ _ _ hrow hdue hancestors h =>
    h.congr hrow hdue hancestors

/-! ### Looking at rows again -/

theorem get?_refreshAll (s : Store) (now : Timestamp) (pairs : List Pair) (q : Pair) :
    (s.refreshAll now pairs).2.generated.get? q =
      if q ∈ pairs then (s.generated.get? q).map fun g => ⟨.ofTiers g.tiers now, g.tiers, now⟩
      else s.generated.get? q := by
  induction pairs generalizing s with
  | nil => rfl
  | cons pair rest ih =>
    rw [refreshAll]
    refine (ih (s.refresh pair now)).trans ?_
    rw [get?_refresh]
    by_cases hq : q = pair
    · subst hq
      by_cases hrest : q ∈ rest
      · simp [hrest, Option.map_map, Function.comp_def]
      · simp [hrest]
    · simp [hq]

theorem tiersOf_refreshAll (s : Store) (now : Timestamp) (pairs : List Pair) (q : Pair) :
    (s.refreshAll now pairs).2.tiersOf q = s.tiersOf q := by
  rw [tiersOf, get?_refreshAll]
  split
  · rw [Option.map_map, tiersOf]
    rfl
  · rfl

theorem dueTiers_refreshAll (s : Store) (now : Timestamp) (pairs : List Pair) (q : Pair)
    (later : Timestamp) :
    (s.refreshAll now pairs).2.dueTiers q later = s.dueTiers q later := by
  obtain ⟨gen, hgen⟩ := refreshAll_frame s now pairs
  refine dueTiers_congr (fun c tier => granted_congr ?_ fun k _ => ?_) fun c tier =>
    inherited_congr ?_ (fun _ _ => ?_) fun whole _ => tiersOf_refreshAll s now pairs _
  all_goals rw [hgen]

theorem Layered.refreshAll (h : s.Layered) (now : Timestamp) (pairs : List Pair) :
    (s.refreshAll now pairs).2.Layered := by
  obtain ⟨gen, hgen⟩ := refreshAll_frame s now pairs
  rw [hgen]
  exact h.congr rfl rfl

/-- After the first pass of a sweep, every row is up to date that is not recomputed by the second. -/
theorem Sound.rowCurrent_refreshAll (h : s.Sound now) (hended : q ∉ s.pairsWithExpiredAncestor now) :
    (s.refreshAll now (s.pairsWithActivation now)).2.RowCurrent now q := by
  have hdue := dueTiers_refreshAll s now (s.pairsWithActivation now) q
  have hget := get?_refreshAll s now (s.pairsWithActivation now) q
  obtain ⟨gen, hgen⟩ := refreshAll_frame s now (s.pairsWithActivation now)
  by_cases hmem : q ∈ s.pairsWithActivation now
  · obtain ⟨row, hrow, -⟩ := mem_pairsWithActivation.1 hmem
    have htiers := (h q).tiers row hrow
    have hfilled := (h q).filled row hrow
    rw [(h q).dueTiers_eq hended hrow, ← hdue] at htiers
    rw [if_pos hmem, hrow, Option.map_some, htiers] at hget
    refine Fresh.rowCurrent (hget.trans ?_)
    rw [freshRow, if_neg (by rw [← htiers, hfilled]; simp)]
  · rw [if_neg hmem] at hget
    refine RowCurrent.congr ⟨h q, hmem, hended⟩ hget hdue ?_
    rw [hgen]

theorem Sound.rowCurrent_sweepPermissions (h : s.Sound now) (hlayered : s.Layered) (q : Pair) :
    (s.sweepPermissions now).2.RowCurrent now q := by
  refine (pairLaw_rowCurrent now).propagate (hlayered.refreshAll now _) (h.rowsFilled.refreshAll now _)
    (fun p => ?_) q
  by_cases hended : p ∈ s.pairsWithExpiredAncestor now
  · exact Or.inl hended
  · exact Or.inr (h.rowCurrent_refreshAll hended)

theorem Sound.rowCurrent_sweep (h : s.Sound now) (hlayered : s.Layered)
    {outcome : PermissionOutcome} (hsweep : s.sweep now = .ok (outcome, s')) (q : Pair) :
    s'.RowCurrent now q := by
  obtain ⟨-, results, hvisible⟩ := sweep_eq_ok hsweep
  obtain ⟨rs, rfl⟩ := (resultsGrow_settleVisible hvisible).frame
  exact (h.rowCurrent_sweepPermissions hlayered q).congr rfl (fun _ => rfl) rfl

/-! ### Nothing to settle -/

theorem propagateResults_of_allDone (h : s.AllDone) (now : Timestamp) :
    s.propagateResults now = .ok (.none, s) := by
  obtain ⟨rounds, hrounds⟩ : ∃ rounds, s.roundLimit = rounds + 1 :=
    ⟨s.roundLimit - 1, by rw [roundLimit]; omega⟩
  have hchanged : s.resultsIn .toBePropagated = [] := h.resultsIn (by simp)
  have hdue : s.resultsIn .toBeRecomputed = [] := h.resultsIn (by simp)
  rw [propagateResults, hrounds, settleRounds, hchanged]
  simp only [List.map_nil, passUpAll, bind, Except.bind, hdue, List.isEmpty_nil, Bool.and_self,
    if_true, pure, Except.pure]

theorem propagatePermissions_nil (s : Store) (now : Timestamp) :
    s.propagatePermissions (.ofKeys []) now = (.none, s) := by
  obtain ⟨passes, hpasses⟩ : ∃ passes, s.passLimit (.ofKeys []) = passes + 1 :=
    ⟨s.passLimit (.ofKeys []) - 1, by have := s.size_lt_passLimit (.ofKeys []); omega⟩
  rw [propagatePermissions, hpasses]
  rfl

/-- Where no ancestor changed and all results are settled, there is nothing to settle. -/
theorem settleClosure_of_allDone (h : s.AllDone) (now : Timestamp) :
    s.settleClosure .none now = .ok s := by
  have hvisible : s.settleVisible .none now = .ok (.none, s) := propagateResults_of_allDone h now
  have hpairs : s.pairsForClosure .none now = [] := by
    refine List.append_eq_nil_iff.2 ⟨List.filter_eq_nil_iff.2 fun q _ => ?_, rfl⟩
    exact fun hq => absurd (of_decide_eq_true hq) List.not_mem_nil
  rw [settleClosure, hpairs, settlePairs, propagatePermissions_nil]
  simp only [hvisible, bind, Except.bind, pure, Except.pure]

/-- Where everything is current there is nothing to sweep. -/
theorem sweep_of_rowCurrent (h : ∀ q, s.RowCurrent now q) (hdone : s.AllDone) :
    s.sweep now = .ok (.none, s) := by
  have hactivated : s.pairsWithActivation now = [] :=
    List.eq_nil_iff_forall_not_mem.2 fun q => (h q).activated
  have hended : s.pairsWithExpiredAncestor now = [] :=
    List.eq_nil_iff_forall_not_mem.2 fun q => (h q).ended
  have hpermissions : s.sweepPermissions now = (.none, s) := by
    rw [sweepPermissions, hactivated, hended]
    simp only [refreshAll, propagatePermissions_nil]
    rfl
  have hvisible : s.settleVisible .none now = .ok (.none, s) :=
    propagateResults_of_allDone hdone now
  rw [sweep, hpermissions]
  simp only [hvisible, bind, Except.bind, pure, Except.pure]

/-! ### Rows in the course of a run -/

theorem Sound.call (h : s.Sound now) (hcoherent : s.Coherent) {policy : RetryPolicy} {call : Call}
    {ids : IdSource} {reply : Reply}
    (hrun : (Call.run policy now call ids s).1 = .ok (reply, s'))
    (hkept : ∀ deletion, reply = .deletion deletion → deletion.deletedGroups = []) :
    s'.Sound now :=
  (dueLaw_rowSound now).call h hcoherent
    (fun _ hsweep q => (h.rowCurrent_sweep hcoherent.toLayered hsweep q).toRowSound) hrun hkept

/-! ### Working out everything from nothing -/

def allPairs (s : Store) : List Pair :=
  s.groups.keys.flatMap fun group => s.items.keys.map fun item => (group, item)

theorem mem_allPairs :
    q ∈ s.allPairs ↔ s.groups.contains q.1 = true ∧ s.items.contains q.2 = true := by
  simp only [allPairs, List.mem_flatMap, List.mem_map, Table.mem_keys]
  constructor
  · rintro ⟨group, hgroup, item, hitem, rfl⟩
    exact ⟨hgroup, hitem⟩
  · rintro ⟨hgroup, hitem⟩
    exact ⟨q.1, hgroup, q.2, hitem, rfl⟩

/-- The store with what is worked out thrown away and worked out again for all pairs. -/
def fromScratch (s : Store) (now : Timestamp) : Store :=
  ({ s with generated := ∅ }.propagatePermissions (.ofKeys s.allPairs) now).2

/-- Only stored groups are granted anything, and only on stored items. -/
theorem Granted.stored (hcoherent : s.Coherent) (hwalks : s.RecordsWalks) {c : Component}
    {tier : Tier} (h : s.Granted q now c tier) : q ∈ s.allPairs := by
  obtain ⟨k, grant, hget, hitem, hancestor, -⟩ := h
  obtain ⟨hgroup, hstored⟩ := hcoherent.grants k (Table.contains_of_get? hget)
  obtain ⟨record, hrecord, -⟩ := isAncestorAt_iff.1 hancestor
  obtain ⟨-, e, hwalk⟩ := (hwalks.contains_iff k.1 q.1).1 (Table.contains_of_get? hrecord)
  rw [mem_allPairs, ← hitem]
  exact ⟨hcoherent.contains_of_walk hwalk hgroup, hstored⟩

theorem fresh_fromScratch (hcoherent : s.Coherent) (hwalks : s.RecordsWalks) (now : Timestamp)
    (q : Pair) : (s.fromScratch now).Fresh now q := by
  have hlaw : PairLaw now fun s q => s.Fresh now q :=
    .of_fresh (fun _ _ h => h) fun _ _ _ hrow hdue _ h => by
      rw [Fresh, hrow, hdue]
      exact h
  refine hlaw.propagate (hcoherent.setGenerated ∅).toLayered (fun p g hg => ?_) (fun p => ?_) q
  · simp at hg
  · by_cases hmem : p ∈ s.allPairs
    · exact Or.inl hmem
    · refine Or.inr (fresh_of_none rfl (dueTiers_eq_empty.2 fun c tier => ⟨fun hgranted => ?_, ?_⟩))
      · exact hmem (Granted.stored (s := s) hcoherent hwalks hgranted)
      · rintro ⟨whole, link, item, -, -, -, htier⟩
        rw [tiersOf_of_none rfl, get_inherit_empty] at htier
        exact absurd htier List.not_mem_nil

/-- What every pair has is exactly what it is due now, the levels are those in effect now, and both
are what comes of working out everything from nothing. -/
structure UpToDate (s : Store) (now : Timestamp) : Prop where
  exact : ∀ q, s.PairExact now q
  levels : ∀ q row, s.generated.get? q = some row → row.levels = .ofTiers row.tiers now
  scratch : ∀ q, (s.generated.get? q).map (fun row => (row.tiers, row.levels)) =
    ((s.fromScratch now).generated.get? q).map fun row => (row.tiers, row.levels)

theorem RowCurrent.content (h : s.RowCurrent now q) :
    (s.generated.get? q).map (fun row => (row.tiers, row.levels)) =
      if (s.tiersOf q).isEmpty then none
      else some (s.tiersOf q, .ofTiers (s.tiersOf q) now) := by
  cases hrow : s.generated.get? q with
  | none => rw [tiersOf_of_none hrow, if_pos (Tiers.isEmpty_iff.2 rfl)]; rfl
  | some row =>
    rw [tiersOf_of_get? hrow, if_neg (by rw [h.filled row hrow]; simp), ← h.levels_eq hrow]
    rfl

theorem upToDate_of_rowCurrent (hcoherent : s.Coherent) (hwalks : s.RecordsWalks)
    (h : ∀ q, s.RowCurrent now q) : s.UpToDate now := by
  refine ⟨fun q => (h q).pairExact, fun q row hrow => (h q).levels_eq hrow, fun q => ?_⟩
  have hfresh := fresh_fromScratch hcoherent hwalks now
  obtain ⟨gen, hgen⟩ := propagatePermissions_frame { s with generated := ∅ } (.ofKeys s.allPairs)
    now
  have htiers : (s.fromScratch now).tiersOf q = s.tiersOf q := by
    refine tiersOf_unique hcoherent.toLayered ?_ ?_ ?_ ?_
      (fun item => (h (q.1, item)).pairExact.tiers) (fun item => (hfresh (q.1, item)).pairExact.tiers)
      q.2
    all_goals rw [fromScratch, hgen]
  rw [(h q).content, (hfresh q).rowCurrent.content, htiers]

end Store

namespace Session

open Store

/-- Whether a step deletes groups along with a relation. -/
def deletesGroups (s : Session) : Step → Bool
  | .call call =>
    match (s.perform call).1 with
    | .ok (.deletion deletion) => !deletion.deletedGroups.isEmpty
    | _ => false
  | _ => false

/-- A step that does not move the clock back and deletes no group. -/
def Steady (s : Session) (step : Step) : Prop :=
  s.clock ≤ (s.step step).clock ∧ s.deletesGroups step = false

instance (s : Session) (step : Step) : Decidable (s.Steady step) :=
  inferInstanceAs (Decidable (_ ∧ _))

theorem sound_step {s : Session} {step : Step} (hs : s.Idle) (hcoherent : s.committed.Coherent)
    (h : s.committed.Sound s.clock) (hsteady : s.Steady step) :
    (s.step step).committed.Sound (s.step step).clock := by
  obtain ⟨hforward, hkept⟩ := hsteady
  rcases committed_step hs step with heq | ⟨call, reply, rfl, hrun⟩
  · rw [heq]
    exact fun q => (h q).mono hforward
  · rw [clock_step_call hs]
    refine h.call hcoherent hrun fun deletion hreply => ?_
    subst hreply
    rw [deletesGroups, (perform_of_outcome hs hrun).1] at hkept
    simpa using hkept

theorem sound_run (ids : IdSource) (clock : Timestamp) (policy : RetryPolicy) {steps : List Step}
    (hsteady : (start ids clock policy).Along Steady steps) :
    ((start ids clock policy).run steps).committed.Sound
      ((start ids clock policy).run steps).clock := by
  refine (run_induction (I := fun s => s.committed.Coherent ∧ s.committed.Sound s.clock) ?_
    (idle_start ids clock policy) ⟨coherent_empty, sound_empty clock⟩ hsteady).2
  rintro s step hs ⟨hcoherent, h⟩ hstep
  exact ⟨coherent_step hs hcoherent step, sound_step hs hcoherent h hstep⟩

/-- After any steps that do not move the clock back and delete no group, a sweep brings everything
up to date, and a second one at the same time finds nothing to do. -/
theorem sweep_run (ids : IdSource) (clock : Timestamp) (policy : RetryPolicy) {steps : List Step}
    {reply : Reply} (hsteady : (start ids clock policy).Along Steady steps)
    (hsweep : (((start ids clock policy).run steps).perform .sweep).1 = .ok reply) :
    (((start ids clock policy).run steps).perform .sweep).2.committed.UpToDate
        ((start ids clock policy).run steps).clock ∧
      ((((start ids clock policy).run steps).perform .sweep).2.perform .sweep).1 =
        .ok (.permissions .none) ∧
      ((((start ids clock policy).run steps).perform .sweep).2.perform .sweep).2.committed =
        (((start ids clock policy).run steps).perform .sweep).2.committed := by
  have hs := idle_run (idle_start ids clock policy) steps
  have hcoherent := coherent_run ids clock policy steps
  have hsound := sound_run ids clock policy hsteady
  have hdone := allDone_run ids clock policy (steps ++ [.call .sweep])
  have hwalks := recordsWalks_run ids clock policy (steps ++ [.call .sweep])
  rw [run_append] at hdone hwalks
  generalize (start ids clock policy).run steps = s at *
  have hclock : (s.perform .sweep).2.clock = s.clock := clock_step_call hs .sweep
  have hidle : (s.perform .sweep).2.Idle := idle_step hs (.call .sweep)
  obtain ⟨store, hout, hcommitted⟩ := perform_ok hsweep
  rw [outcomeOf, Call.run_sweep] at hout
  obtain ⟨outcome, hstore, -⟩ := Reply.onSuccess_eq_ok.1 hout
  have hcurrent := hsound.rowCurrent_sweep hcoherent.toLayered hstore
  replace hdone : (s.perform .sweep).2.committed.AllDone := hdone
  replace hwalks : (s.perform .sweep).2.committed.RecordsWalks := hwalks
  have hagain : (s.perform .sweep).2.outcomeOf .sweep = .ok (.permissions .none, store) := by
    rw [hcommitted] at hdone
    have hnothing := sweep_of_rowCurrent hcurrent hdone
    rw [outcomeOf, Call.run_sweep, hclock, hcommitted, hnothing]
    rfl
  obtain ⟨hreply, hstays⟩ := perform_of_outcome hidle hagain
  refine ⟨?_, hreply, hstays.trans hcommitted.symm⟩
  rw [hcommitted] at hwalks ⊢
  exact upToDate_of_rowCurrent (hcoherent.sweep hstore) hwalks hcurrent

/-- Access that a member of a group gets from a membership that ends, through a grant that comes
into effect later. -/
def passingAccess : List Step :=
  let plain : Group := ⟨"", .other, true, none, none, none⟩
  [ .call (.createGroup 1 plain),
    .call (.createGroup 2 plain),
    .call (.createRelation 1 2 { MembershipTerms.unset with expiresAt := some ⟨5000⟩ }),
    .call (.createItem 10 .plain),
    .call (.createItem 11 .plain),
    .call (.createLink 10 11 .plain),
    .call (.grant 1 10 1 ⟨.contentWithDescendants, .none, .none, .none, false, .date ⟨3000⟩⟩),
    .call (.grant 2 11 1 ⟨.info, .none, .none, .none, false, .always⟩),
    .setClock ⟨4000⟩,
    .call .sweep,
    .advance (.ofMillis 2000) ]

theorem upToDate_passingAccess :
    (start (.ofList []) .zero .standard).Along Steady passingAccess ∧
      (((start (.ofList []) .zero .standard).run passingAccess).perform .sweep).1 =
        .ok (.permissions ⟨3, .ofKeys [(2, 10), (2, 11)], ∅⟩) ∧
      (((start (.ofList []) .zero .standard).run passingAccess).perform .sweep).2.committed.UpToDate
        ((start (.ofList []) .zero .standard).run passingAccess).clock := by
  have hsteady : (start (.ofList []) .zero .standard).Along Steady passingAccess := by
    decide +kernel
  have hsweep : (((start (.ofList []) .zero .standard).run passingAccess).perform .sweep).1 =
      .ok (.permissions ⟨3, .ofKeys [(2, 10), (2, 11)], ∅⟩) := by
    decide +kernel
  exact ⟨hsteady, hsweep, (sweep_run (.ofList []) .zero .standard hsteady hsweep).1⟩

end Session

end Courseware
