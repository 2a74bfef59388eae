import Courseware.Settlement
import Courseware.Proofs.Run

/-!
# What settling leaves alone

Working out permissions is recomputing pairs, one after the other, and settling results is marking,
creating and recomputing results. What these single steps keep, a whole settlement keeps; in
particular the first writes nothing but worked-out access and the second nothing but results.
-/

namespace Courseware

/-! ### Permissions -/

namespace PermissionRun

variable {P : Store → Prop} {now : Timestamp}

theorem visits_keep (hvisit : ∀ s pair, P s → P (s.recomputePair pair now).2)
    (pairs : List Pair) {r : PermissionRun} (hr : P r.store) :
    P (pairs.foldl (visit now) r).store := by
  induction pairs generalizing r with
  | nil => exact hr
  | cons pair rest ih => exact ih (hvisit r.store pair hr)

theorem spreads_store (pairs : List Pair) (r : PermissionRun) :
    (pairs.foldl spread r).store = r.store := by
  induction pairs generalizing r with
  | nil => rfl
  | cons pair rest ih =>
    rw [List.foldl_cons, ih]
    rfl

/-- The first half of a pass. -/
def visitMarked (now : Timestamp) (r : PermissionRun) : PermissionRun :=
  (r.worklist.take .itself).1.foldl (visit now) { r with worklist := (r.worklist.take .itself).2 }

/-- The second half of a pass. -/
def spreadChanged (r : PermissionRun) : PermissionRun :=
  (r.worklist.take .children).1.foldl spread { r with worklist := (r.worklist.take .children).2 }

theorem pass_eq (now : Timestamp) (r : PermissionRun) :
    r.pass now = (r.visitMarked now).spreadChanged :=
  rfl

theorem pass_store (now : Timestamp) (r : PermissionRun) :
    (r.pass now).store = (r.visitMarked now).store :=
  spreads_store _ _

theorem spreads_outcome (pairs : List Pair) (r : PermissionRun) :
    (pairs.foldl spread r).outcome = r.outcome := by
  induction pairs generalizing r with
  | nil => rfl
  | cons pair rest ih => exact ih (r.spread pair)

theorem pass_outcome (now : Timestamp) (r : PermissionRun) :
    (r.pass now).outcome = (r.visitMarked now).outcome :=
  spreads_outcome _ _

theorem loop_induction {Q : PermissionRun → Prop} (hpass : ∀ r, Q r → Q (r.pass now)) (passes : Nat)
    {r : PermissionRun} (hr : Q r) : Q (loop now passes r) := by
  induction passes generalizing r with
  | zero => exact hr
  | succ passes ih =>
    rw [loop]
    split
    · exact hr
    · exact ih (hpass r hr)

theorem loop_keeps (hvisit : ∀ s pair, P s → P (s.recomputePair pair now).2) (passes : Nat)
    {r : PermissionRun} (hr : P r.store) : P (loop now passes r).store := by
  apply loop_induction (Q := fun t => P t.store) _ passes hr
  intro t ht
  rw [pass_store]
  exact visits_keep hvisit _ ht

end PermissionRun

namespace Store

theorem propagatePermissions_keeps {P : Store → Prop} {now : Timestamp}
    (hvisit : ∀ s pair, P s → P (s.recomputePair pair now).2) {s : Store} (hs : P s)
    (w : Worklist Pair) : P (s.propagatePermissions w now).2 :=
  PermissionRun.loop_keeps hvisit _ hs

theorem recomputePair_frame (s : Store) (pair : Pair) (now : Timestamp) :
    ∃ gen, (s.recomputePair pair now).2 = { s with generated := gen } := by
  rw [recomputePair]
  split
  · split
    · exact ⟨_, rfl⟩
    · exact ⟨_, rfl⟩
  · split
    · exact ⟨s.generated, rfl⟩
    · exact ⟨_, rfl⟩

theorem propagatePermissions_frame (s : Store) (w : Worklist Pair) (now : Timestamp) :
    ∃ gen, (s.propagatePermissions w now).2 = { s with generated := gen } := by
  refine propagatePermissions_keeps (P := fun t => ∃ gen, t = { s with generated := gen }) ?_
    ⟨s.generated, rfl⟩ w
  rintro _ pair ⟨gen, rfl⟩
  obtain ⟨gen', h⟩ := recomputePair_frame { s with generated := gen } pair now
  exact ⟨gen', h⟩

theorem refreshAll_frame (s : Store) (now : Timestamp) (pairs : List Pair) :
    ∃ gen, (s.refreshAll now pairs).2 = { s with generated := gen } := by
  induction pairs generalizing s with
  | nil => exact ⟨s.generated, rfl⟩
  | cons pair rest ih =>
    obtain ⟨gen, h⟩ := ih (s.refresh pair now)
    exact ⟨gen, h⟩

theorem sweepPermissions_frame (s : Store) (now : Timestamp) :
    ∃ gen, (s.sweepPermissions now).2 = { s with generated := gen } := by
  obtain ⟨gen, hrefresh⟩ := refreshAll_frame s now (s.pairsWithActivation now)
  obtain ⟨gen', h⟩ := propagatePermissions_frame (s.refreshAll now (s.pairsWithActivation now)).2
    (.ofKeys (s.pairsWithExpiredAncestor now)) now
  refine ⟨gen', ?_⟩
  change (propagatePermissions _ _ _).2 = _
  rw [h, hrefresh]

/-! ### What one step of settling does -/

section Steps

variable {s s' : Store} {now : Timestamp} {key : ResultKey} {r : Result}

/-- The store in which a result that is to be passed up is settled. -/
def settle (s : Store) (key : ResultKey) (r : Result) : Store :=
  if r.progress = .toBePropagated then s.setProgress key .done else s

theorem settle_frame (s : Store) (key : ResultKey) (r : Result) :
    ∃ rs, s.settle key r = { s with results := rs } := by
  unfold settle
  split
  · exact ⟨_, rfl⟩
  · exact ⟨s.results, rfl⟩

theorem settle_keeps {P : Store → Prop} (hs : P s) (hset : P (s.setProgress key .done)) :
    P (s.settle key r) := by
  unfold settle
  split
  · exact hset
  · exact hs

theorem passUp_of_get? (hr : s.results.get? key = some r) :
    s.passUp key now =
      match s.upwardAttempt key with
      | none => .ok (([], 0), s.settle key r)
      | some attempt =>
        (s.settle key r).markWholes key.participant attempt now (s.wholesOf key.item) := by
  obtain ⟨rs, hframe⟩ := s.settle_frame key r
  rw [passUp, hr]
  simp only
  rw [← settle, hframe]
  rfl

theorem passUp_eq_ok {out : List ResultKey × Nat} (h : s.passUp key now = .ok (out, s')) :
    (s.results.get? key = none ∧ out = ([], 0) ∧ s' = s) ∨
      ∃ r, s.results.get? key = some r ∧
        ((s.upwardAttempt key = none ∧ out = ([], 0) ∧ s' = s.settle key r) ∨
          ∃ attempt, s.upwardAttempt key = some attempt ∧
            (s.settle key r).markWholes key.participant attempt now (s.wholesOf key.item) =
              .ok (out, s')) := by
  cases hr : s.results.get? key with
  | none =>
    rw [passUp, hr] at h
    obtain ⟨rfl, rfl⟩ := Prod.mk.inj (Except.ok.inj h)
    exact Or.inl ⟨rfl, rfl, rfl⟩
  | some r =>
    rw [passUp_of_get? hr] at h
    refine Or.inr ⟨r, rfl, ?_⟩
    split at h
    · rename_i hupward
      obtain ⟨rfl, rfl⟩ := Prod.mk.inj (Except.ok.inj h)
      exact Or.inl ⟨hupward, rfl, rfl⟩
    · rename_i attempt hupward
      exact Or.inr ⟨attempt, hupward, h⟩

theorem markWholes_nil_eq_ok {participant : GroupId} {attempt : AttemptId}
    {out : List ResultKey × Nat} (h : s.markWholes participant attempt now [] = .ok (out, s')) :
    out = ([], 0) ∧ s' = s := by
  simp only [markWholes, Except.ok.injEq, Prod.mk.injEq] at h
  exact ⟨h.1.symm, h.2.symm⟩

/-- The first result to mark is there and gets marked, or is missing and gets created, or is missing
and may not be created. -/
theorem markWholes_cons_eq_ok {participant : GroupId} {attempt : AttemptId} {whole : ItemId}
    {link : Link} {item : Item} {rest : List (ItemId × Link × Item)} {out : List ResultKey × Nat}
    (h : s.markWholes participant attempt now ((whole, link, item) :: rest) = .ok (out, s')) :
    (∃ r later created, s.results.get? ⟨participant, attempt, whole⟩ = some r ∧
        (s.setProgress ⟨participant, attempt, whole⟩ .toBeRecomputed).markWholes participant attempt
          now rest = .ok ((later, created), s') ∧
        out = (if r.progress = .toBePropagated then ⟨participant, attempt, whole⟩ :: later else later,
          created)) ∨
      (s.results.get? ⟨participant, attempt, whole⟩ = none ∧
        s.mayCreate ⟨participant, attempt, whole⟩ item now = true ∧ ∃ new t later created,
          s.insertResult ⟨participant, attempt, whole⟩ .toBeRecomputed now = .ok (new, t) ∧
          t.markWholes participant attempt now rest = .ok ((later, created), s') ∧
          out = (later, created + 1)) ∨
      (s.results.get? ⟨participant, attempt, whole⟩ = none ∧
        ¬ s.mayCreate ⟨participant, attempt, whole⟩ item now = true ∧
        s.markWholes participant attempt now rest = .ok (out, s')) := by
  simp only [markWholes] at h
  split at h
  · rename_i r hr
    obtain ⟨⟨⟨later, created⟩, t⟩, hrest, hout⟩ := bind_eq_ok.1 h
    simp only [pure, Except.pure, Except.ok.injEq, Prod.mk.injEq] at hout
    obtain ⟨rfl, rfl⟩ := hout
    exact Or.inl ⟨r, later, created, hr, hrest, rfl⟩
  · rename_i hnone
    split at h
    · rename_i hmay
      obtain ⟨⟨new, t⟩, hinsert, h⟩ := bind_eq_ok.1 h
      obtain ⟨⟨⟨later, created⟩, u⟩, hrest, hout⟩ := bind_eq_ok.1 h
      simp only [pure, Except.pure, Except.ok.injEq, Prod.mk.injEq] at hout
      obtain ⟨rfl, rfl⟩ := hout
      exact Or.inr (Or.inl ⟨hnone, hmay, new, t, later, created, Fault.lift_eq_ok.1 hinsert, hrest,
        rfl⟩)
    · rename_i hno
      exact Or.inr (Or.inr ⟨hnone, hno, h⟩)

theorem recomputeReady_nil_eq_ok {count : Nat} (h : s.recomputeReady [] = .ok (count, s')) :
    count = 0 ∧ s' = s := by
  simp only [recomputeReady, Except.ok.injEq, Prod.mk.injEq] at h
  exact ⟨h.1.symm, h.2.symm⟩

/-- The first result that is due waits, or it is recomputed. -/
theorem recomputeReady_cons_eq_ok {rest : List (ResultKey × Result)} {count : Nat}
    (h : s.recomputeReady ((key, r) :: rest) = .ok (count, s')) :
    (s.isWaiting key = true ∧ s.recomputeReady rest = .ok (count, s')) ∨
      (s.isWaiting key = false ∧ ∃ t later, s.recomputeResult key r = .ok t ∧
        t.recomputeReady rest = .ok (later, s') ∧ count = later + 1) := by
  simp only [recomputeReady] at h
  split at h
  · rename_i hwaiting
    exact Or.inl ⟨hwaiting, h⟩
  · rename_i hready
    obtain ⟨t, hone, h⟩ := bind_eq_ok.1 h
    obtain ⟨⟨later, u⟩, hrest, hout⟩ := bind_eq_ok.1 h
    simp only [pure, Except.pure, Except.ok.injEq, Prod.mk.injEq] at hout
    obtain ⟨rfl, rfl⟩ := hout
    exact Or.inr ⟨by simpa using hready, t, later, hone, hrest, rfl⟩

end Steps

/-! ### Results -/

/-- The steps that settling results is made of keep a property. -/
structure KeptBySettling (now : Timestamp) (P : Store → Prop) : Prop where
  setProgress : ∀ {s : Store} (key : ResultKey) (progress : Progress), P s →
    P (s.setProgress key progress)
  insertResult : ∀ {s s' : Store} {key : ResultKey} {item : Item} {created : Bool}, P s →
    s.mayCreate key item now = true →
    s.insertResult key .toBeRecomputed now = .ok (created, s') → P s'
  recomputeResult : ∀ {s s' : Store} {key : ResultKey} {r : Result}, P s →
    s.recomputeResult key r = .ok s' → P s'

section Settling

variable {now : Timestamp} {P : Store → Prop}

/-- What marking and creating results on some items keep. -/
theorem markWholes_keeps {participant : GroupId} {attempt : AttemptId}
    {wholes : List (ItemId × Link × Item)}
    (hmark : ∀ t, ∀ w ∈ wholes, P t →
      P (t.setProgress ⟨participant, attempt, w.1⟩ .toBeRecomputed))
    (hinsert : ∀ t t' created, ∀ w ∈ wholes, P t →
      t.mayCreate ⟨participant, attempt, w.1⟩ w.2.2 now = true →
      t.insertResult ⟨participant, attempt, w.1⟩ .toBeRecomputed now = .ok (created, t') → P t')
    {s s' : Store} {out : List ResultKey × Nat} (hs : P s)
    (h : s.markWholes participant attempt now wholes = .ok (out, s')) : P s' := by
  induction wholes generalizing s out with
  | nil => exact (markWholes_nil_eq_ok h).2 ▸ hs
  | cons whole rest ih =>
    obtain ⟨item, link, row⟩ := whole
    have hlater : ∀ {t out}, P t → t.markWholes participant attempt now rest = .ok (out, s') → P s' :=
      fun ht hrest => ih (fun t w hw => hmark t w (List.mem_cons_of_mem _ hw))
        (fun t t' created w hw => hinsert t t' created w (List.mem_cons_of_mem _ hw)) ht hrest
    rcases markWholes_cons_eq_ok h with ⟨r, later, n, -, hrest, -⟩ |
      ⟨-, hcreate, created, t, later, n, hnew, hrest, -⟩ | ⟨-, -, hrest⟩
    · exact hlater (hmark s _ List.mem_cons_self hs) hrest
    · exact hlater (hinsert s t created _ List.mem_cons_self hs hcreate hnew) hrest
    · exact hlater hs hrest

/-- What passing up a result keeps. -/
theorem passUp_keeps {first : ResultKey} {s s' : Store} {out : List ResultKey × Nat}
    (hdone : P s → P (s.setProgress first .done))
    (hmark : ∀ t attempt, ∀ w ∈ s.wholesOf first.item, P t →
      P (t.setProgress ⟨first.participant, attempt, w.1⟩ .toBeRecomputed))
    (hinsert : ∀ t t' created attempt, ∀ w ∈ s.wholesOf first.item, P t →
      t.mayCreate ⟨first.participant, attempt, w.1⟩ w.2.2 now = true →
      t.insertResult ⟨first.participant, attempt, w.1⟩ .toBeRecomputed now = .ok (created, t') →
      P t')
    (hs : P s) (h : s.passUp first now = .ok (out, s')) : P s' := by
  rcases passUp_eq_ok h with ⟨-, -, rfl⟩ | ⟨r, -, ⟨-, -, rfl⟩ | ⟨attempt, -, hwholes⟩⟩
  · exact hs
  · exact settle_keeps hs (hdone hs)
  · exact markWholes_keeps (fun t => hmark t attempt)
      (fun t t' created => hinsert t t' created attempt) (settle_keeps hs (hdone hs)) hwholes

theorem KeptBySettling.markWholes (hP : KeptBySettling now P) {participant : GroupId}
    {attempt : AttemptId} {wholes : List (ItemId × Link × Item)} {s s' : Store}
    {out : List ResultKey × Nat} (hs : P s)
    (h : s.markWholes participant attempt now wholes = .ok (out, s')) : P s' :=
  markWholes_keeps (fun _ _ _ ht => hP.setProgress _ _ ht)
    (fun _ _ _ _ _ ht hcreate hinsert => hP.insertResult ht hcreate hinsert) hs h

theorem KeptBySettling.passUp (hP : KeptBySettling now P) {key : ResultKey} {s s' : Store}
    {out : List ResultKey × Nat} (hs : P s) (h : s.passUp key now = .ok (out, s')) : P s' :=
  passUp_keeps (hP.setProgress _ _) (fun _ _ _ _ ht => hP.setProgress _ _ ht)
    (fun _ _ _ _ _ _ ht hcreate hinsert => hP.insertResult ht hcreate hinsert) hs h

theorem KeptBySettling.passUpAll (hP : KeptBySettling now P) (turns : Nat) {s s' : Store}
    {queue : List ResultKey} {outcome outcome' : ResultOutcome} (hs : P s)
    (h : s.passUpAll now turns queue outcome = .ok (outcome', s')) : P s' := by
  induction turns generalizing s queue outcome with
  | zero =>
    simp only [Store.passUpAll, Except.ok.injEq, Prod.mk.injEq] at h
    exact h.2 ▸ hs
  | succ turns ih =>
    cases queue with
    | nil =>
      simp only [Store.passUpAll, Except.ok.injEq, Prod.mk.injEq] at h
      exact h.2 ▸ hs
    | cons key queue =>
      simp only [Store.passUpAll] at h
      obtain ⟨⟨out, t⟩, hpass, h⟩ := bind_eq_ok.1 h
      exact ih (hP.passUp hs hpass) h

theorem KeptBySettling.recomputeReady (hP : KeptBySettling now P)
    {due : List (ResultKey × Result)} {s s' : Store} {count : Nat} (hs : P s)
    (h : s.recomputeReady due = .ok (count, s')) : P s' := by
  induction due generalizing s count with
  | nil => exact (recomputeReady_nil_eq_ok h).2 ▸ hs
  | cons e rest ih =>
    obtain ⟨key, r⟩ := e
    rcases recomputeReady_cons_eq_ok h with ⟨-, hrest⟩ | ⟨-, t, later, hone, hrest, -⟩
    · exact ih hs hrest
    · exact ih (hP.recomputeResult hs hone) hrest

theorem KeptBySettling.settleRounds (hP : KeptBySettling now P) (rounds : Nat) {s s' : Store}
    {outcome outcome' : ResultOutcome} (hs : P s)
    (h : Store.settleRounds now rounds outcome s = .ok (outcome', s')) : P s' := by
  induction rounds generalizing s outcome with
  | zero => simp [Store.settleRounds] at h
  | succ rounds ih =>
    simp only [Store.settleRounds] at h
    obtain ⟨⟨out, t⟩, hpass, h⟩ := bind_eq_ok.1 h
    have ht := hP.passUpAll _ hs hpass
    simp only at h
    split at h
    · simp only [pure, Except.pure, Except.ok.injEq, Prod.mk.injEq] at h
      exact h.2 ▸ ht
    · obtain ⟨⟨n, u⟩, hready, h⟩ := bind_eq_ok.1 h
      have hu := hP.recomputeReady ht hready
      simp only at h
      split at h
      · simp at h
      · exact ih hu h

theorem KeptBySettling.propagateResults (hP : KeptBySettling now P) {s s' : Store}
    {outcome : ResultOutcome} (hs : P s) (h : s.propagateResults now = .ok (outcome, s')) :
    P s' :=
  hP.settleRounds _ hs h

end Settling

theorem demand_eq_ok {b : Bool} {u : Unit} : demand b = .ok u ↔ b = true := by
  cases b <;> simp [demand]

theorem insertResult_eq_ok {s s' : Store} {key : ResultKey} {progress : Progress}
    {now : Timestamp} {created : Bool}
    (h : s.insertResult key progress now = .ok (created, s')) :
    (s.results.contains key = true ∧ created = false ∧ s' = s) ∨
      (s.results.contains key = false ∧ created = true ∧
        s.attempts.contains (key.participant, key.attempt) = true ∧
        s.items.contains key.item = true ∧
        s' = { s with results := s.results.insert key ⟨.fresh now, none, none, progress⟩ }) := by
  rw [insertResult] at h
  split at h
  · rename_i hkey
    simp only [Except.ok.injEq, Prod.mk.injEq] at h
    exact Or.inl ⟨hkey, h.1.symm, h.2.symm⟩
  · rename_i hkey
    obtain ⟨_, hdemand, h⟩ := bind_eq_ok.1 h
    simp only [pure, Except.pure, Except.ok.injEq, Prod.mk.injEq] at h
    obtain ⟨hattempt, hitem⟩ := Bool.and_eq_true_iff.1 (demand_eq_ok.1 hdemand)
    exact Or.inr ⟨by simpa using hkey, h.1.symm, hattempt, hitem, h.2.symm⟩

theorem writeValues_eq_ok {s s' : Store} {key : ResultKey} {values : Aggregate}
    {progress : Progress} (h : s.writeValues key values progress = .ok s') :
    ∃ score, values.score.stored? = some score ∧
      s' = { s with
        results := s.results.modify key fun r =>
          { r with values := { values with score }, progress } } := by
  rw [writeValues] at h
  split at h
  · simp at h
  · rename_i score hscore
    exact ⟨score, hscore, (Except.ok.inj h).symm⟩

theorem recomputeResult_eq_ok {s s' : Store} {key : ResultKey} {r : Result}
    (h : s.recomputeResult key r = .ok s') :
    ∃ score, (s.dueValues key r).score.stored? = some score ∧
      s' = { s with
        results := s.results.modify key fun old =>
          { old with
            values := { s.dueValues key r with score }
            progress := if (s.dueValues key r).same r.values then .done else .toBePropagated } } :=
  writeValues_eq_ok (Fault.lift_eq_ok.1 h)

/-- Nothing but results differs, no result is lost, and new ones refer to stored rows. -/
structure ResultsGrow (s s' : Store) : Prop where
  frame : ∃ rs, s' = { s with results := rs }
  kept : ∀ key, s.results.contains key = true → s'.results.contains key = true
  founded : ∀ key, s'.results.contains key = true → s.results.contains key = true ∨
    (s.attempts.contains (key.participant, key.attempt) = true ∧ s.items.contains key.item = true)

theorem ResultsGrow.refl (s : Store) : s.ResultsGrow s :=
  ⟨⟨s.results, rfl⟩, fun _ h => h, fun _ h => Or.inl h⟩

theorem ResultsGrow.trans {s t u : Store} (hst : s.ResultsGrow t) (htu : t.ResultsGrow u) :
    s.ResultsGrow u := by
  obtain ⟨⟨rs, rfl⟩, hkept, hfounded⟩ := hst
  obtain ⟨⟨rs', rfl⟩, hkept', hfounded'⟩ := htu
  refine ⟨⟨rs', rfl⟩, fun key h => hkept' key (hkept key h), fun key h => ?_⟩
  rcases hfounded' key h with h | h
  · exact hfounded key h
  · exact Or.inr h

theorem ResultsGrow.of_contains {s : Store} {rs : Table ResultKey Result}
    (h : ∀ key, rs.contains key = s.results.contains key) :
    s.ResultsGrow { s with results := rs } :=
  ⟨⟨rs, rfl⟩, fun key hkey => (h key).trans hkey, fun key hkey => Or.inl ((h key).symm.trans hkey)⟩

theorem resultsGrow_setProgress (s : Store) (key : ResultKey) (progress : Progress) :
    s.ResultsGrow (s.setProgress key progress) :=
  .of_contains fun key' => Table.contains_modify _ key key' _

theorem resultsGrow_markResults (s : Store) (p : ResultKey → Bool) (progress : Progress) :
    s.ResultsGrow (s.markResults p progress).2 :=
  .of_contains fun key => Table.contains_map _ _ key

theorem resultsGrow_insertResult {s s' : Store} {key : ResultKey} {progress : Progress}
    {now : Timestamp} {created : Bool}
    (h : s.insertResult key progress now = .ok (created, s')) : s.ResultsGrow s' := by
  rcases insertResult_eq_ok h with ⟨-, -, rfl⟩ | ⟨-, -, hattempt, hitem, rfl⟩
  · exact .refl s'
  · refine ⟨⟨_, rfl⟩, fun key' h => ?_, fun key' h => ?_⟩
    · simp [h]
    · rw [Table.contains_insert, Bool.or_eq_true, decide_eq_true_eq] at h
      rcases h with rfl | h
      · exact Or.inr ⟨hattempt, hitem⟩
      · exact Or.inl h

theorem resultsGrow_recomputeResult {s s' : Store} {key : ResultKey} {r : Result}
    (h : s.recomputeResult key r = .ok s') : s.ResultsGrow s' := by
  obtain ⟨score, -, rfl⟩ := recomputeResult_eq_ok h
  exact .of_contains fun key' => Table.contains_modify _ key key' _

theorem resultsGrow_keptBySettling (now : Timestamp) (s : Store) :
    KeptBySettling now s.ResultsGrow where
  setProgress key progress h := h.trans (resultsGrow_setProgress _ key progress)
  insertResult h _ hinsert := h.trans (resultsGrow_insertResult hinsert)
  recomputeResult h hone := h.trans (resultsGrow_recomputeResult hone)

theorem resultsGrow_propagateResults {s s' : Store} {now : Timestamp} {outcome : ResultOutcome}
    (h : s.propagateResults now = .ok (outcome, s')) : s.ResultsGrow s' :=
  (resultsGrow_keptBySettling now s).propagateResults (.refl s) h

/-- What marking keeps, marking below all newly visible items keeps. -/
theorem markBelow_keeps {P : Store → Prop}
    (hmark : ∀ t p, P t → P (t.markResults p .toBePropagated).2) {s : Store} (hs : P s)
    (now : Timestamp) (pairs : List Pair) : P (s.markBelow now pairs) := by
  induction pairs generalizing s with
  | nil => exact hs
  | cons pair rest ih => exact ih (hmark s _ hs)

theorem resultsGrow_markBelow (s : Store) (now : Timestamp) (pairs : List Pair) :
    s.ResultsGrow (s.markBelow now pairs) :=
  markBelow_keeps (fun t p h => h.trans (resultsGrow_markResults t p _)) (.refl s) now pairs

theorem resultsGrow_settleVisible {s s' : Store} {outcome : PermissionOutcome} {now : Timestamp}
    {results : ResultOutcome} (h : s.settleVisible outcome now = .ok (results, s')) :
    s.ResultsGrow s' :=
  (resultsGrow_markBelow s now _).trans (resultsGrow_propagateResults h)

/-! ### Both -/

theorem settlePairs_eq_ok {s s' : Store} {pairs : List Pair} {now : Timestamp}
    {outcome : PermissionOutcome} (h : s.settlePairs pairs now = .ok (outcome, s')) :
    outcome = (s.propagatePermissions (.ofKeys pairs) now).1 ∧
      ∃ results, (s.propagatePermissions (.ofKeys pairs) now).2.settleVisible outcome now =
        .ok (results, s') := by
  rw [settlePairs] at h
  obtain ⟨⟨results, t⟩, hvisible, h⟩ := bind_eq_ok.1 h
  simp only [pure, Except.pure, Except.ok.injEq, Prod.mk.injEq] at h
  obtain ⟨rfl, rfl⟩ := h
  exact ⟨rfl, results, hvisible⟩

theorem resultsGrow_settlePairs {s s' : Store} {pairs : List Pair} {now : Timestamp}
    {outcome : PermissionOutcome} (h : s.settlePairs pairs now = .ok (outcome, s')) :
    (s.propagatePermissions (.ofKeys pairs) now).2.ResultsGrow s' := by
  obtain ⟨-, results, hvisible⟩ := settlePairs_eq_ok h
  exact resultsGrow_settleVisible hvisible

theorem settleClosure_eq_ok {s s' : Store} {change : ClosureChange} {now : Timestamp}
    (h : s.settleClosure change now = .ok s') :
    ∃ outcome, s.settlePairs (s.pairsForClosure change now) now = .ok (outcome, s') := by
  rw [settleClosure] at h
  obtain ⟨⟨outcome, t⟩, hpairs, h⟩ := bind_eq_ok.1 h
  simp only [pure, Except.pure, Except.ok.injEq] at h
  exact ⟨outcome, h ▸ hpairs⟩

theorem settlePairs_frame {s s' : Store} {pairs : List Pair} {now : Timestamp}
    {outcome : PermissionOutcome} (h : s.settlePairs pairs now = .ok (outcome, s')) :
    ∃ gen rs, s' = { s with generated := gen, results := rs } := by
  obtain ⟨gen, hgen⟩ := propagatePermissions_frame s (.ofKeys pairs) now
  obtain ⟨rs, rfl⟩ := (resultsGrow_settlePairs h).frame
  exact ⟨gen, rs, by rw [hgen]⟩

theorem settleClosure_frame {s s' : Store} {change : ClosureChange} {now : Timestamp}
    (h : s.settleClosure change now = .ok s') :
    ∃ gen rs, s' = { s with generated := gen, results := rs } := by
  obtain ⟨outcome, hpairs⟩ := settleClosure_eq_ok h
  exact settlePairs_frame hpairs

end Store

end Courseware
