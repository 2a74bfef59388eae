import Courseware.Proofs.Feeding

/-!
# Grants go through

A grant between stored rows changes nothing but permissions and results, and settling results meets
with one obstacle only: a result that is due to be created in an attempt that is not stored. Starting
an attempt does not ask whether the one that it belongs to is stored, so there may be such an obstacle
(`Dangles`). Without one every grant succeeds, and with one right below an item that it makes visible
it fails (`grant_succeeds_or_dangles`). What an item is due from its parts is always a number, since
weighted sums of scores from 0 to 100 stay far from the infinities.
-/

namespace Courseware

/-! ### What a whole is due is a number -/

theorem Part.within_averageScore {parts : List Part}
    (h : ∀ p ∈ parts, ∀ b ∈ p.best, b.score.Proper) : Within 200 (averageScore parts).unpacked := by
  have hterms : ∀ x ∈ parts.filterMap term, Within 20 x.unpacked := by
    intro x hx
    obtain ⟨p, hp, hterm⟩ := List.mem_filterMap.1 hx
    obtain ⟨b, hb, rfl⟩ := Option.map_eq_some_iff.1 hterm
    exact Score.within_mul_weight (h p hp b hb).capped _
  rw [averageScore]
  split
  · rename_i hweight
    exact Score.within_div_weight (Score.within_sum hterms) hweight
  · rw [Score.unpacked_zero]
    trivial

theorem isNaN_applyEditRule {base : Score} {k : Int} (hbase : Within k base.unpacked)
    (rule : Option EditRule) {value : Option Score} (hvalue : ∀ v ∈ value, v.isNaN = false) :
    (applyEditRule base rule value).isNaN = false := by
  refine Score.isNaN_clamp ?_
  split
  · exact hvalue _ rfl
  · exact Score.isNaN_add hbase (hvalue _ rfl)
  · exact Score.isNaN_of_within hbase

namespace Store

variable {s s' t : Store} {now : Timestamp} {key : ResultKey} {r : Result}

theorem proper_partBest (hs : s.ProperScores) {part : ItemId} :
    ∀ b ∈ s.partBest key part, b.score.Proper := by
  intro b hb
  obtain ⟨⟨src, a⟩, hbest, rfl⟩ := Option.map_eq_some_iff.1 hb
  obtain ⟨hvalues, -⟩ := get?_countedValues.1 (Table.mem_toList_iff.1 (mem_of_bestResult hbest))
  obtain ⟨r, hr, rfl⟩ := Option.map_eq_some_iff.1 hvalues
  exact (hs src r hr).1

theorem isNaN_dueValues (hs : s.Grounded) (hstored : s.items.contains key.item = true) {part : ItemId}
    (hpart : s.links.contains (key.item, part) = true)
    (hvalue : ∀ value ∈ r.editValue, value.isNaN = false) :
    (s.dueValues key r).score.isNaN = false := by
  obtain ⟨item, hitem⟩ := Table.contains_iff.1 hstored
  obtain ⟨link, hlink⟩ := Table.contains_iff.1 hpart
  obtain ⟨row, hrow⟩ := Table.contains_iff.1 (hs.links _ hpart).2
  have hparts : ¬ (s.partsOf key.item).isEmpty = true := by
    intro hempty
    have hmem : (part, link, row) ∈ s.partsOf key.item := mem_partsOf.2 ⟨hlink, hrow⟩
    rw [List.isEmpty_iff.1 hempty] at hmem
    exact absurd hmem List.not_mem_nil
  rw [dueValues, baseValues_eq hitem, if_neg hparts]
  refine isNaN_applyEditRule (k := 200) (Part.within_averageScore fun p hp => ?_) _ hvalue
  obtain ⟨p', -, rfl⟩ := List.mem_map.1 (List.mem_filter.1 hp).1
  exact proper_partBest hs.proper

/-! ### The one obstacle -/

/-- A result that is missing, and that cannot be created though it may: its attempt is not stored,
and one that belongs to it was started for a part of the item. -/
structure Dangles (s : Store) (now : Timestamp) (key : ResultKey) : Prop where
  missing : s.attempts.contains (key.participant, key.attempt) = false
  wanted : ∃ item, s.items.get? key.item = some item ∧ s.mayCreate key item now = true
  started : ∃ part attempt a, s.links.contains (key.item, part) = true ∧
    s.attempts.get? (key.participant, attempt) = some a ∧ a.rootItem = some part ∧
    a.parent = some key.attempt

theorem Dangles.of_resultsGrow (hgrow : s.ResultsGrow t) (h : t.Dangles now key) :
    s.Dangles now key := by
  obtain ⟨rs, rfl⟩ := hgrow.frame
  exact ⟨h.missing, h.wanted, h.started⟩

theorem Dangles.resultsGrow (h : s.Dangles now key) (hgrow : s.ResultsGrow t) :
    t.Dangles now key := by
  obtain ⟨rs, rfl⟩ := hgrow.frame
  exact ⟨h.missing, h.wanted, h.started⟩

/-- A reference to a missing row, where the cause is given. -/
def MissesRow (cause : Prop) (fault : Fault) : Prop :=
  fault = .unexpected (.broken .foreignKey) ∧ cause

theorem failsFor_insertResult {cause : Prop} {progress : Progress}
    (hitem : s.items.contains key.item = true)
    (hcause : s.attempts.contains (key.participant, key.attempt) = false → cause) :
    FailsFor (MissesRow cause) (Fault.lift (s.insertResult key progress now)) := by
  rw [insertResult]
  split
  · exact failsFor_ok _
  · rw [hitem, Bool.and_true]
    cases hattempt : s.attempts.contains (key.participant, key.attempt) with
    | true => exact failsFor_ok _
    | false => exact failsFor_error ⟨rfl, hcause hattempt⟩

theorem missesRow_markWholes {cause : Prop} {participant : GroupId} {attempt : AttemptId}
    {wholes : List (ItemId × Link × Item)}
    (hitems : ∀ w ∈ wholes, s.items.contains w.1 = true)
    (hcause : s.attempts.contains (participant, attempt) = false → ∀ w ∈ wholes,
      s.mayCreate ⟨participant, attempt, w.1⟩ w.2.2 now = true → cause) :
    FailsFor (MissesRow cause) (s.markWholes participant attempt now wholes) := by
  induction wholes generalizing s with
  | nil => exact failsFor_ok _
  | cons whole rest ih =>
    obtain ⟨item, link, row⟩ := whole
    have hlater : ∀ rs : Table ResultKey Result, FailsFor (MissesRow cause)
        ({ s with results := rs }.markWholes participant attempt now rest) := fun rs =>
      ih (s := { s with results := rs }) (fun w hw => hitems w (List.mem_cons_of_mem _ hw))
        fun hmissing w hw => hcause hmissing w (List.mem_cons_of_mem _ hw)
    rw [markWholes]
    split
    · exact (hlater _).bind fun _ _ => failsFor_ok _
    · split
      · rename_i hmay
        refine (failsFor_insertResult (hitems _ List.mem_cons_self) fun hmissing =>
          hcause hmissing _ List.mem_cons_self hmay).bind fun out hinsert => ?_
        obtain ⟨created, u⟩ := out
        obtain ⟨rs, rfl⟩ := (resultsGrow_insertResult (Fault.lift_eq_ok.1 hinsert)).frame
        exact (hlater rs).bind fun _ _ => failsFor_ok _
      · exact hlater s.results

theorem missesRow_passUp (hs : s.Coherent) {cause : Prop} (hcause : ∀ key, s.Dangles now key → cause)
    (key : ResultKey) : FailsFor (MissesRow cause) (s.passUp key now) := by
  cases hr : s.results.get? key with
  | none =>
    rw [passUp, hr]
    exact failsFor_ok _
  | some r =>
    obtain ⟨rs, hframe⟩ := s.settle_frame key r
    rw [passUp_of_get? hr, hframe]
    split
    · exact failsFor_ok _
    · rename_i attempt hupward
      refine missesRow_markWholes (fun w hw => Table.contains_of_get? (mem_wholesOf.1 hw).2)
        fun hmissing w hw hmay => ?_
      obtain ⟨hlink, hitem⟩ := mem_wholesOf.1 hw
      obtain ⟨a, ha⟩ := Table.contains_iff.1 (hs.results key (Table.contains_of_get? hr)).1
      replace hupward : (if a.rootItem = some key.item then a.parent else some key.attempt) =
          some attempt := by
        rw [upwardAttempt] at hupward
        simpa only [ha] using hupward
      split at hupward
      · rename_i hroot
        exact hcause ⟨key.participant, attempt, w.1⟩ ⟨hmissing, ⟨w.2.2, hitem, hmay⟩, key.item,
          key.attempt, a, Table.contains_of_get? hlink, ha, hroot, hupward⟩
      · obtain rfl := Option.some.inj hupward
        have hstored : s.attempts.contains (key.participant, key.attempt) = true :=
          Table.contains_of_get? ha
        exact absurd (hstored.symm.trans hmissing) (by simp)

/-! ### What is due to be recomputed has parts -/

/-- The items of results that are due to be recomputed have parts. -/
def DueHaveParts (s : Store) : Prop :=
  ∀ key r, s.results.get? key = some r → r.progress = .toBeRecomputed →
    ∃ part, s.links.contains (key.item, part) = true

theorem DueHaveParts.setProgress (h : s.DueHaveParts) {k : ResultKey} {progress : Progress}
    (hk : progress = .toBeRecomputed → ∃ part, s.links.contains (k.item, part) = true) :
    (s.setProgress k progress).DueHaveParts := by
  intro key r hr hdue
  rcases get?_setProgress hr with ⟨rfl, old, -, rfl⟩ | ⟨-, hold⟩
  · exact hk hdue
  · exact h key r hold hdue

theorem DueHaveParts.insertResult (h : s.DueHaveParts) {k : ResultKey} {created : Bool}
    (hk : ∃ part, s.links.contains (k.item, part) = true)
    (hinsert : s.insertResult k .toBeRecomputed now = .ok (created, s')) : s'.DueHaveParts := by
  intro key r hr hdue
  have hparts : ∃ part, s.links.contains (key.item, part) = true := by
    rcases get?_insertResult hinsert hr with ⟨rfl, -⟩ | hold
    · exact hk
    · exact h key r hold hdue
  obtain ⟨rs, rfl⟩ := (resultsGrow_insertResult hinsert).frame
  exact hparts

theorem DueHaveParts.passUp (h : s.DueHaveParts) {first : ResultKey} {out : List ResultKey × Nat}
    (hok : s.passUp first now = .ok (out, s')) : s'.DueHaveParts := by
  have hwhole : ∀ w ∈ s.wholesOf first.item, ∃ part, s.links.contains (w.1, part) = true :=
    fun w hw => ⟨first.item, Table.contains_of_get? (mem_wholesOf.1 hw).1⟩
  refine (passUp_keeps (P := fun u => u.links = s.links ∧ u.DueHaveParts) ?_ ?_ ?_ ⟨rfl, h⟩ hok).2
  · rintro ⟨hlinks, hu⟩
    exact ⟨hlinks, hu.setProgress (by simp)⟩
  · rintro u attempt w hw ⟨hlinks, hu⟩
    exact ⟨hlinks, hu.setProgress fun _ => hlinks ▸ hwhole w hw⟩
  · rintro u u' created attempt w hw ⟨hlinks, hu⟩ - hinsert
    have hu' := hu.insertResult (k := ⟨_, _, w.1⟩) (hlinks ▸ hwhole w hw) hinsert
    obtain ⟨rs, rfl⟩ := (resultsGrow_insertResult hinsert).frame
    exact ⟨hlinks, hu'⟩

theorem DueHaveParts.recomputeResult (h : s.DueHaveParts) {k : ResultKey} {old : Result}
    (hok : s.recomputeResult k old = .ok s') : s'.DueHaveParts := by
  obtain ⟨score, -, rfl⟩ := recomputeResult_eq_ok hok
  intro key r hr hdue
  rw [Table.get?_modify] at hr
  split at hr
  · obtain ⟨row, -, rfl⟩ := Option.map_eq_some_iff.1 hr
    simp only at hdue
    split at hdue <;> simp at hdue
  · exact h key r hr hdue

theorem exists_recomputeResult (hs : s.Grounded) (hr : s.items.contains key.item = true)
    {part : ItemId} (hpart : s.links.contains (key.item, part) = true)
    (hvalue : ∀ value ∈ r.editValue, value.isNaN = false) :
    ∃ t, s.recomputeResult key r = .ok t := by
  rw [Store.recomputeResult, writeValues, Score.stored?,
    if_neg (by simp [isNaN_dueValues hs hr hpart hvalue])]
  split
  · rename_i h
    split at h <;> simp at h
  · exact ⟨_, rfl⟩

/-- What is due is recomputed. -/
theorem exists_recomputeReady (hs : s.Grounded) (hdue : s.DueHaveParts)
    {due : List (ResultKey × Result)}
    (hrows : ∀ e ∈ due, s.items.contains e.1.item = true ∧
      (∃ part, s.links.contains (e.1.item, part) = true) ∧
      ∀ value ∈ e.2.editValue, value.isNaN = false) :
    ∃ count t, s.recomputeReady due = .ok (count, t) ∧ t.DueHaveParts := by
  induction due generalizing s with
  | nil => exact ⟨0, s, rfl, hdue⟩
  | cons e rest ih =>
    obtain ⟨key, r⟩ := e
    have hlater := fun e he => hrows e (List.mem_cons_of_mem _ he)
    rw [Store.recomputeReady]
    split
    · exact ih hs hdue hlater
    · obtain ⟨hitem, ⟨part, hpart⟩, hvalue⟩ := hrows _ List.mem_cons_self
      obtain ⟨t, hone⟩ := exists_recomputeResult hs hitem hpart hvalue
      have ht := hs.recomputeResult hone
      have hdue' := hdue.recomputeResult hone
      obtain ⟨rs, rfl⟩ := (resultsGrow_recomputeResult hone).frame
      obtain ⟨count, u, hmore, hu⟩ := ih ht hdue' hlater
      exact ⟨count + 1, u, bind_eq_ok.2 ⟨_, hone, bind_eq_ok.2 ⟨_, hmore, rfl⟩⟩, hu⟩

/-! ### Settling -/

theorem missesRow_drains {cause : Prop} {queue : List ResultKey} {outcome : ResultOutcome}
    {out : Except Fault (ResultOutcome × Store)} (hdrains : Drains now s queue outcome out)
    (hs : s.Coherent) (hcause : ∀ key, s.Dangles now key → cause) :
    FailsFor (MissesRow cause) out := by
  induction hdrains with
  | nil => exact failsFor_ok _
  | fault hpass =>
    rename_i fault
    exact failsFor_error (missesRow_passUp hs hcause _ fault hpass)
  | @turn s t _ _ _ _ _ _ hpass _ ih =>
    have hgrow : s.ResultsGrow t := (resultsGrow_keptBySettling now s).passUp (.refl s) hpass
    exact ih (hs.resultsGrow hgrow) fun key hkey => hcause key (hkey.of_resultsGrow hgrow)

theorem dueHaveParts_followed (now : Timestamp) :
    Followed now fun s _ => s.DueHaveParts where
  mono h _ := h
  passUp h hok := h.passUp hok
  recomputeResult h _ _ hok := h.recomputeResult hok

theorem DueHaveParts.recomputes (h : s.DueHaveParts) (hs : s.Grounded) :
    ∃ count t, s.recomputeReady (s.resultsIn .toBeRecomputed) = .ok (count, t) ∧
      t.DueHaveParts := by
  refine exists_recomputeReady hs h fun e he => ?_
  obtain ⟨hr, hprogress⟩ := mem_resultsIn.1 he
  exact ⟨(hs.results e.1 (Table.contains_of_get? hr)).2, h e.1 e.2 hr hprogress,
    (hs.proper e.1 e.2 hr).2⟩

theorem missesRow_settles {cause : Prop} {outcome : ResultOutcome}
    {out : Except Fault (ResultOutcome × Store)} (hsettles : Settles now outcome s out)
    (hunstalled : Unstalled out) (hs : s.Grounded) (hdue : s.DueHaveParts)
    (hcause : ∀ key, s.Dangles now key → cause) : FailsFor (MissesRow cause) out := by
  induction hsettles with
  | drainFault hdrains =>
    have h := missesRow_drains hdrains hs.toCoherent hcause
    exact fun fault heq => h fault (by simpa using heq)
  | settled => exact failsFor_ok _
  | recomputeFault hdrains _ hready =>
    have hdue' := (dueHaveParts_followed now).carried.drains hdrains hdue rfl
    obtain ⟨count, u, hok, -⟩ := hdue'.recomputes
      ((grounded_keptBySettling now).drains hdrains hs rfl)
    rw [hready] at hok
    exact absurd hok (by simp)
  | stalled => exact absurd rfl (hunstalled _)
  | @round s t u _ _ _ _ hdrains _ hready _ _ ih =>
    have ht := (grounded_keptBySettling now).drains hdrains hs rfl
    have hdue' := (dueHaveParts_followed now).carried.drains hdrains hdue rfl
    obtain ⟨count, u', hok, hnext⟩ := hdue'.recomputes ht
    obtain ⟨-, rfl⟩ := Prod.mk.inj (Except.ok.inj (hready.symm.trans hok))
    have hgrow : s.ResultsGrow u := (resultsGrow_keptBySettling now s).recomputeReady
      ((resultsGrow_keptBySettling now s).drains hdrains (.refl s) rfl) hready
    exact ih hunstalled ((grounded_keptBySettling now).recomputeReady ht hready) hnext
      fun key hkey => hcause key (hkey.of_resultsGrow hgrow)

/-- If settling results fails, a result is missing that cannot be created. -/
theorem missesRow_propagateResults (hs : s.Grounded) (hdue : s.DueHaveParts) :
    FailsFor (MissesRow (∃ key, s.Dangles now key)) (s.propagateResults now) :=
  missesRow_settles (hs.toLayered.propagateResults now).1 (unstalled_propagateResults hs.toLayered now)
    hs hdue fun key hkey => ⟨key, hkey⟩

/-! ### What fails -/

theorem Coherent.get?_of_missing (hs : s.Coherent) (key : ResultKey)
    (hmissing : s.attempts.contains (key.participant, key.attempt) = false) :
    s.results.get? key = none := by
  rw [Table.get?_eq_none_iff, ← Bool.not_eq_true]
  intro hstored
  exact absurd ((hs.results key hstored).1.symm.trans hmissing) (by simp)

theorem markWholes_fails (hs : s.Coherent) (hdangles : s.Dangles now key)
    {wholes : List (ItemId × Link × Item)} {link : Link} {item : Item}
    (hitem : s.items.get? key.item = some item) (hmem : (key.item, link, item) ∈ wholes) :
    ∃ fault, s.markWholes key.participant key.attempt now wholes = .error fault := by
  induction wholes with
  | nil => exact absurd hmem List.not_mem_nil
  | cons whole rest ih =>
    obtain ⟨head, link', row⟩ := whole
    rw [markWholes]
    simp only [hs.get?_of_missing ⟨key.participant, key.attempt, head⟩ hdangles.missing]
    split
    · refine ⟨.unexpected (.broken .foreignKey), bind_eq_error.2 (Or.inl ?_)⟩
      have hnone : s.results.contains ⟨key.participant, key.attempt, head⟩ = false :=
        Table.get?_eq_none_iff.1 (hs.get?_of_missing _ hdangles.missing)
      rw [insertResult, hnone, hdangles.missing]
      rfl
    · rename_i hmay
      rcases List.mem_cons.1 hmem with heq | hmem
      · obtain ⟨rfl, -, rfl⟩ : key.item = head ∧ link = link' ∧ item = row := by simpa using heq
        obtain ⟨item', hitem', hwanted⟩ := hdangles.wanted
        obtain rfl := Option.some.inj (hitem.symm.trans hitem')
        exact absurd hwanted hmay
      · exact ih hmem

theorem passUp_fails (hs : s.Coherent) {src : ResultKey} (hannounces : s.Announces src key)
    (hdangles : s.Dangles now key) : ∃ fault, s.passUp src now = .error fault := by
  obtain ⟨r, hr⟩ := Table.contains_iff.1 hannounces.stored
  obtain ⟨link, hlink⟩ := Table.contains_iff.1 hannounces.link
  obtain ⟨item, hitem, -⟩ := hdangles.wanted
  have hgrow : s.ResultsGrow (s.settle src r) :=
    settle_keeps (.refl s) (resultsGrow_setProgress s src .done)
  have ht := hs.resultsGrow hgrow
  have hdangles' := hdangles.resultsGrow hgrow
  obtain ⟨rs, heq⟩ := hgrow.frame
  rw [passUp_of_get? hr, hannounces.attempt, hannounces.participant]
  rw [heq] at ht hdangles' ⊢
  exact markWholes_fails ht hdangles' hitem (mem_wholesOf.2 ⟨hlink, hitem⟩)

theorem Announces.resultsGrow {src : ResultKey} (h : s.Announces src key) (hgrow : s.ResultsGrow t) :
    t.Announces src key := by
  have hstored := hgrow.kept src h.stored
  obtain ⟨rs, rfl⟩ := hgrow.frame
  exact ⟨hstored, h.participant, h.link, h.attempt⟩

theorem drains_fails {src : ResultKey} {queue : List ResultKey} {outcome : ResultOutcome}
    {out : Except Fault (ResultOutcome × Store)} (hdrains : Drains now s queue outcome out)
    (hs : s.Coherent) (hsrc : src ∈ queue) (hannounces : s.Announces src key)
    (hdangles : s.Dangles now key) : ∃ fault, out = .error fault := by
  induction hdrains with
  | nil => exact absurd hsrc List.not_mem_nil
  | fault => exact ⟨_, rfl⟩
  | @turn s t first _ _ _ _ _ hpass _ ih =>
    have hgrow : s.ResultsGrow t := (resultsGrow_keptBySettling now s).passUp (.refl s) hpass
    refine ih (hs.resultsGrow hgrow) (List.mem_append_left _ ?_) (hannounces.resultsGrow hgrow)
      (hdangles.resultsGrow hgrow)
    refine (List.mem_cons.1 hsrc).resolve_left ?_
    rintro rfl
    obtain ⟨fault, hfault⟩ := passUp_fails hs hannounces hdangles
    rw [hfault] at hpass
    exact absurd hpass (by simp)

/-- Where a result that cannot be created is about to be told, settling fails. -/
theorem propagateResults_fails (hs : s.Coherent) {src : ResultKey} (hsrc : src ∈ s.announcing)
    (hannounces : s.Announces src key) (hdangles : s.Dangles now key) :
    ∃ fault, s.propagateResults now = .error fault := by
  have hfails : ∀ {outcome outcome' : ResultOutcome} {t : Store},
      ¬ Drains now s s.announcing outcome (.ok (outcome', t)) := by
    intro outcome outcome' t hdrains
    obtain ⟨fault, heq⟩ := drains_fails hdrains hs hsrc hannounces hdangles
    exact absurd heq (by simp)
  cases hout : s.propagateResults now with
  | error fault => exact ⟨fault, rfl⟩
  | ok out =>
    have hsettles := (hs.toLayered.propagateResults now).1
    rw [hout] at hsettles
    cases hsettles with
    | settled hdrains => exact absurd hdrains hfails
    | round hdrains => exact absurd hdrains hfails

/-! ### Grants -/

/-- Permissions once a grant is given, before results are settled. -/
def afterGrant (s : Store) (group : GroupId) (item : ItemId) (giver : GroupId) (grant : Grant)
    (now : Timestamp) : PermissionOutcome × Store :=
  { s with grants := s.grants.insert (group, item, giver) grant }.propagatePermissions
    (.ofKeys (s.pairsForGrant group item)) now

variable {group : GroupId} {item : ItemId} {giver : GroupId} {grant : Grant}

theorem giveGrant_eq (hgroup : s.groups.contains group = true)
    (hgiver : s.groups.contains giver = true) (hitem : s.items.contains item = true) :
    s.giveGrant group item giver grant now =
      (do
        let (_, t) ← (s.afterGrant group item giver grant now).2.settleVisible
          (s.afterGrant group item giver grant now).1 now
        return ((s.afterGrant group item giver grant now).1, t)) := by
  rw [giveGrant, requireGroup, requireGroup, requireItem, putGrant, hgroup, hgiver, hitem]
  rfl

theorem afterGrant_frame (s : Store) (group : GroupId) (item : ItemId) (giver : GroupId)
    (grant : Grant) (now : Timestamp) : ∃ grants gen,
    (s.afterGrant group item giver grant now).2 = { s with grants := grants, generated := gen } := by
  obtain ⟨gen, hgen⟩ := propagatePermissions_frame
    { s with grants := s.grants.insert (group, item, giver) grant }
    (.ofKeys (s.pairsForGrant group item)) now
  exact ⟨_, gen, hgen⟩

theorem Grounded.afterGrant (hs : s.Grounded) (hgroup : s.groups.contains group = true)
    (hitem : s.items.contains item = true) (giver : GroupId) (grant : Grant) (now : Timestamp) :
    (s.afterGrant group item giver grant now).2.Grounded := by
  have hgranted := hs.toCoherent.insertGrant giver grant hgroup hitem
  obtain ⟨gen, hgen⟩ := propagatePermissions_frame
    { s with grants := s.grants.insert (group, item, giver) grant }
    (.ofKeys (s.pairsForGrant group item)) now
  rw [Store.afterGrant, hgen]
  exact (hs.congr hgranted rfl).setGenerated gen

/-- If a grant between stored rows fails, a result is missing that cannot be created. -/
theorem missesRow_giveGrant (hs : s.Grounded) (hdone : s.AllDone)
    (hgroup : s.groups.contains group = true) (hgiver : s.groups.contains giver = true)
    (hitem : s.items.contains item = true) (grant : Grant) (now : Timestamp) :
    FailsFor (MissesRow (∃ key, (s.afterGrant group item giver grant now).2.Dangles now key))
      (s.giveGrant group item giver grant now) := by
  have hafter := hs.afterGrant hgroup hitem giver grant now
  have hcalm : ∀ key r, (s.afterGrant group item giver grant now).2.results.get? key = some r →
      r.progress ≠ .toBeRecomputed := by
    obtain ⟨grants, gen, hframe⟩ := s.afterGrant_frame group item giver grant now
    rw [hframe]
    intro key r hr
    rw [hdone key r hr]
    decide
  rw [giveGrant_eq hgroup hgiver hitem]
  generalize s.afterGrant group item giver grant now = after at hafter hcalm ⊢
  refine FailsFor.bind (fun fault hfault => ?_) fun _ _ => failsFor_ok _
  have hmark : ∀ (t : Store) (p : ResultKey → Bool), (t.Grounded ∧ ∀ key r,
      t.results.get? key = some r → r.progress ≠ .toBeRecomputed) →
      (t.markResults p .toBePropagated).2.Grounded ∧ ∀ key r,
        (t.markResults p .toBePropagated).2.results.get? key = some r →
          r.progress ≠ .toBeRecomputed := by
    rintro t p ⟨ht, hcalm⟩
    refine ⟨ht.markResults p _, fun key r hr => ?_⟩
    obtain ⟨old, hold, rfl⟩ := Table.get?_map_eq_some.1 hr
    split
    · simp
    · exact hcalm key old hold
  obtain ⟨hmarked, hcalm'⟩ := markBelow_keeps hmark ⟨hafter, hcalm⟩ now after.1.newlyVisible.keys
  obtain ⟨hcause, key, hkey⟩ := missesRow_propagateResults hmarked
    (fun key r hr hdue => absurd hdue (hcalm' key r hr)) fault hfault
  exact ⟨hcause, key, hkey.of_resultsGrow (resultsGrow_markBelow after.2 now _)⟩

theorem giveGrant_fails (hs : s.Grounded) (hdone : s.AllDone)
    (hgroup : s.groups.contains group = true) (hgiver : s.groups.contains giver = true)
    (hitem : s.items.contains item = true) {src : ResultKey} (hannounces : s.Announces src key)
    (hdangles : (s.afterGrant group item giver grant now).2.Dangles now key) {seer : GroupId}
    (hvisible : (s.afterGrant group item giver grant now).1.newlyVisible.contains (seer, key.item) =
      true)
    (habove : s.isAncestorAt seer key.participant now = true) :
    ∃ fault, s.giveGrant group item giver grant now = .error fault := by
  have hafter := hs.afterGrant hgroup hitem giver grant now
  obtain ⟨grants, gen, hframe⟩ := s.afterGrant_frame group item giver grant now
  rw [giveGrant_eq hgroup hgiver hitem]
  generalize s.afterGrant group item giver grant now = after at *
  obtain ⟨outcome, t⟩ := after
  obtain rfl : t = { s with grants := grants, generated := gen } := hframe
  have hgrow := resultsGrow_markBelow { s with grants := grants, generated := gen } now
    outcome.newlyVisible.keys
  have hannounces' : Announces { s with grants := grants, generated := gen } src key :=
    ⟨hannounces.stored, hannounces.participant, hannounces.link, hannounces.attempt⟩
  obtain ⟨r, hr⟩ := Table.contains_iff.1 hannounces.stored
  obtain ⟨fault, hfault⟩ := propagateResults_fails (hafter.toCoherent.resultsGrow hgrow)
    (mem_announcing_markBelow (Table.mem_keys.2 hvisible) hannounces.link
      (hannounces.participant ▸ habove) ⟨r, hr, by rw [hdone src r hr]; decide⟩)
    (hannounces'.resultsGrow hgrow) (hdangles.resultsGrow hgrow)
  exact ⟨fault, bind_eq_error.2 (Or.inl hfault)⟩

end Store

namespace Session

open Store

/-- After any run, a grant between stored rows succeeds, or it fails because a result that may be
created now belongs in an attempt that is not stored, although one that was started for a part of the
item belongs to that attempt. It does fail if the item is one that the grant makes visible and the
result on the part is stored. -/
theorem grant_succeeds_or_dangles (ids : IdSource) (clock : Timestamp) (policy : RetryPolicy)
    (steps : List Step) {s : Session} (hrun : s = (start ids clock policy).run steps)
    (group : GroupId) (item : ItemId) (giver : GroupId) (grant : Grant)
    (hgroup : s.committed.groups.contains group = true)
    (hgiver : s.committed.groups.contains giver = true)
    (hitem : s.committed.items.contains item = true) :
    ((∃ outcome, (s.perform (.grant group item giver grant)).1 = .ok (.permissions outcome)) ∨
      ((s.perform (.grant group item giver grant)).1 = .error (.unexpected (.broken .foreignKey)) ∧
        ∃ key, (s.committed.afterGrant group item giver grant s.clock).2.Dangles s.clock key)) ∧
    ∀ src key seer, s.committed.Announces src key →
      (s.committed.afterGrant group item giver grant s.clock).2.Dangles s.clock key →
      (s.committed.afterGrant group item giver grant s.clock).1.newlyVisible.contains
        (seer, key.item) = true →
      s.committed.isAncestorAt seer key.participant s.clock = true →
      (s.perform (.grant group item giver grant)).1 =
        .error (.unexpected (.broken .foreignKey)) := by
  subst hrun
  have hs := idle_run (idle_start ids clock policy) steps
  have hgrounded := grounded_run ids clock policy steps
  have hdone := allDone_run ids clock policy steps
  generalize (start ids clock policy).run steps = s at *
  have hfails := missesRow_giveGrant hgrounded hdone hgroup hgiver hitem grant s.clock
  have hbroken : ∀ fault, s.committed.giveGrant group item giver grant s.clock = .error fault →
      (s.perform (.grant group item giver grant)).1 = .error (.unexpected (.broken .foreignKey)) := by
    intro fault hfault
    obtain ⟨rfl, -⟩ := hfails fault hfault
    exact (perform_eq_error hs).2 (Reply.onSuccess_eq_error.2 hfault)
  refine ⟨?_, fun src key seer hannounces hdangles hvisible habove => ?_⟩
  · cases hout : s.committed.giveGrant group item giver grant s.clock with
    | error fault => exact Or.inr ⟨hbroken fault hout, (hfails fault hout).2⟩
    | ok out =>
      obtain ⟨outcome, t⟩ := out
      have hok : s.outcomeOf (.grant group item giver grant) = .ok (.permissions outcome, t) :=
        Reply.onSuccess_eq_ok.2 ⟨outcome, hout, rfl⟩
      exact Or.inl ⟨outcome, (perform_of_outcome hs hok).1⟩
  · obtain ⟨fault, hfault⟩ := giveGrant_fails hgrounded hdone hgroup hgiver hitem hannounces hdangles
      hvisible habove
    exact hbroken fault hfault

/-- Somebody starts an attempt on the part of an item that belongs to an attempt nobody started. -/
def partStartedForNone : List Step :=
  [ .call (.createGroup 1 ⟨"", .user, true, none, none, none⟩),
    .call (.createItem 10 .plain),
    .call (.createItem 11 .plain),
    .call (.createLink 10 11 .plain),
    .call (.createAttempt 1 none none),
    .call (.createAttempt 1 (some 11) (some 99)) ]

/-- The result that cannot be created is the one on the item, and the grant makes the item visible. -/
theorem dangles_partStartedForNone :
    ∃ key, (((start (.ofList []) .zero .standard).run partStartedForNone).committed.afterGrant 1 10 1
      ⟨.info, .none, .none, .none, false, .always⟩ .zero).2.Dangles .zero key := by
  have hrefused : (((start (.ofList []) .zero .standard).run partStartedForNone).perform
      (.grant 1 10 1 ⟨.info, .none, .none, .none, false, .always⟩)).1 =
        .error (.unexpected (.broken .foreignKey)) := by decide +kernel
  rcases (grant_succeeds_or_dangles (.ofList []) .zero .standard partStartedForNone rfl 1 10 1
      ⟨.info, .none, .none, .none, false, .always⟩ (by decide +kernel) (by decide +kernel)
      (by decide +kernel)).1 with ⟨outcome, hok⟩ | ⟨-, hkey⟩
  · rw [hrefused] at hok
    exact absurd hok (by simp)
  · exact hkey

/-- The attempt was started without complaint, and keeps everybody from being shown the item. -/
theorem refused_partStartedForNone :
    (((start (.ofList []) .zero .standard).run (partStartedForNone.take 5)).perform
        (.createAttempt 1 (some 11) (some 99))).1 = .ok (.attempt 1) ∧
      ((start (.ofList []) .zero .standard).run partStartedForNone).committed.groups.contains 1 =
        true ∧
      ((start (.ofList []) .zero .standard).run partStartedForNone).committed.items.contains 10 =
        true ∧
      (((start (.ofList []) .zero .standard).run partStartedForNone).perform
        (.grant 1 10 1 ⟨.info, .none, .none, .none, false, .always⟩)).1 =
          .error (.unexpected (.broken .foreignKey)) := by
  decide +kernel

end Session

end Courseware
