import Courseware.Proofs.Fixpoint
import Courseware.Proofs.ItemGraph

/-!
# What the working out of permissions reports

A pair may be looked at, written, removed and written again several times before permissions are
worked out, and every time it is compared with what it had just before. All the same nothing is
missed: what a step reports, put together with what was reported before, accounts for all that is
different from the beginning (`Reports.merge`, `Reports.visit`). So the outcome names all pairs that
show information in the end and did not at first, and all whose tiers are different; where no item is
part of itself the end is reached (`ItemsAcyclic.reports`).
-/

namespace Courseware

namespace Store

variable {s t u : Store} {pair q : Pair} {now : Timestamp}

/-- The tiers stored for a pair, if there is a row. -/
def tiers? (s : Store) (q : Pair) : Option Tiers := (s.generated.get? q).map (·.tiers)

/-- The outcome names all pairs that show information in the second store and not in the first, and
all pairs with other tiers, or a row in one of them only. -/
structure Reports (s t : Store) (outcome : PermissionOutcome) : Prop where
  visible : ∀ q, s.showsInfo q = false → t.showsInfo q = true →
    outcome.newlyVisible.contains q = true
  changed : ∀ q, t.tiers? q ≠ s.tiers? q → outcome.changed.contains q = true

theorem Reports.refl (s : Store) (outcome : PermissionOutcome) : s.Reports s outcome := by
  constructor
  · intro q hbefore hafter
    exact absurd hafter (by simp [hbefore])
  · intro q hne
    exact absurd rfl hne

/-- What is different in the end was different half-way or has become so since. -/
theorem Reports.merge {first second : PermissionOutcome} (hst : s.Reports t first)
    (htu : t.Reports u second) : s.Reports u (first.merge second) := by
  constructor
  · intro q hbefore hafter
    rw [PermissionOutcome.merge, KeySet.contains_union, Bool.or_eq_true]
    cases hhalfway : t.showsInfo q with
    | false => exact Or.inl (htu.visible q hhalfway hafter)
    | true => exact Or.inr (hst.visible q hbefore hhalfway)
  · intro q hne
    rw [PermissionOutcome.merge, KeySet.contains_union, Bool.or_eq_true]
    by_cases hsame : t.tiers? q = s.tiers? q
    · exact Or.inl (htu.changed q (hsame ▸ hne))
    · exact Or.inr (hst.changed q hsame)

/-! ### Recomputing -/

theorem showsInfo_congr (h : t.generated.get? q = s.generated.get? q) :
    t.showsInfo q = s.showsInfo q := by
  rw [showsInfo, showsInfo, h]

theorem tiers?_congr (h : t.generated.get? q = s.generated.get? q) : t.tiers? q = s.tiers? q := by
  rw [tiers?, tiers?, h]

/-- The levels that a pair has after it is recomputed are those of the tiers it is due. -/
theorem levels_recomputePair {row : Generated}
    (h : (s.recomputePair pair now).2.generated.get? pair = some row) :
    row.levels = .ofTiers (s.dueTiers pair now) now := by
  rw [recomputePair] at h
  cases hrow : s.generated.get? pair with
  | none =>
    simp only [hrow] at h
    split at h
    · rw [hrow] at h
      exact absurd h (by simp)
    · rw [get?_setTiers, if_pos rfl, freshRow, if_neg (by assumption)] at h
      rw [← Option.some.inj h]
  | some old =>
    simp only [hrow] at h
    split at h
    · rename_i hsame
      rw [get?_refresh, if_pos rfl, hrow] at h
      rw [← hsame, ← Option.some.inj h]
    · rw [get?_setTiers, if_pos rfl, freshRow] at h
      split at h
      · exact absurd h (by simp)
      · rw [← Option.some.inj h]

/-- A pair that is told as unchanged has the tiers that it had, and a row if it had one. -/
theorem tiers?_recomputePair (h : (s.recomputePair pair now).1 = false) (q : Pair) :
    (s.recomputePair pair now).2.tiers? q = s.tiers? q := by
  by_cases hq : q = pair
  · subst hq
    rw [recomputePair] at h ⊢
    cases hrow : s.generated.get? q with
    | none =>
      simp only [hrow] at h ⊢
      split at h
      · rw [if_pos (by assumption)]
      · exact absurd h (by simp)
    | some old =>
      simp only [hrow] at h ⊢
      split at h
      · rw [if_pos (by assumption), tiers?, get?_refresh, if_pos rfl, Option.map_map, tiers?]
        rfl
      · exact absurd h (by simp)
  · exact tiers?_congr (get?_recomputePair_ne hq)

/-- What shows information after it is recomputed did so before or is about to. -/
theorem becomesVisible_of_showsInfo (hbefore : s.showsInfo pair = false)
    (hafter : (s.recomputePair pair now).2.showsInfo pair = true) :
    s.becomesVisible pair now = true := by
  rw [showsInfo, Option.any_eq_true] at hafter
  obtain ⟨row, hrow, hvisible⟩ := hafter
  rw [levels_recomputePair hrow] at hvisible
  rw [becomesVisible, hvisible, hbefore]
  rfl

end Store

namespace PermissionRun

open Store

variable {r : PermissionRun} {now : Timestamp}

theorem contains_newlyVisible_visit (r : PermissionRun) (pair q : Pair) :
    (r.visit now pair).outcome.newlyVisible.contains q = true ↔
      (q = pair ∧ r.store.becomesVisible pair now = true) ∨
        r.outcome.newlyVisible.contains q = true := by
  rw [visit]
  cases hvisible : r.store.becomesVisible pair now with
  | false => simp
  | true => simp [eq_comm (a := q)]

theorem contains_changed_visit (r : PermissionRun) (pair q : Pair) :
    (r.visit now pair).outcome.changed.contains q = true ↔
      (q = pair ∧ (r.store.recomputePair pair now).1 = true) ∨
        r.outcome.changed.contains q = true := by
  rw [visit]
  cases hchanged : (r.store.recomputePair pair now).1 with
  | false => simp [hchanged]
  | true => simp [hchanged, eq_comm (a := q)]

end PermissionRun

namespace Store

variable {s : Store} {now : Timestamp} {r : PermissionRun}

/-- What is reported of one recomputed pair is put to what was reported before. -/
theorem Reports.visit (h : s.Reports r.store r.outcome) (pair : Pair) :
    s.Reports (r.visit now pair).store (r.visit now pair).outcome := by
  constructor
  · intro q hbefore hafter
    rw [PermissionRun.contains_newlyVisible_visit]
    cases hhalfway : r.store.showsInfo q with
    | true => exact Or.inr (h.visible q hbefore hhalfway)
    | false =>
      by_cases hq : q = pair
      · subst hq
        exact Or.inl ⟨rfl, becomesVisible_of_showsInfo hhalfway hafter⟩
      · rw [PermissionRun.visit_store, showsInfo_congr (get?_recomputePair_ne hq), hhalfway] at hafter
        exact absurd hafter (by simp)
  · intro q hne
    rw [PermissionRun.contains_changed_visit]
    by_cases hsame : r.store.tiers? q = s.tiers? q
    · rw [← hsame, PermissionRun.visit_store] at hne
      have hq : q = pair := by
        by_contra hother
        exact hne (tiers?_congr (get?_recomputePair_ne hother))
      cases hchanged : (r.store.recomputePair pair now).1 with
      | true => exact Or.inl ⟨hq, rfl⟩
      | false => exact absurd (tiers?_recomputePair hchanged q) hne
    · exact Or.inr (h.changed q hsame)

theorem Reports.visits (pairs : List Pair) (h : s.Reports r.store r.outcome) :
    s.Reports (pairs.foldl (PermissionRun.visit now) r).store
      (pairs.foldl (PermissionRun.visit now) r).outcome := by
  induction pairs generalizing r with
  | nil => exact h
  | cons pair rest ih => exact ih (h.visit pair)

theorem Reports.pass (h : s.Reports r.store r.outcome) :
    s.Reports (r.pass now).store (r.pass now).outcome := by
  rw [PermissionRun.pass_store, PermissionRun.pass_outcome]
  exact Reports.visits _ h

theorem Reports.ends {w : Worklist Pair} (h : PermissionRun.Ends now ⟨s, w, .none⟩ r) :
    s.Reports r.store r.outcome :=
  h.keeps (Q := fun t => s.Reports t.store t.outcome) (fun _ ht => ht.pass) (.refl s .none)

/-! ### Looking at rows again -/

theorem tiers?_refresh (s : Store) (pair q : Pair) (now : Timestamp) :
    (s.refresh pair now).tiers? q = s.tiers? q := by
  by_cases hq : q = pair
  · subst hq
    rw [tiers?, get?_refresh, if_pos rfl, Option.map_map, tiers?]
    rfl
  · apply tiers?_congr
    rw [get?_refresh, if_neg hq]

theorem contains_newlyVisible_refreshAll (s : Store) (pair q : Pair) (rest : List Pair) :
    (s.refreshAll now (pair :: rest)).1.contains q = true ↔
      (q = pair ∧ (s.refresh pair now).showsInfo pair = true ∧ s.showsInfo pair = false) ∨
        ((s.refresh pair now).refreshAll now rest).1.contains q = true := by
  rw [refreshAll]
  cases (s.refresh pair now).showsInfo pair with
  | false => simp
  | true =>
    cases s.showsInfo pair with
    | false => simp [eq_comm (a := q)]
    | true => simp

/-- Looking at rows again changes no tiers, and names what has come to show information. -/
theorem reports_refreshAll (s : Store) (now : Timestamp) (pairs : List Pair) :
    s.Reports (s.refreshAll now pairs).2 ⟨0, ∅, (s.refreshAll now pairs).1⟩ := by
  induction pairs generalizing s with
  | nil => exact .refl s _
  | cons pair rest ih =>
    have hrest := ih (s.refresh pair now)
    constructor
    · intro q hbefore hafter
      rw [contains_newlyVisible_refreshAll]
      cases hhalfway : (s.refresh pair now).showsInfo q with
      | false => exact Or.inr (hrest.visible q hhalfway hafter)
      | true =>
        have hq : q = pair := by
          by_contra hother
          have hkept : (s.refresh pair now).showsInfo q = s.showsInfo q :=
            showsInfo_congr (by rw [get?_refresh, if_neg hother])
          exact absurd (hhalfway.symm.trans (hkept.trans hbefore)) (by simp)
        subst hq
        exact Or.inl ⟨rfl, hhalfway, hbefore⟩
    · intro q hne
      rw [← tiers?_refresh s pair q now] at hne
      exact hrest.changed q hne

/-! ### Coming to an end -/

theorem ItemsAcyclic.height_heir_lt (h : s.ItemsAcyclic) {p q : Pair}
    (hq : q ∈ PermissionRun.heirs s p) : s.height q.2 < s.height p.2 := by
  obtain ⟨-, _, link, row, -, -, hlink, hrow⟩ := mem_heirs.1 hq
  have hpart : s.HasPart p.2 q.2 := Table.contains_of_get? hlink
  apply height_lt_of_link hpart (Table.contains_of_get? hrow)
  intro e hback
  have hpath : Relation.ReflTransGen s.HasPart q.2 p.2 := by
    rw [← leads_linkNetwork, ← Network.exists_walk_iff]
    exact ⟨e, hback⟩
  exact h p.2 (.head' hpart hpath)

/-- Where no item is part of itself, working out permissions comes to an end for any marks at any
time, and so does a sweep. Each then reports all that it has made visible and all that it has
changed. -/
theorem ItemsAcyclic.reports (h : s.ItemsAcyclic) (now : Timestamp) :
    (∀ w, ∃ r, PermissionRun.Ends now ⟨s, w, .none⟩ r ∧
        s.propagatePermissions w now = (r.outcome, r.store) ∧ s.Reports r.store r.outcome) ∧
      ∃ r, PermissionRun.Ends now ⟨(s.refreshAll now (s.pairsWithActivation now)).2,
          .ofKeys (s.pairsWithExpiredAncestor now), .none⟩ r ∧
        (s.sweepPermissions now).2 = r.store ∧
        s.Reports (s.sweepPermissions now).2 (s.sweepPermissions now).1 := by
  constructor
  · intro w
    obtain ⟨r, hends, heq⟩ := ends_propagatePermissions (fun _ _ => h.height_heir_lt) w now
    exact ⟨r, hends, heq, .ends hends⟩
  · obtain ⟨gen, hgen⟩ := refreshAll_frame s now (s.pairsWithActivation now)
    have hacyclic : (s.refreshAll now (s.pairsWithActivation now)).2.ItemsAcyclic := by
      rw [hgen]
      exact h
    have hrefreshed := reports_refreshAll s now (s.pairsWithActivation now)
    obtain ⟨r, hends, heq⟩ := ends_propagatePermissions (fun _ _ => hacyclic.height_heir_lt)
      (.ofKeys (s.pairsWithExpiredAncestor now)) now
    have hsweep : s.sweepPermissions now =
        (.merge ⟨0, ∅, (s.refreshAll now (s.pairsWithActivation now)).1⟩ r.outcome, r.store) := by
      rw [sweepPermissions]
      simp only [heq]
    rw [hsweep]
    exact ⟨r, hends, rfl, hrefreshed.merge (.ends hends)⟩

end Store

namespace Session

open Store

/-- Access to an item with one part, from a time that has not come. -/
def laterAccess : List Step :=
  [ .call (.createGroup 1 ⟨"", .other, true, none, none, none⟩),
    .call (.createItem 10 .plain),
    .call (.createItem 11 .plain),
    .call (.createLink 10 11 .plain),
    .call (.grant 1 10 1 ⟨.contentWithDescendants, .none, .none, .none, false, .date ⟨100⟩⟩) ]

/-- A sweep at that time names the part as well. -/
theorem reports_laterAccess :
    ((start (.ofList []) .zero .standard).run laterAccess).committed.ItemsAcyclic ∧
      (((start (.ofList []) .zero .standard).run laterAccess).committed.sweepPermissions
        ⟨100⟩).1.newlyVisible.contains (1, 11) = true := by
  have hacyclic := (coherent_run (.ofList []) .zero .standard laterAccess).toLayered.itemsAcyclic
  obtain ⟨r, -, -, hreports⟩ := (hacyclic.reports ⟨100⟩).2
  refine ⟨hacyclic, hreports.visible (1, 11) ?_ ?_⟩
  · decide +kernel
  · decide +kernel

end Session

end Courseware
