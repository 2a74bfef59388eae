import Courseware.Proofs.Due
import Courseware.Proofs.Frame

/-!
# Recomputing one pair

Recomputing a pair gives it the tiers that it is due, writes down the levels as of now, and concerns
no other pair than its heirs, these only if its tiers are new.
-/

namespace Courseware

namespace Store

variable {s : Store} {pair q : Pair} {now : Timestamp}

/-! ### Recomputing one pair -/

/-- Every row has a tier. -/
def RowsFilled (s : Store) : Prop :=
  ∀ pair g, s.generated.get? pair = some g → g.tiers.isEmpty = false

/-- The row of a pair with some tiers, looked at now; there is none without tiers. -/
def freshRow (tiers : Tiers) (now : Timestamp) : Option Generated :=
  if tiers.isEmpty then none else some ⟨.ofTiers tiers now, tiers, now⟩

theorem tiersOf_of_get? {g : Generated} (h : s.generated.get? pair = some g) :
    s.tiersOf pair = g.tiers := by
  rw [tiersOf, h]
  rfl

theorem tiersOf_of_none (h : s.generated.get? pair = none) : s.tiersOf pair = ∅ := by
  rw [tiersOf, h]
  rfl

theorem tiersOf_freshRow {tiers : Tiers} (h : s.generated.get? pair = freshRow tiers now) :
    s.tiersOf pair = tiers := by
  rw [freshRow] at h
  split at h
  · rename_i hempty
    rw [tiersOf_of_none h, Tiers.isEmpty_iff.1 hempty]
  · exact tiersOf_of_get? h

theorem get?_setTiers (s : Store) (pair q : Pair) (tiers : Tiers) (now : Timestamp) :
    (s.setTiers pair tiers now).generated.get? q =
      if q = pair then freshRow tiers now else s.generated.get? q := by
  rw [setTiers, freshRow]
  by_cases hq : q = pair
  · subst hq
    split <;> simp
  · rw [if_neg hq]
    split <;> simp [Ne.symm hq]

theorem get?_refresh (s : Store) (pair q : Pair) (now : Timestamp) :
    (s.refresh pair now).generated.get? q =
      if q = pair then (s.generated.get? pair).map fun g => ⟨.ofTiers g.tiers now, g.tiers, now⟩
      else s.generated.get? q := by
  rw [refresh, Table.get?_modify]
  by_cases hq : q = pair
  · subst hq
    simp
  · simp [hq, Ne.symm hq]

/-- Recomputing a pair writes no row but its own. -/
theorem get?_recomputePair_ne (hq : q ≠ pair) :
    (s.recomputePair pair now).2.generated.get? q = s.generated.get? q := by
  rw [recomputePair]
  cases s.generated.get? pair with
  | some g =>
    dsimp only
    split
    · rw [get?_refresh, if_neg hq]
    · rw [get?_setTiers, if_neg hq]
  | none =>
    dsimp only
    split
    · rfl
    · rw [get?_setTiers, if_neg hq]

/-- The tiers are new if they differ from those that are due, and are written with levels as of now
in either case. -/
theorem recomputePair_spec (hrows : s.RowsFilled) (pair : Pair) (now : Timestamp) :
    (s.recomputePair pair now).1 = decide (s.tiersOf pair ≠ s.dueTiers pair now) ∧
      ∀ q, (s.recomputePair pair now).2.generated.get? q =
        if q = pair then freshRow (s.dueTiers pair now) now else s.generated.get? q := by
  rw [recomputePair]
  cases hrow : s.generated.get? pair with
  | some g =>
    simp only [tiersOf_of_get? hrow]
    split
    · rename_i heq
      have hfilled : ¬ g.tiers.isEmpty = true := by rw [hrows pair g hrow]; simp
      refine ⟨by simp [heq], fun q => ?_⟩
      rw [get?_refresh, hrow, ← heq, freshRow, if_neg hfilled]
      rfl
    · rename_i hne
      exact ⟨by simp [hne], fun q => get?_setTiers s pair q _ now⟩
  | none =>
    simp only [tiersOf_of_none hrow]
    split
    · rename_i hempty
      have heq := Tiers.isEmpty_iff.1 hempty
      refine ⟨by simp [heq], fun q => ?_⟩
      rw [freshRow, if_pos hempty]
      split
      · rename_i hq
        rw [hq, hrow]
      · rfl
    · rename_i hfilled
      have hne : ∅ ≠ s.dueTiers pair now := fun heq => hfilled (Tiers.isEmpty_iff.2 heq.symm)
      exact ⟨by simp [hne], fun q => get?_setTiers s pair q _ now⟩

theorem get?_recomputePair_self (hrows : s.RowsFilled) (pair : Pair) (now : Timestamp) :
    (s.recomputePair pair now).2.generated.get? pair = freshRow (s.dueTiers pair now) now := by
  rw [(recomputePair_spec hrows pair now).2, if_pos rfl]

theorem tiersOf_recomputePair_self (hrows : s.RowsFilled) (pair : Pair) (now : Timestamp) :
    (s.recomputePair pair now).2.tiersOf pair = s.dueTiers pair now :=
  tiersOf_freshRow (get?_recomputePair_self hrows pair now)

theorem tiersOf_recomputePair_ne (hq : q ≠ pair) :
    (s.recomputePair pair now).2.tiersOf q = s.tiersOf q := by
  rw [tiersOf, tiersOf, get?_recomputePair_ne hq]

/-- A pair that is told as unchanged has the tiers that it had. -/
theorem tiersOf_recomputePair_unchanged (hrows : s.RowsFilled)
    (h : (s.recomputePair pair now).1 = false) (q : Pair) :
    (s.recomputePair pair now).2.tiersOf q = s.tiersOf q := by
  by_cases hq : q = pair
  · subst hq
    rw [(recomputePair_spec hrows q now).1, decide_eq_false_iff_not, Decidable.not_not] at h
    rw [tiersOf_recomputePair_self hrows, h]
  · exact tiersOf_recomputePair_ne hq

theorem RowsFilled.recomputePair (hrows : s.RowsFilled) (pair : Pair) (now : Timestamp) :
    (s.recomputePair pair now).2.RowsFilled := by
  intro q g hg
  by_cases hq : q = pair
  · subst hq
    rw [get?_recomputePair_self hrows, freshRow] at hg
    split at hg
    · simp at hg
    · rename_i hfilled
      obtain rfl := Option.some.inj hg
      simpa using hfilled
  · rw [get?_recomputePair_ne hq] at hg
    exact hrows q g hg

theorem Layered.recomputePair (h : s.Layered) (pair : Pair) (now : Timestamp) :
    (s.recomputePair pair now).2.Layered := by
  obtain ⟨gen, hgen⟩ := recomputePair_frame s pair now
  rw [hgen]
  exact h.congr rfl rfl

/-! ### Heirs -/

theorem mem_heirs :
    q ∈ PermissionRun.heirs s pair ↔
      q.1 = pair.1 ∧ ∃ item link row, s.items.get? pair.2 = some item ∧
        item.customChapter = false ∧ s.links.get? (pair.2, q.2) = some link ∧
        s.items.get? q.2 = some row := by
  rw [PermissionRun.heirs]
  constructor
  · intro h
    split at h
    · rename_i item hitem
      split at h
      · exact absurd h List.not_mem_nil
      · rename_i hcustom
        obtain ⟨⟨part, link, row⟩, hpart, rfl⟩ := List.mem_map.1 h
        obtain ⟨hlink, hrow⟩ := mem_partsOf.1 hpart
        exact ⟨rfl, item, link, row, hitem, by simpa using hcustom, hlink, hrow⟩
    · exact absurd h List.not_mem_nil
  · rintro ⟨hgroup, item, link, row, hitem, hcustom, hlink, hrow⟩
    rw [hitem]
    simp only [hcustom, Bool.false_eq_true, if_false]
    refine List.mem_map.2 ⟨(q.2, link, row), mem_partsOf.2 ⟨hlink, hrow⟩, ?_⟩
    rw [← hgroup]

theorem heirs_congr {t : Store} (hitems : s.items = t.items) (hlinks : s.links = t.links)
    (pair : Pair) : PermissionRun.heirs s pair = PermissionRun.heirs t pair := by
  rw [PermissionRun.heirs, PermissionRun.heirs, partsOf, partsOf, hitems, hlinks]

/-- Heirs are on lower items. -/
theorem Layered.height_heir_lt (h : s.Layered) (hq : q ∈ PermissionRun.heirs s pair) :
    s.height q.2 < s.height pair.2 := by
  obtain ⟨-, -, link, -, -, -, hlink, -⟩ := mem_heirs.1 hq
  exact h.height_lt (Table.contains_of_get? hlink)

theorem Layered.not_mem_heirs_self (h : s.Layered) (pair : Pair) :
    pair ∉ PermissionRun.heirs s pair :=
  fun hmem => absurd (h.height_heir_lt hmem) (Nat.lt_irrefl _)

/-- Recomputing a pair concerns no pair but the heirs, and those only if its tiers changed. -/
theorem dueTiers_recomputePair (hlayered : s.Layered) (hrows : s.RowsFilled)
    (hq : (s.recomputePair pair now).1 = true → q ∉ PermissionRun.heirs s pair)
    (later : Timestamp) :
    (s.recomputePair pair now).2.dueTiers q later = s.dueTiers q later := by
  obtain ⟨gen, hgen⟩ := recomputePair_frame s pair now
  have htiers : ∀ whole link item, s.links.get? (whole, q.2) = some link →
      s.items.get? whole = some item → item.customChapter = false →
      (s.recomputePair pair now).2.tiersOf (q.1, whole) = s.tiersOf (q.1, whole) := by
    intro whole link item hlink hitem hcustom
    cases hchanged : (s.recomputePair pair now).1 with
    | false => exact tiersOf_recomputePair_unchanged hrows hchanged _
    | true =>
      refine tiersOf_recomputePair_ne fun heq => hq hchanged ?_
      subst heq
      obtain ⟨row, hrow⟩ := Table.contains_iff.1
        (hlayered.links _ (Table.contains_of_get? hlink)).2
      exact mem_heirs.2 ⟨rfl, item, link, row, hitem, hcustom, hlink, hrow⟩
  refine dueTiers_congr (fun c tier => ?_) fun c tier => ?_
  · rw [hgen]
    exact Iff.rfl
  · have hlinks : (s.recomputePair pair now).2.links = s.links := by rw [hgen]
    have hitems : (s.recomputePair pair now).2.items = s.items := by rw [hgen]
    rw [Inherited, Inherited, hlinks, hitems]
    constructor
    · rintro ⟨whole, link, item, hlink, hitem, hcustom, htier⟩
      rw [htiers whole link item hlink hitem hcustom] at htier
      exact ⟨whole, link, item, hlink, hitem, hcustom, htier⟩
    · rintro ⟨whole, link, item, hlink, hitem, hcustom, htier⟩
      rw [← htiers whole link item hlink hitem hcustom] at htier
      exact ⟨whole, link, item, hlink, hitem, hcustom, htier⟩

/-- The row of the pair is what recomputing it now would write. -/
def Fresh (s : Store) (now : Timestamp) (pair : Pair) : Prop :=
  s.generated.get? pair = freshRow (s.dueTiers pair now) now

theorem fresh_recomputePair (hlayered : s.Layered) (hrows : s.RowsFilled) (pair : Pair)
    (now : Timestamp) : (s.recomputePair pair now).2.Fresh now pair := by
  rw [Fresh, dueTiers_recomputePair hlayered hrows fun _ => hlayered.not_mem_heirs_self pair]
  exact get?_recomputePair_self hrows pair now

end Store

end Courseware
