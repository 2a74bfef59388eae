import Courseware.Proofs.Concern

/-!
# What rows tell

A row tells what its pair was due when it was last looked at, and still is by the present tiers of
the pairs above it; where there is no row, nothing is due (`RowSound`). Rows are looked at now and
then, each at its own time, and in between only the ends of ancestors can take something away. All
rows stay sound whatever is changed, as long as no group is deleted (`dueLaw_rowSound`).
-/

namespace Courseware

namespace Store

variable {s t : Store} {q : Pair} {now later : Timestamp}

/-- What is stored for the pair was right when it was last looked at, and is still if ends of
ancestors are left aside. -/
structure RowSound (s : Store) (now : Timestamp) (q : Pair) : Prop where
  filled : ∀ row, s.generated.get? q = some row → row.tiers.isEmpty = false
  tiers : ∀ row, s.generated.get? q = some row → row.tiers = s.dueTiers q row.computedAt
  levels : ∀ row, s.generated.get? q = some row → row.levels = .ofTiers row.tiers row.computedAt
  computedAt : ∀ row, s.generated.get? q = some row → row.computedAt ≤ now
  bare : s.generated.get? q = none → s.dueTiers q now = ∅

def Sound (s : Store) (now : Timestamp) : Prop := ∀ q, s.RowSound now q

theorem RowSound.congr (h : s.RowSound now q) (hrow : t.generated.get? q = s.generated.get? q)
    (hdue : ∀ later, t.dueTiers q later = s.dueTiers q later) : t.RowSound now q := by
  constructor
  · rw [hrow]
    exact h.filled
  · simp only [hrow, hdue]
    exact h.tiers
  · rw [hrow]
    exact h.levels
  · rw [hrow]
    exact h.computedAt
  · rw [hrow, hdue]
    exact h.bare

theorem RowSound.mono (h : s.RowSound now q) (hle : now ≤ later) : s.RowSound later q := by
  refine ⟨h.filled, h.tiers, h.levels, fun row hrow => ?_, fun hnone => ?_⟩
  · exact (h.computedAt row hrow).trans hle
  · exact dueTiers_empty_mono hle (h.bare hnone)

theorem Fresh.rowSound (h : s.Fresh now q) : s.RowSound now q := by
  rw [Fresh, freshRow] at h
  split at h
  · rename_i hempty
    refine ⟨fun row hrow => ?_, fun row hrow => ?_, fun row hrow => ?_, fun row hrow => ?_,
      fun _ => Tiers.isEmpty_iff.1 hempty⟩
    all_goals simp [h] at hrow
  · rename_i hfilled
    refine ⟨fun row hrow => ?_, fun row hrow => ?_, fun row hrow => ?_, fun row hrow => ?_,
      fun hnone => ?_⟩
    · obtain rfl := Option.some.inj (h.symm.trans hrow)
      simpa using hfilled
    · obtain rfl := Option.some.inj (h.symm.trans hrow)
      rfl
    · obtain rfl := Option.some.inj (h.symm.trans hrow)
      rfl
    · obtain rfl := Option.some.inj (h.symm.trans hrow)
      exact le_rfl
    · simp [h] at hnone

theorem dueLaw_rowSound (now : Timestamp) : DueLaw now fun s q => s.RowSound now q where
  fresh h := h.rowSound
  congr h hrow hdue := h.congr hrow hdue
  filled h hrow := h.filled _ hrow
  bare h hnone := h.bare hnone

theorem Sound.rowsFilled (h : s.Sound now) : s.RowsFilled := fun q => (h q).filled

theorem sound_empty (now : Timestamp) : Store.empty.Sound now := by
  intro q
  refine (fresh_of_none rfl ?_).rowSound
  rw [dueTiers_eq_empty]
  intro c tier
  constructor
  · rintro ⟨k, grant, hget, -⟩
    simp [Store.empty] at hget
  · rintro ⟨whole, link, item, hlink, -⟩
    simp [Store.empty] at hlink

end Store

end Courseware
