import Courseware.Proofs.Tiers
import Mathlib.Tactic.Common

/-!
# The level in effect at a time

The level of a component at a time is the highest among its tiers in effect. A tier that covers
another one is in effect whenever that one is, so normalizing changes no level; and at every time
the level that passes along a link follows from the level at its upper end, being grayed excepted.
Levels of different access are compared by their ranks (`Levels.Below`).
-/

namespace Courseware

namespace Tier

variable {tiers tiers' : List Tier} {now : Timestamp}

theorem levelAt_le_iff {n : Nat} :
    levelAt tiers now ≤ n ↔ ∀ t ∈ tiers, t.isActive now = true → t.level ≤ n := by
  rw [levelAt]
  induction tiers with
  | nil => simp
  | cons t rest ih =>
    rw [List.filter_cons, List.forall_mem_cons, ← ih]
    split
    · rename_i hactive
      rw [List.foldr_cons, Nat.max_le]
      exact and_congr_left fun _ => ⟨fun h _ => h, fun h => h hactive⟩
    · rename_i hactive
      exact ⟨fun h => ⟨fun hnow => absurd hnow hactive, h⟩, And.right⟩

theorem level_le_levelAt {t : Tier} (h : t ∈ tiers) (hactive : t.isActive now = true) :
    t.level ≤ levelAt tiers now :=
  levelAt_le_iff.1 (Nat.le_refl _) t h hactive

/-- The level is that of a tier in effect, unless there is none. -/
theorem exists_of_levelAt_ne_zero (h : levelAt tiers now ≠ 0) :
    ∃ t ∈ tiers, t.isActive now = true ∧ t.level = levelAt tiers now := by
  by_contra hno
  have hlt : levelAt tiers now ≤ levelAt tiers now - 1 := by
    refine levelAt_le_iff.2 fun t ht hactive => ?_
    have hle := level_le_levelAt ht hactive
    have hne : t.level ≠ levelAt tiers now := fun heq => hno ⟨t, ht, hactive, heq⟩
    omega
  omega

/-- What is covered is in effect only together with what covers it. -/
theorem levelAt_staircase (tiers : List Tier) (now : Timestamp) :
    levelAt (staircase tiers) now = levelAt tiers now := by
  refine Nat.le_antisymm (levelAt_le_iff.2 fun t ht hactive => ?_)
    (levelAt_le_iff.2 fun t ht hactive => ?_)
  · exact level_le_levelAt (mem_of_mem_staircase ht) hactive
  · obtain ⟨u, hu, hcovers⟩ := exists_covers_staircase ht
    obtain ⟨hlevel, hsince⟩ := covers_iff.1 hcovers
    exact Nat.le_trans hlevel (level_le_levelAt hu (Activation.isActive_mono hsince hactive))

/-- If all levels from some level on are let through, the level is what it was or there is none. -/
theorem levelAt_filter {p : Nat → Bool} (hp : ∀ m n, m ≤ n → p m = true → p n = true)
    (tiers : List Tier) (now : Timestamp) :
    levelAt (tiers.filter fun t => p t.level) now =
      if p (levelAt tiers now) then levelAt tiers now else 0 := by
  split
  · rename_i hpass
    refine Nat.le_antisymm (levelAt_le_iff.2 fun t ht hactive => ?_) ?_
    · exact level_le_levelAt (List.mem_filter.1 ht).1 hactive
    · by_cases hzero : levelAt tiers now = 0
      · omega
      · obtain ⟨t, ht, hactive, heq⟩ := exists_of_levelAt_ne_zero hzero
        rw [← heq] at hpass ⊢
        exact level_le_levelAt (List.mem_filter.2 ⟨ht, hpass⟩) hactive
  · rename_i hstop
    refine Nat.le_zero.1 (levelAt_le_iff.2 fun t ht hactive => ?_)
    obtain ⟨hmem, hpass⟩ := List.mem_filter.1 ht
    exact absurd (hp _ _ (level_le_levelAt hmem hactive) hpass) hstop

end Tier

namespace Tiers

variable {t u : Tiers} {c : Component} {now : Timestamp}

theorem levelAt_normalize (t : Tiers) (c : Component) (now : Timestamp) :
    t.normalize.levelAt c now = t.levelAt c now := by
  rw [levelAt, get_normalize, Tier.levelAt_staircase, levelAt]

@[simp] theorem levelAt_empty (c : Component) (now : Timestamp) : (∅ : Tiers).levelAt c now = 0 := by
  rw [levelAt, get_empty]
  rfl

/-- Whether a level of a component passes along a link as it is. -/
def passes (mode : PartialAccess) : Component → Nat → Bool
  | .view, level =>
    decide (Level.rank CanView.contentWithDescendants ≤ level) ||
      (decide (level = Level.rank CanView.content) && decide (mode = .passes))
  | .grayed, _ => false
  | _, level => decide (level ≠ 0)

theorem passes_mono {mode : PartialAccess} {m n : Nat} (hle : m ≤ n)
    (h : passes mode c m = true) : passes mode c n = true := by
  cases c with
  | view =>
    simp only [passes, Level.rank, Bool.or_eq_true, Bool.and_eq_true, decide_eq_true_eq] at h ⊢
    rcases h with h | ⟨rfl, hmode⟩
    · exact Or.inl (by omega)
    · exact (Nat.lt_or_eq_of_le hle).imp id fun heq => ⟨heq.symm, hmode⟩
  | grayed => exact h
  | _ =>
    simp only [passes, decide_eq_true_eq] at h ⊢
    omega

theorem get_inherit (t : Tiers) (mode : PartialAccess) (hc : c ≠ .grayed) :
    (t.inherit mode).get c = (t.get c).filter fun tier => passes mode c tier.level := by
  rw [inherit, get_ofFn]
  cases c with
  | grayed => exact absurd rfl hc
  | _ => rfl

/-- The level passes if it is one that does; lower ones in effect then do not matter. -/
theorem levelAt_inherit (t : Tiers) (mode : PartialAccess) (hc : c ≠ .grayed) (now : Timestamp) :
    (t.inherit mode).levelAt c now =
      if passes mode c (t.levelAt c now) then t.levelAt c now else 0 := by
  rw [levelAt, get_inherit t mode hc, Tier.levelAt_filter fun _ _ => passes_mono]
  rfl

theorem levelAt_inherit_mono {mode : PartialAccess} (hc : c ≠ .grayed)
    (h : t.levelAt c now ≤ u.levelAt c now) :
    (t.inherit mode).levelAt c now ≤ (u.inherit mode).levelAt c now := by
  rw [levelAt_inherit t mode hc, levelAt_inherit u mode hc]
  split
  · rename_i hpass
    rw [if_pos (passes_mono h hpass)]
    exact h
  · exact Nat.zero_le _

end Tiers

/-! ### Ranks -/

/-- The rank of a level is its place among the levels of its kind. -/
class LawfulLevel (α : Type) [Level α] : Prop where
  mem_all : ∀ a : α, a ∈ (Vocabulary.all : List α)
  rank_get : ∀ n : Fin (Vocabulary.all : List α).length,
    Level.rank ((Vocabulary.all : List α).get n) = n

instance : LawfulLevel CanView := ⟨by intro a; cases a <;> decide, by decide⟩
instance : LawfulLevel CanGrantView := ⟨by intro a; cases a <;> decide, by decide⟩
instance : LawfulLevel CanWatch := ⟨by intro a; cases a <;> decide, by decide⟩
instance : LawfulLevel CanEdit := ⟨by intro a; cases a <;> decide, by decide⟩

namespace Level

variable {α : Type} [Level α]

theorem rank_max (a b : α) : rank (Level.max a b) = Nat.max (rank a) (rank b) := by
  rw [Level.max]
  split
  · rename_i hle
    exact (Nat.max_eq_right hle).symm
  · rename_i hle
    exact (Nat.max_eq_left (by omega)).symm

variable [LawfulLevel α]

theorem rank_inj {a b : α} (h : rank a = rank b) : a = b := by
  obtain ⟨m, rfl⟩ := List.mem_iff_get.1 (LawfulLevel.mem_all a)
  obtain ⟨n, rfl⟩ := List.mem_iff_get.1 (LawfulLevel.mem_all b)
  rw [LawfulLevel.rank_get, LawfulLevel.rank_get] at h
  rw [Fin.ext h]

/-- A rank above the highest means the highest. -/
theorem rank_ofRank (rank' : Nat) :
    rank (ofRank α rank') = min rank' ((Vocabulary.all : List α).length - 1) := by
  have hsome : 0 < (Vocabulary.all : List α).length :=
    List.length_pos_of_mem (LawfulLevel.mem_all (lowest : α))
  have hlt : min rank' ((Vocabulary.all : List α).length - 1) < (Vocabulary.all : List α).length := by
    omega
  rw [ofRank, ofRank?, List.getElem?_eq_getElem hlt, Option.getD_some]
  exact LawfulLevel.rank_get ⟨_, hlt⟩

theorem rank_ofRank_mono {m n : Nat} (h : m ≤ n) : rank (ofRank α m) ≤ rank (ofRank α n) := by
  rw [rank_ofRank, rank_ofRank]
  omega

end Level

namespace Levels

variable {a b c : Levels}

/-- All that the levels `a` allow the levels `b` allow too, being grayed aside. -/
structure Below (a b : Levels) : Prop where
  canView : Level.rank a.canView ≤ Level.rank b.canView
  canGrantView : Level.rank a.canGrantView ≤ Level.rank b.canGrantView
  canWatch : Level.rank a.canWatch ≤ Level.rank b.canWatch
  canEdit : Level.rank a.canEdit ≤ Level.rank b.canEdit
  isOwner : a.isOwner = true → b.isOwner = true

/-- The levels other than being grayed. -/
def ungrayed (a : Levels) : Levels := { a with isGrayed := false }

theorem Below.refl (a : Levels) : a.Below a :=
  ⟨Nat.le_refl _, Nat.le_refl _, Nat.le_refl _, Nat.le_refl _, id⟩

theorem Below.antisymm (hab : a.Below b) (hba : b.Below a) : a.ungrayed = b.ungrayed := by
  rw [ungrayed, ungrayed, mk.injEq]
  refine ⟨Level.rank_inj (Nat.le_antisymm hab.canView hba.canView),
    Level.rank_inj (Nat.le_antisymm hab.canGrantView hba.canGrantView),
    Level.rank_inj (Nat.le_antisymm hab.canWatch hba.canWatch),
    Level.rank_inj (Nat.le_antisymm hab.canEdit hba.canEdit),
    Bool.eq_iff_iff.2 ⟨hab.isOwner, hba.isOwner⟩, rfl⟩

theorem none_below (a : Levels) : none.Below a :=
  ⟨Nat.zero_le _, Nat.zero_le _, Nat.zero_le _, Nat.zero_le _, fun h => absurd h (by decide)⟩

theorem max_below_iff : (a.max b).Below c ↔ a.Below c ∧ b.Below c := by
  constructor
  · intro h
    have hview := h.canView
    have hgrant := h.canGrantView
    have hwatch := h.canWatch
    have hedit := h.canEdit
    have howner := h.isOwner
    simp only [max, Level.rank_max, Nat.max_le, Bool.or_eq_true] at hview hgrant hwatch hedit howner
    exact ⟨⟨hview.1, hgrant.1, hwatch.1, hedit.1, fun h => howner (Or.inl h)⟩,
      hview.2, hgrant.2, hwatch.2, hedit.2, fun h => howner (Or.inr h)⟩
  · rintro ⟨ha, hb⟩
    constructor
    · rw [max, Level.rank_max]
      exact Nat.max_le.2 ⟨ha.canView, hb.canView⟩
    · rw [max, Level.rank_max]
      exact Nat.max_le.2 ⟨ha.canGrantView, hb.canGrantView⟩
    · rw [max, Level.rank_max]
      exact Nat.max_le.2 ⟨ha.canWatch, hb.canWatch⟩
    · rw [max, Level.rank_max]
      exact Nat.max_le.2 ⟨ha.canEdit, hb.canEdit⟩
    · rw [max, Bool.or_eq_true]
      exact fun h => h.elim ha.isOwner hb.isOwner

theorem foldl_max_below_iff {all : List Levels} :
    (all.foldl max a).Below c ↔ a.Below c ∧ ∀ b ∈ all, b.Below c := by
  induction all generalizing a with
  | nil => simp
  | cons b rest ih => rw [List.foldl_cons, ih, max_below_iff, List.forall_mem_cons, and_assoc]

/-- More tiers in effect mean higher levels. -/
theorem ofTiers_below {t u : Tiers} {now : Timestamp}
    (h : ∀ c, c ≠ .grayed → t.levelAt c now ≤ u.levelAt c now) :
    (ofTiers t now).Below (ofTiers u now) := by
  constructor
  · exact Level.rank_ofRank_mono (h .view (by decide))
  · exact Level.rank_ofRank_mono (h .grantView (by decide))
  · exact Level.rank_ofRank_mono (h .watch (by decide))
  · exact Level.rank_ofRank_mono (h .edit (by decide))
  · have howner := h .isOwner (by decide)
    simp only [ofTiers, decide_eq_true_eq]
    omega

theorem ofTiers_empty (now : Timestamp) : ofTiers ∅ now = none := by
  simp only [ofTiers, Tiers.levelAt_empty]
  rfl

end Levels

end Courseware
