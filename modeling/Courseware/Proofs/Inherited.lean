import Courseware.Proofs.Levels

/-!
# Access passed along a link

What passes along a link at a time follows from the levels at its upper end at that time, and the
dates from which these are in effect do not matter, except for being grayed (`ofTiers_inherit`): tiers
do not end, so along a graying link a part stays grayed for those to whom the whole was once shown
partially, also when all of it is shown to them in the end (`grayedOnce_not_grayed`). Below the
level of such full access being grayed follows from the view level as well, so those with the same
levels on the whole inherit the same ones unless only one of them had partial access before
(`ofTiers_inherit_eq_iff`).
-/

namespace Courseware

namespace Activation

variable {a : Activation} {now : Timestamp}

/-- What has begun did so at some time, and all else that had begun by then began no later. -/
theorem exists_start (h : a.isActive now = true) :
    ∃ start, start ≤ now ∧ a.isActive start = true ∧
      ∀ b, b ≠ date Timestamp.earliest → b.isActive start = true → b ≤ a := by
  cases a with
  | always =>
    exact ⟨.earliest, Timestamp.le_iff_toInt_le.2 now.toInt_earliest_le, rfl,
      fun b hdated hactive => (eq_always_of_isActive hdated hactive).le⟩
  | date start =>
    exact ⟨start, of_decide_eq_true h, isActive_iff.2 le_rfl,
      fun b _ hactive => isActive_iff.1 hactive⟩

end Activation

namespace Tiers

variable {t : Tiers} {now : Timestamp}

/-- Access to the content alone is in effect, be it below a higher level. -/
def HasPartial (t : Tiers) (now : Timestamp) : Prop :=
  ∃ tier ∈ t.view, tier.level = Level.rank CanView.content ∧ tier.isActive now = true

instance (t : Tiers) (now : Timestamp) : Decidable (t.HasPartial now) :=
  inferInstanceAs (Decidable (∃ tier ∈ t.view, _))

theorem level_le_levelAt_view {tier : Tier} (htier : tier ∈ t.view)
    (hactive : tier.isActive now = true) : tier.level ≤ t.levelAt .view now :=
  Tier.level_le_levelAt htier hactive

theorem grayed_inherit_iff {mode : PartialAccess} :
    0 < (t.inherit mode).levelAt .grayed now ↔ mode = .grays ∧ t.HasPartial now := by
  have hget : (t.inherit mode).get .grayed =
      if mode = .grays then
        (t.view.filter fun tier => decide (tier.level = Level.rank CanView.content)).map
          fun tier => ⟨1, tier.since⟩
      else [] := rfl
  rw [levelAt, hget]
  by_cases hmode : mode = .grays
  · rw [if_pos hmode, ← not_iff_not, Nat.not_lt, Tier.levelAt_le_iff]
    constructor
    · rintro hnone ⟨-, tier, htier, hlevel, hactive⟩
      have hpartial : tier ∈ t.view.filter fun tier =>
          decide (tier.level = Level.rank CanView.content) :=
        List.mem_filter.2 ⟨htier, decide_eq_true hlevel⟩
      exact absurd (hnone _ (List.mem_map.2 ⟨tier, hpartial, rfl⟩) hactive) (Nat.not_succ_le_zero 0)
    · intro hno grayed hgrayed hactive
      obtain ⟨tier, htier, rfl⟩ := List.mem_map.1 hgrayed
      obtain ⟨hview, hlevel⟩ := List.mem_filter.1 htier
      exact absurd ⟨hmode, tier, hview, of_decide_eq_true hlevel, hactive⟩ hno
  · rw [if_neg hmode]
    exact ⟨fun h => absurd h (Nat.lt_irrefl 0), fun h => absurd h.1 hmode⟩

/-- Unless more than partial access is in effect, the view level tells whether that is. -/
theorem hasPartial_iff_of_levelAt_le (hle : t.levelAt .view now ≤ Level.rank CanView.content) :
    t.HasPartial now ↔ t.levelAt .view now = Level.rank CanView.content := by
  constructor
  · rintro ⟨tier, htier, hlevel, hactive⟩
    exact Nat.le_antisymm hle (hlevel ▸ level_le_levelAt_view htier hactive)
  · intro heq
    have hsome : Tier.levelAt (t.get .view) now ≠ 0 := by
      rw [← levelAt, heq]
      decide
    obtain ⟨tier, htier, hactive, hlevel⟩ := Tier.exists_of_levelAt_ne_zero hsome
    exact ⟨tier, htier, hlevel.trans heq, hactive⟩

/-- In normalized access without a tier from the earliest time on, partial access is in effect below
a higher level exactly if it was the highest at some time before. -/
theorem hasPartial_normalize_iff
    (hdated : ∀ tier ∈ t.view, tier.since ≠ .date Timestamp.earliest) :
    t.normalize.HasPartial now ↔
      ∃ earlier, earlier ≤ now ∧ t.levelAt .view earlier = Level.rank CanView.content := by
  constructor
  · rintro ⟨tier, htier, hlevel, hactive⟩
    obtain ⟨hmem, huncovered⟩ := Tier.mem_staircase_iff.1 htier
    obtain ⟨start, hle, hstart, hfirst⟩ := Activation.exists_start hactive
    refine ⟨start, hle, Nat.le_antisymm (Tier.levelAt_le_iff.2 fun other hother hother' => ?_) ?_⟩
    · -- Whatever is in effect when the tier begins would cover it if it were higher.
      by_contra hhigher
      have hsame := huncovered other hother
        (Tier.covers_iff.2 ⟨by omega, hfirst other.since (hdated other hother) hother'⟩)
      exact hhigher (hsame ▸ Nat.le_of_eq hlevel)
    · rw [← hlevel]
      exact level_le_levelAt_view hmem hstart
  · rintro ⟨earlier, hle, hlevel⟩
    rw [← levelAt_normalize] at hlevel
    obtain ⟨tier, htier, hpartial, hactive⟩ :=
      (hasPartial_iff_of_levelAt_le (Nat.le_of_eq hlevel)).2 hlevel
    exact ⟨tier, htier, hpartial, Activation.isActive_of_le hle hactive⟩

end Tiers

namespace Levels

variable {t u : Tiers} {mode : PartialAccess} {now : Timestamp}

/-- What of some levels passes along a link. Whether the part is grayed depends on whether partial
access is in effect, be it below a higher level. -/
def handedOn (l : Levels) (mode : PartialAccess) (hasPartial : Bool) : Levels :=
  { l with
    canView := if Tiers.passes mode .view (Level.rank l.canView) then l.canView else .none
    isGrayed := decide (mode = .grays) && hasPartial }

theorem passes_rank_ofRank (mode : PartialAccess) (level : Nat) :
    Tiers.passes mode .view (Level.rank (Level.ofRank CanView level)) =
      Tiers.passes mode .view level := by
  rw [Level.rank_ofRank, Bool.eq_iff_iff]
  simp only [Tiers.passes, Level.rank, Vocabulary.all, List.length_cons, List.length_nil,
    Bool.or_eq_true, Bool.and_eq_true, decide_eq_true_eq]
  by_cases hmode : mode = .passes
  · simp only [hmode, and_true]
    omega
  · simp only [hmode, and_false, or_false]
    omega

/-- What is handed on at a time follows from the levels at that time, being grayed excepted. -/
theorem ofTiers_inherit (t : Tiers) (mode : PartialAccess) (now : Timestamp) :
    ofTiers (t.inherit mode) now = (ofTiers t now).handedOn mode (t.HasPartial now) := by
  have hothers : ∀ c, c ≠ .view → c ≠ .grayed →
      (t.inherit mode).levelAt c now = t.levelAt c now := by
    intro c hview hgrayed
    rw [Tiers.levelAt_inherit t mode hgrayed]
    split
    · rfl
    · rename_i hstop
      cases c <;> simp_all [Tiers.passes]
  rw [handedOn, ofTiers, mk.injEq]
  refine ⟨?_, ?_, ?_, ?_, ?_, ?_⟩
  · rw [Tiers.levelAt_inherit t mode (by decide), ofTiers, passes_rank_ofRank]
    split
    · rfl
    · rfl
  · rw [hothers .grantView (by decide) (by decide)]
    rfl
  · rw [hothers .watch (by decide) (by decide)]
    rfl
  · rw [hothers .edit (by decide) (by decide)]
    rfl
  · rw [hothers .isOwner (by decide) (by decide)]
    rfl
  · rw [Bool.eq_iff_iff, Bool.and_eq_true, decide_eq_true_eq, decide_eq_true_eq, decide_eq_true_eq]
    exact Tiers.grayed_inherit_iff

theorem handedOn_eq_iff {l : Levels} {a b : Bool} :
    l.handedOn mode a = l.handedOn mode b ↔ (mode = .grays → a = b) := by
  rw [handedOn, handedOn, mk.injEq]
  by_cases hmode : mode = .grays
  · simp [hmode]
  · simp [hmode]

/-- As long as no more than the content is shown, the view level is the one of the tiers. -/
theorem levelAt_view_eq (hle : Level.rank (ofTiers t now).canView ≤ Level.rank CanView.content) :
    t.levelAt .view now = Level.rank (ofTiers t now).canView := by
  have hrank : Level.rank (ofTiers t now).canView = min (t.levelAt .view now) 4 :=
    Level.rank_ofRank (α := CanView) _
  have hcontent : Level.rank CanView.content = 2 := rfl
  omega

/-- View levels tell whether partial access is in effect as long as they are no higher. -/
theorem hasPartial_iff_of_ofTiers_eq (h : ofTiers t now = ofTiers u now)
    (hle : Level.rank (ofTiers t now).canView ≤ Level.rank CanView.content) :
    t.HasPartial now ↔ u.HasPartial now := by
  have ht := levelAt_view_eq hle
  have hu := levelAt_view_eq (t := u) (h ▸ hle)
  rw [Tiers.hasPartial_iff_of_levelAt_le (ht ▸ hle),
    Tiers.hasPartial_iff_of_levelAt_le (hu ▸ h ▸ hle), ht, hu, h]

/-- Those with the same levels at a time inherit the same levels at that time, being grayed excepted.
Being grayed is the same as well unless the link grays, more than the content is shown of the whole,
and partial access is in effect below that for one of them only. -/
theorem ofTiers_inherit_eq_iff (h : ofTiers t now = ofTiers u now) (mode : PartialAccess) :
    (ofTiers (t.inherit mode) now).ungrayed = (ofTiers (u.inherit mode) now).ungrayed ∧
      (ofTiers (t.inherit mode) now = ofTiers (u.inherit mode) now ↔
        (mode = .grays → Level.rank CanView.content < Level.rank (ofTiers t now).canView →
          (t.HasPartial now ↔ u.HasPartial now))) := by
  rw [ofTiers_inherit, ofTiers_inherit, ← h, handedOn_eq_iff, decide_eq_decide]
  refine ⟨rfl, forall_congr' fun _ => ⟨fun hsame _ => hsame, fun hsame => ?_⟩⟩
  by_cases hmore : Level.rank CanView.content < Level.rank (ofTiers t now).canView
  · exact hsame hmore
  · exact hasPartial_iff_of_ofTiers_eq h (Nat.le_of_not_lt hmore)

/-- Partial access, and full access from 5 on. -/
def partialThenFull : Tiers :=
  (((∅ : Tiers).add .view (Level.rank CanView.content) .always).add .view
    (Level.rank CanView.contentWithDescendants) (.date ⟨5⟩)).normalize

/-- The same from 3 on, and full access as soon. -/
def stepByStep : Tiers :=
  ((((∅ : Tiers).add .view (Level.rank CanView.info) .always).add .view
    (Level.rank CanView.content) (.date ⟨3⟩)).add .view
    (Level.rank CanView.contentWithDescendants) (.date ⟨5⟩)).normalize

/-- Whoever had partial access before, no matter since when, inherits the same. -/
theorem ofTiers_inherit_stepByStep :
    ofTiers partialThenFull ⟨5⟩ = ofTiers stepByStep ⟨5⟩ ∧
      ofTiers (partialThenFull.inherit .grays) ⟨5⟩ = ofTiers (stepByStep.inherit .grays) ⟨5⟩ := by
  have h : ofTiers partialThenFull ⟨5⟩ = ofTiers stepByStep ⟨5⟩ := by decide +kernel
  exact ⟨h, (ofTiers_inherit_eq_iff h .grays).2.2 fun _ _ => by decide +kernel⟩

/-- Full access from the start. -/
def fullAtOnce : Tiers :=
  ((∅ : Tiers).add .view (Level.rank CanView.contentWithDescendants) .always).normalize

/-- Whoever had it never before is not grayed. -/
theorem grayedOnce_not_grayed :
    ofTiers partialThenFull ⟨5⟩ = ofTiers fullAtOnce ⟨5⟩ ∧
      ofTiers (partialThenFull.inherit .grays) ⟨5⟩ ≠ ofTiers (fullAtOnce.inherit .grays) ⟨5⟩ := by
  decide +kernel

end Levels

end Courseware
