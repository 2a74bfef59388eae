import Courseware.Permission.Levels
import Courseware.Proofs.Chronology

/-!
# Staircases of tiers

The staircase of some tiers holds exactly those that no other of them covers (`mem_staircase_iff`),
so it depends on which tiers there are and not on their order or number (`staircase_congr`); the
same goes for normalized access.
-/

namespace Courseware

namespace Tier

theorem covers_iff {a b : Tier} : a.covers b = true ↔ b.level ≤ a.level ∧ a.since ≤ b.since := by
  rw [covers, Bool.and_eq_true_iff, decide_eq_true_eq, decide_eq_true_eq]

theorem covers_refl (a : Tier) : a.covers a = true :=
  covers_iff.2 ⟨Nat.le_refl _, le_rfl⟩

theorem covers_trans {a b c : Tier} (hab : a.covers b = true) (hbc : b.covers c = true) :
    a.covers c = true := by
  obtain ⟨hlevel, hsince⟩ := covers_iff.1 hab
  obtain ⟨hlevel', hsince'⟩ := covers_iff.1 hbc
  exact covers_iff.2 ⟨Nat.le_trans hlevel' hlevel, le_trans hsince hsince'⟩

theorem covers_antisymm {a b : Tier} (hab : a.covers b = true) (hba : b.covers a = true) :
    a = b := by
  obtain ⟨hlevel, hsince⟩ := covers_iff.1 hab
  obtain ⟨hlevel', hsince'⟩ := covers_iff.1 hba
  obtain ⟨level, since⟩ := a
  obtain ⟨level', since'⟩ := b
  obtain rfl := Nat.le_antisymm hlevel' hlevel
  obtain rfl := le_antisymm hsince hsince'
  rfl

/-- Both the level and the beginning grow from each tier to the next. -/
def IsStaircase (tiers : List Tier) : Prop :=
  tiers.Pairwise fun a b => a.level < b.level ∧ ¬ b.since ≤ a.since

theorem IsStaircase.eq_of_covers {tiers : List Tier} (h : IsStaircase tiers) {a b : Tier}
    (ha : a ∈ tiers) (hb : b ∈ tiers) (hcovers : a.covers b = true) : a = b := by
  obtain ⟨hlevel, hsince⟩ := covers_iff.1 hcovers
  induction tiers with
  | nil => exact absurd ha List.not_mem_nil
  | cons t rest ih =>
    obtain ⟨hhead, htail⟩ := List.pairwise_cons.1 h
    rcases List.mem_cons.1 ha with rfl | hrest
    · rcases List.mem_cons.1 hb with rfl | hrest
      · rfl
      · exact absurd (hhead b hrest).1 (by omega)
    · rcases List.mem_cons.1 hb with rfl | hrest'
      · exact absurd hsince (hhead a hrest).2
      · exact ih htail hrest hrest'

/-- Two staircases of the same tiers are the same. -/
theorem IsStaircase.eq_of_mem_iff {tiers tiers' : List Tier} (h : IsStaircase tiers)
    (h' : IsStaircase tiers') (hmem : ∀ t, t ∈ tiers ↔ t ∈ tiers') : tiers = tiers' := by
  induction tiers generalizing tiers' with
  | nil => exact (List.eq_nil_iff_forall_not_mem.2 fun t ht => by simpa using (hmem t).2 ht).symm
  | cons a rest ih =>
    cases tiers' with
    | nil => exact absurd ((hmem a).1 List.mem_cons_self) List.not_mem_nil
    | cons b rest' =>
      obtain ⟨hhead, htail⟩ := List.pairwise_cons.1 h
      obtain ⟨hhead', htail'⟩ := List.pairwise_cons.1 h'
      have hab : a = b := by
        rcases List.mem_cons.1 ((hmem a).1 List.mem_cons_self) with hab | ha
        · exact hab
        · rcases List.mem_cons.1 ((hmem b).2 List.mem_cons_self) with hba | hb
          · exact hba.symm
          · have h₁ := (hhead' a ha).1
            have h₂ := (hhead b hb).1
            omega
      subst hab
      refine congrArg (a :: ·) (ih htail htail' fun t => ⟨fun ht => ?_, fun ht => ?_⟩)
      · rcases List.mem_cons.1 ((hmem t).1 (List.mem_cons_of_mem _ ht)) with rfl | ht'
        · exact absurd (hhead t ht).1 (Nat.lt_irrefl _)
        · exact ht'
      · rcases List.mem_cons.1 ((hmem t).2 (List.mem_cons_of_mem _ ht)) with rfl | ht'
        · exact absurd (hhead' t ht).1 (Nat.lt_irrefl _)
        · exact ht'

/-! ### Adding a tier to a staircase -/

theorem mem_of_mem_climb {t x : Tier} {tiers : List Tier} (h : x ∈ climb t tiers) :
    x = t ∨ x ∈ tiers := by
  induction tiers with
  | nil => exact Or.inl (List.mem_singleton.1 h)
  | cons a rest ih =>
    rw [climb] at h
    split at h
    · exact Or.inr h
    · split at h
      · exact (ih h).imp_right (List.mem_cons_of_mem _)
      · split at h
        · exact List.mem_cons.1 h
        · rcases List.mem_cons.1 h with rfl | h
          · exact Or.inr List.mem_cons_self
          · exact (ih h).imp_right (List.mem_cons_of_mem _)

/-- Nothing is lost: whatever was there or is added is covered. -/
theorem exists_covers_climb {t x : Tier} {tiers : List Tier} (h : x = t ∨ x ∈ tiers) :
    ∃ y ∈ climb t tiers, y.covers x = true := by
  induction tiers generalizing x with
  | nil =>
    refine ⟨t, List.mem_singleton.2 rfl, ?_⟩
    rcases h with rfl | h
    · exact covers_refl x
    · exact absurd h List.not_mem_nil
  | cons a rest ih =>
    rw [climb]
    split
    · rename_i hcovers
      rcases h with rfl | h
      · exact ⟨a, List.mem_cons_self, hcovers⟩
      · exact ⟨x, h, covers_refl x⟩
    · split
      · rename_i hcovers
        rcases h with rfl | h
        · exact ih (Or.inl rfl)
        · rcases List.mem_cons.1 h with rfl | h
          · obtain ⟨y, hy, hyt⟩ := ih (Or.inl rfl)
            exact ⟨y, hy, covers_trans hyt hcovers⟩
          · exact ih (Or.inr h)
      · split
        · exact ⟨x, List.mem_cons.2 h, covers_refl x⟩
        · rcases h with rfl | h
          · obtain ⟨y, hy, hyx⟩ := ih (Or.inl rfl)
            exact ⟨y, List.mem_cons_of_mem _ hy, hyx⟩
          · rcases List.mem_cons.1 h with rfl | h
            · exact ⟨x, List.mem_cons_self, covers_refl x⟩
            · obtain ⟨y, hy, hyx⟩ := ih (Or.inr h)
              exact ⟨y, List.mem_cons_of_mem _ hy, hyx⟩

theorem IsStaircase.climb {tiers : List Tier} (h : IsStaircase tiers) (t : Tier) :
    IsStaircase (climb t tiers) := by
  induction tiers with
  | nil => exact List.pairwise_singleton _ t
  | cons a rest ih =>
    obtain ⟨hhead, htail⟩ := List.pairwise_cons.1 h
    rw [Tier.climb]
    split
    · exact h
    · rename_i hat
      rw [covers_iff] at hat
      split
      · exact ih htail
      · rename_i hta
        rw [covers_iff] at hta
        split
        · rename_i hlt
          have hsince : ¬ a.since ≤ t.since := fun hle => hat ⟨Nat.le_of_lt hlt, hle⟩
          refine List.pairwise_cons.2 ⟨fun y hy => ?_, h⟩
          rcases List.mem_cons.1 hy with rfl | hy
          · exact ⟨hlt, hsince⟩
          · obtain ⟨hlevel, hafter⟩ := hhead y hy
            refine ⟨by omega, fun hle => hafter ?_⟩
            exact le_trans hle (le_of_not_ge hsince)
        · rename_i hlt
          refine List.pairwise_cons.2 ⟨fun y hy => ?_, ih htail⟩
          rcases mem_of_mem_climb hy with rfl | hy
          · have hsince : ¬ y.since ≤ a.since := fun hle => hta ⟨by omega, hle⟩
            have hlevel : ¬ y.level ≤ a.level := fun hle =>
              hat ⟨hle, le_of_not_ge hsince⟩
            exact ⟨by omega, hsince⟩
          · exact hhead y hy

/-! ### Staircases -/

theorem isStaircase_staircase (tiers : List Tier) : IsStaircase (staircase tiers) := by
  induction tiers with
  | nil => exact List.Pairwise.nil
  | cons t rest ih => exact ih.climb t

theorem mem_of_mem_staircase {tiers : List Tier} {x : Tier} (h : x ∈ staircase tiers) :
    x ∈ tiers := by
  induction tiers generalizing x with
  | nil => exact h
  | cons t rest ih =>
    rcases mem_of_mem_climb (show x ∈ climb t (staircase rest) from h) with rfl | h
    · exact List.mem_cons_self
    · exact List.mem_cons_of_mem _ (ih h)

theorem exists_covers_staircase {tiers : List Tier} {x : Tier} (h : x ∈ tiers) :
    ∃ y ∈ staircase tiers, y.covers x = true := by
  induction tiers with
  | nil => exact absurd h List.not_mem_nil
  | cons t rest ih =>
    rcases List.mem_cons.1 h with rfl | h
    · exact exists_covers_climb (Or.inl rfl)
    · obtain ⟨y, hy, hyx⟩ := ih h
      obtain ⟨z, hz, hzy⟩ := exists_covers_climb (t := t) (Or.inr hy)
      exact ⟨z, hz, covers_trans hzy hyx⟩

theorem mem_staircase_iff {tiers : List Tier} {x : Tier} :
    x ∈ staircase tiers ↔ x ∈ tiers ∧ ∀ y ∈ tiers, y.covers x = true → y = x := by
  constructor
  · intro h
    refine ⟨mem_of_mem_staircase h, fun y hy hyx => ?_⟩
    obtain ⟨z, hz, hzy⟩ := exists_covers_staircase hy
    obtain rfl := (isStaircase_staircase tiers).eq_of_covers hz h (covers_trans hzy hyx)
    exact covers_antisymm hyx hzy
  · rintro ⟨hx, hmax⟩
    obtain ⟨z, hz, hzx⟩ := exists_covers_staircase hx
    exact hmax z (mem_of_mem_staircase hz) hzx ▸ hz

theorem staircase_congr {tiers tiers' : List Tier} (h : ∀ t, t ∈ tiers ↔ t ∈ tiers') :
    staircase tiers = staircase tiers' := by
  refine (isStaircase_staircase tiers).eq_of_mem_iff (isStaircase_staircase tiers') fun t => ?_
  simp only [mem_staircase_iff, h]

theorem staircase_eq_nil {tiers : List Tier} : staircase tiers = [] ↔ tiers = [] := by
  constructor
  · intro h
    refine List.eq_nil_iff_forall_not_mem.2 fun t ht => ?_
    obtain ⟨y, hy, -⟩ := exists_covers_staircase ht
    rw [h] at hy
    exact absurd hy List.not_mem_nil
  · rintro rfl
    rfl

end Tier

namespace Tiers

theorem eq_empty_iff {t : Tiers} : t = ∅ ↔ ∀ c, t.get c = [] := by
  constructor
  · rintro rfl c
    exact get_empty c
  · intro h
    exact ext_get fun c => (h c).trans (get_empty c).symm

theorem isEmpty_iff {t : Tiers} : t.isEmpty = true ↔ t = ∅ :=
  decide_eq_true_iff

theorem normalize_congr {t u : Tiers} (h : ∀ c tier, tier ∈ t.get c ↔ tier ∈ u.get c) :
    t.normalize = u.normalize := by
  refine ext_get fun c => ?_
  rw [get_normalize, get_normalize]
  exact Tier.staircase_congr (h c)

theorem normalize_eq_empty {t : Tiers} : t.normalize = ∅ ↔ ∀ c tier, tier ∉ t.get c := by
  rw [eq_empty_iff]
  refine forall_congr' fun c => ?_
  rw [get_normalize, Tier.staircase_eq_nil, List.eq_nil_iff_forall_not_mem]

theorem mem_get_add {t : Tiers} {c c' : Component} {level : Nat} {since : Activation}
    {tier : Tier} :
    tier ∈ (t.add c level since).get c' ↔
      tier ∈ t.get c' ∨ (c' = c ∧ level ≠ 0 ∧ tier = ⟨level, since⟩) := by
  rw [add]
  split
  · rename_i hlevel
    simp [hlevel]
  · rename_i hlevel
    rw [get_ofFn]
    split
    · rename_i hc
      simp [hc, hlevel]
    · rename_i hc
      simp [hc]

/-- A grant adds the same tiers whatever there was. -/
theorem mem_get_addGrant {t : Tiers} {g : Grant} {c : Component} {tier : Tier} :
    tier ∈ (t.addGrant g).get c ↔ tier ∈ t.get c ∨ tier ∈ (addGrant ∅ g).get c := by
  simp only [addGrant, mem_get_add, get_empty, List.not_mem_nil, false_or, or_assoc]

end Tiers

end Courseware
