import Courseware.Permission.Propagation
import Courseware.Proofs.Items
import Courseware.Proofs.Tiers

/-!
# What tiers are due

The tiers that a pair is due follow from two kinds of tiers: those of effective grants (`Granted`)
and those that pass along a link from the same group's access to a whole (`Inherited`). They depend
on which these are and on nothing else (`dueTiers_congr`). Time only takes grants away, as ancestors
end.
-/

namespace Courseware

namespace Store

variable {s t : Store} {pair : Pair} {now later : Timestamp}

/-- Some grant on the item, to the group or an ancestor whose end has not come, gives the tier. -/
def Granted (s : Store) (pair : Pair) (now : Timestamp) (c : Component) (tier : Tier) : Prop :=
  ∃ k grant, s.grants.get? k = some grant ∧ k.2.1 = pair.2 ∧
    s.isAncestorAt k.1 pair.1 now = true ∧ tier ∈ (Tiers.addGrant ∅ grant).get c

/-- The tier passes on from the group's access to something that the item is part of. -/
def Inherited (s : Store) (pair : Pair) (c : Component) (tier : Tier) : Prop :=
  ∃ whole link item, s.links.get? (whole, pair.2) = some link ∧
    s.items.get? whole = some item ∧ item.customChapter = false ∧
    tier ∈ ((s.tiersOf (pair.1, whole)).inherit link.partialAccess).get c

theorem mem_effectiveGrants {group : GroupId} {item : ItemId}
    {e : (GroupId × ItemId × GroupId) × Grant} :
    e ∈ s.effectiveGrants group item now ↔
      s.grants.get? e.1 = some e.2 ∧ e.1.2.1 = item ∧ s.isAncestorAt e.1.1 group now = true := by
  rw [effectiveGrants, List.mem_filter, Table.mem_entries_iff, Bool.and_eq_true_iff,
    decide_eq_true_eq]

theorem mem_grantedTiers {c : Component} {tier : Tier} :
    tier ∈ (s.grantedTiers pair now).get c ↔ s.Granted pair now c tier := by
  have hfold : ∀ (grants : List ((GroupId × ItemId × GroupId) × Grant)) (u : Tiers),
      tier ∈ (grants.foldl (fun u e => u.addGrant e.2) u).get c ↔
        tier ∈ u.get c ∨ ∃ e ∈ grants, tier ∈ (Tiers.addGrant ∅ e.2).get c := by
    intro grants
    induction grants with
    | nil => simp
    | cons e rest ih =>
      intro u
      rw [List.foldl_cons, ih, Tiers.mem_get_addGrant, or_assoc]
      simp only [List.mem_cons, or_and_right, exists_or, exists_eq_left]
  rw [grantedTiers, hfold, Tiers.get_empty]
  simp only [List.not_mem_nil, false_or]
  constructor
  · rintro ⟨e, he, htier⟩
    obtain ⟨hget, hitem, hancestor⟩ := mem_effectiveGrants.1 he
    exact ⟨e.1, e.2, hget, hitem, hancestor, htier⟩
  · rintro ⟨k, grant, hget, hitem, hancestor, htier⟩
    exact ⟨(k, grant), mem_effectiveGrants.2 ⟨hget, hitem, hancestor⟩, htier⟩

/-- The tiers that a pair is due before they are normalized. -/
def rawDue (s : Store) (pair : Pair) (now : Timestamp) : Tiers :=
  (s.wholesOf pair.2).foldl
    (fun t w =>
      if w.2.2.customChapter then t
      else t.merge ((s.tiersOf (pair.1, w.1)).inherit w.2.1.partialAccess))
    (s.grantedTiers pair now)

theorem dueTiers_eq (s : Store) (pair : Pair) (now : Timestamp) :
    s.dueTiers pair now = (s.rawDue pair now).normalize :=
  rfl

theorem mem_rawDue {c : Component} {tier : Tier} :
    tier ∈ (s.rawDue pair now).get c ↔ s.Granted pair now c tier ∨ s.Inherited pair c tier := by
  have hfold : ∀ (wholes : List (ItemId × Link × Item)) (u : Tiers),
      tier ∈ (wholes.foldl
        (fun t w =>
          if w.2.2.customChapter then t
          else t.merge ((s.tiersOf (pair.1, w.1)).inherit w.2.1.partialAccess)) u).get c ↔
        tier ∈ u.get c ∨ ∃ w ∈ wholes, w.2.2.customChapter = false ∧
          tier ∈ ((s.tiersOf (pair.1, w.1)).inherit w.2.1.partialAccess).get c := by
    intro wholes
    induction wholes with
    | nil => simp
    | cons w rest ih =>
      intro u
      rw [List.foldl_cons, ih]
      simp only [List.mem_cons, or_and_right, exists_or, exists_eq_left]
      rw [← or_assoc]
      refine or_congr ?_ Iff.rfl
      cases w.2.2.customChapter with
      | true => simp
      | false => simp
  rw [rawDue, hfold, mem_grantedTiers]
  refine or_congr Iff.rfl ?_
  constructor
  · rintro ⟨⟨whole, link, item⟩, hmem, hcustom, htier⟩
    obtain ⟨hlink, hitem⟩ := mem_wholesOf.1 hmem
    exact ⟨whole, link, item, hlink, hitem, hcustom, htier⟩
  · rintro ⟨whole, link, item, hlink, hitem, hcustom, htier⟩
    exact ⟨(whole, link, item), mem_wholesOf.2 ⟨hlink, hitem⟩, hcustom, htier⟩

theorem dueTiers_congr {pair' : Pair}
    (hgranted : ∀ c tier, s.Granted pair now c tier ↔ t.Granted pair' later c tier)
    (hinherited : ∀ c tier, s.Inherited pair c tier ↔ t.Inherited pair' c tier) :
    s.dueTiers pair now = t.dueTiers pair' later := by
  rw [dueTiers_eq, dueTiers_eq]
  refine Tiers.normalize_congr fun c tier => ?_
  rw [mem_rawDue, mem_rawDue, hgranted, hinherited]

theorem dueTiers_eq_empty :
    s.dueTiers pair now = ∅ ↔
      ∀ c tier, ¬ s.Granted pair now c tier ∧ ¬ s.Inherited pair c tier := by
  rw [dueTiers_eq, Tiers.normalize_eq_empty]
  simp only [mem_rawDue, not_or]

/-! ### The passage of time -/

theorem isAncestorAt_iff {a d : GroupId} :
    s.isAncestorAt a d now = true ↔
      ∃ row, s.ancestors.get? (a, d) = some row ∧ row.expiry.isPast now = false := by
  rw [isAncestorAt, Option.any_eq_true]
  simp only [Bool.not_eq_true']

/-- An ancestor whose end has not come later has not ended before. -/
theorem isAncestorAt_mono {a d : GroupId} (hle : now ≤ later)
    (h : s.isAncestorAt a d later = true) : s.isAncestorAt a d now = true := by
  obtain ⟨row, hrow, hpast⟩ := isAncestorAt_iff.1 h
  exact isAncestorAt_iff.2 ⟨row, hrow, Expiry.isPast_eq_false_of_le hle hpast⟩

theorem Granted.mono {c : Component} {tier : Tier} (hle : now ≤ later)
    (h : s.Granted pair later c tier) : s.Granted pair now c tier := by
  obtain ⟨k, grant, hget, hitem, hancestor, htier⟩ := h
  exact ⟨k, grant, hget, hitem, isAncestorAt_mono hle hancestor, htier⟩

/-- What is due nothing stays due nothing. -/
theorem dueTiers_empty_mono (hle : now ≤ later) (h : s.dueTiers pair now = ∅) :
    s.dueTiers pair later = ∅ := by
  rw [dueTiers_eq_empty] at h ⊢
  exact fun c tier => ⟨fun hgranted => (h c tier).1 (hgranted.mono hle), (h c tier).2⟩

/-- While no ancestor of the group ends, the same tiers are due. -/
theorem dueTiers_eq_of_no_end (hle : now ≤ later)
    (h : ∀ a row, s.ancestors.get? (a, pair.1) = some row →
      row.expiry.isPast later = true → row.expiry.isPast now = true) :
    s.dueTiers pair now = s.dueTiers pair later := by
  refine dueTiers_congr (fun c tier => ⟨?_, fun hgranted => hgranted.mono hle⟩) fun _ _ => Iff.rfl
  rintro ⟨k, grant, hget, hitem, hancestor, htier⟩
  obtain ⟨row, hrow, hpast⟩ := isAncestorAt_iff.1 hancestor
  refine ⟨k, grant, hget, hitem, isAncestorAt_iff.2 ⟨row, hrow, ?_⟩, htier⟩
  rw [← Bool.not_eq_true] at hpast ⊢
  exact fun hlater => hpast (h k.1 row hrow hlater)

end Store

end Courseware
