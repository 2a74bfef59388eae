import Courseware.Proofs.Anchored
import Courseware.Proofs.ItemGraph
import Courseware.Proofs.Levels

/-!
# More grants, more access

Where no pair changes any more when it is recomputed, the level of a component at a time follows
from the grants at that time and from the levels further up, and it grows with both. So by induction
along the links, from wholes to parts, whoever is granted more has more at every time
(`levelAt_le_of_granted`), on every item and of every component except being grayed: that is a mark
of partial access, which is lost to more.
-/

namespace Courseware

namespace Store

variable {s t : Store} {q : Pair} {now now' time : Timestamp} {c : Component}

/-- No pair changes when it is recomputed. -/
def AtFixpoint (s : Store) (now : Timestamp) : Prop := ∀ q, (s.recomputePair q now).1 = false

theorem recomputePair_eq_false :
    (s.recomputePair q now).1 = false ↔ s.tiersOf q = s.dueTiers q now := by
  rw [recomputePair]
  cases hrow : s.generated.get? q with
  | none =>
    rw [tiersOf_of_none hrow]
    dsimp only
    split
    · rename_i hempty
      exact ⟨fun _ => (Tiers.isEmpty_iff.1 hempty).symm, fun _ => rfl⟩
    · rename_i hempty
      exact ⟨fun h => absurd h (by simp), fun h => absurd (Tiers.isEmpty_iff.2 h.symm) hempty⟩
  | some row =>
    rw [tiersOf_of_get? hrow]
    dsimp only
    split
    · rename_i hsame
      exact ⟨fun _ => hsame, fun _ => rfl⟩
    · rename_i hother
      exact ⟨fun h => absurd h (by simp), fun h => absurd h hother⟩

theorem atFixpoint_iff : s.AtFixpoint now ↔ ∀ q, s.tiersOf q = s.dueTiers q now :=
  forall_congr' fun _ => recomputePair_eq_false

/-! ### Levels that are due -/

/-- The level due is the highest that is granted or inherited and in effect. -/
theorem levelAt_dueTiers_le_iff {n : Nat} :
    (s.dueTiers q now).levelAt c time ≤ n ↔
      (∀ tier, s.Granted q now c tier → tier.isActive time = true → tier.level ≤ n) ∧
        ∀ tier, s.Inherited q c tier → tier.isActive time = true → tier.level ≤ n := by
  rw [dueTiers_eq, Tiers.levelAt_normalize, Tiers.levelAt, Tier.levelAt_le_iff]
  simp only [mem_rawDue, or_imp, forall_and]

theorem Granted.le_levelAt {tier : Tier} (h : s.Granted q now c tier)
    (hactive : tier.isActive time = true) : tier.level ≤ (s.dueTiers q now).levelAt c time :=
  (levelAt_dueTiers_le_iff.1 (Nat.le_refl _)).1 tier h hactive

/-- What passes from a whole is due to the part. -/
theorem levelAt_inherit_le {whole : ItemId} {link : Link} {item : Item}
    (hlink : s.links.get? (whole, q.2) = some link) (hitem : s.items.get? whole = some item)
    (hcustom : item.customChapter = false) :
    ((s.tiersOf (q.1, whole)).inherit link.partialAccess).levelAt c time ≤
      (s.dueTiers q now).levelAt c time := by
  rw [Tiers.levelAt, Tier.levelAt_le_iff]
  intro tier htier hactive
  exact (levelAt_dueTiers_le_iff.1 (Nat.le_refl _)).2 tier
    ⟨whole, link, item, hlink, hitem, hcustom, htier⟩ hactive

/-! ### The comparison -/

/-- Two groups, in the same store or in two stores with the same items and links: if whatever is
granted to the one is granted to the other, the other has on every item at least the levels of the
one. -/
theorem levelAt_le_of_granted (hitems : t.items = s.items) (hlinks : t.links = s.links)
    (hacyclic : s.ItemsAcyclic) {group group' : GroupId}
    (hs : ∀ item, s.tiersOf (group, item) = s.dueTiers (group, item) now)
    (ht : ∀ item, t.tiersOf (group', item) = t.dueTiers (group', item) now')
    (hgranted : ∀ item c tier, s.Granted (group, item) now c tier →
      t.Granted (group', item) now' c tier)
    (hc : c ≠ .grayed) (item : ItemId) (time : Timestamp) :
    (s.tiersOf (group, item)).levelAt c time ≤ (t.tiersOf (group', item)).levelAt c time := by
  induction item using hacyclic.wellFounded.induction with
  | h item ih =>
    rw [hs, ht, levelAt_dueTiers_le_iff]
    constructor
    · intro tier hgrant hactive
      exact (hgranted item c tier hgrant).le_levelAt hactive
    · rintro tier ⟨whole, link, chapter, hlink, hchapter, hcustom, htier⟩ hactive
      have habove := ih whole (Table.contains_of_get? hlink)
      rw [← hlinks] at hlink
      rw [← hitems] at hchapter
      calc tier.level
          ≤ ((s.tiersOf (group, whole)).inherit link.partialAccess).levelAt c time :=
            Tier.level_le_levelAt htier hactive
        _ ≤ ((t.tiersOf (group', whole)).inherit link.partialAccess).levelAt c time :=
            Tiers.levelAt_inherit_mono hc habove
        _ ≤ (t.dueTiers (group', item) now').levelAt c time :=
            levelAt_inherit_le (q := (group', item)) hlink hchapter hcustom

/-- Every grant of the one store is in the other, whoever gave it. -/
def GrantsWithin (s t : Store) : Prop :=
  ∀ group item giver grant, s.grants.get? (group, item, giver) = some grant →
    ∃ giver', t.grants.get? (group, item, giver') = some grant

instance (s t : Store) : Decidable (s.GrantsWithin t) :=
  decidable_of_iff
    (∀ e ∈ s.grants.toList, ∃ e' ∈ t.grants.toList,
      e'.1.1 = e.1.1 ∧ e'.1.2.1 = e.1.2.1 ∧ e'.2 = e.2) <| by
    constructor
    · intro h group item giver grant hget
      obtain ⟨⟨⟨_, _, giver'⟩, _⟩, hget', rfl, rfl, rfl⟩ := h _ (Table.mem_toList_iff.2 hget)
      exact ⟨giver', Table.mem_toList_iff.1 hget'⟩
    · rintro h ⟨⟨group, item, giver⟩, grant⟩ hget
      obtain ⟨giver', hget'⟩ := h group item giver grant (Table.mem_toList_iff.1 hget)
      exact ⟨_, Table.mem_toList_iff.2 hget', rfl, rfl, rfl⟩

theorem GrantsWithin.granted (h : s.GrantsWithin t) (hancestors : t.ancestors = s.ancestors)
    {tier : Tier} (hgranted : s.Granted q now c tier) : t.Granted q now c tier := by
  obtain ⟨⟨group, item, giver⟩, grant, hget, hitem, hancestor, htier⟩ := hgranted
  obtain ⟨giver', hget'⟩ := h group item giver grant hget
  refine ⟨(group, item, giver'), grant, hget', hitem, ?_, htier⟩
  rw [isAncestorAt, hancestors]
  exact hancestor

/-- Between two stores at the fixpoint that differ in grants only, the one with more of them gives
every group on every item and at every time at least the levels of the other. -/
theorem levelAt_mono_of_grantsWithin (hancestors : t.ancestors = s.ancestors)
    (hitems : t.items = s.items) (hlinks : t.links = s.links) (hacyclic : s.ItemsAcyclic)
    (hs : s.AtFixpoint now) (ht : t.AtFixpoint now) (hgrants : s.GrantsWithin t)
    (hc : c ≠ .grayed) (group : GroupId) (item : ItemId) (time : Timestamp) :
    (s.tiersOf (group, item)).levelAt c time ≤ (t.tiersOf (group, item)).levelAt c time :=
  levelAt_le_of_granted hitems hlinks hacyclic (fun item => atFixpoint_iff.1 hs (group, item))
    (fun item => atFixpoint_iff.1 ht (group, item))
    (fun _ _ _ hgranted => hgrants.granted hancestors hgranted) hc item time

end Store

namespace Session

open Store

/-- A group in a group, and a part below a whole to which partial access does not pass on. -/
def nestedParts : List Step :=
  let plain : Group := ⟨"", .other, true, none, none, none⟩
  [ .call (.createGroup 1 plain),
    .call (.createGroup 2 plain),
    .call (.createRelation 1 2 .unset),
    .call (.createItem 10 .plain),
    .call (.createItem 11 .plain),
    .call (.createItem 12 .plain),
    .call (.createLink 10 11 .plain),
    .call (.createLink 11 12 { Link.plain with partialAccess := .stops }) ]

/-- Access to the content, given by one group. -/
def partialGrant : List Step :=
  nestedParts ++ [ .call (.grant 1 10 1 ⟨.content, .none, .result, .none, false, .always⟩) ]

/-- The same access given by another group, and full access later on. -/
def fullGrant : List Step :=
  nestedParts ++
    [ .call (.grant 1 10 2 ⟨.content, .none, .result, .none, false, .always⟩),
      .call (.grant 2 11 2 ⟨.solution, .none, .none, .none, false, .date ⟨3000⟩⟩) ]

/-- Once the second grant is in effect it reaches further than the first. -/
theorem levelAt_fullGrant :
    ((start (.ofList []) .zero .standard).run partialGrant).committed.GrantsWithin
        ((start (.ofList []) .zero .standard).run fullGrant).committed ∧
      ((start (.ofList []) .zero .standard).run partialGrant).committed.AtFixpoint .zero ∧
      ((start (.ofList []) .zero .standard).run fullGrant).committed.AtFixpoint .zero ∧
      (((start (.ofList []) .zero .standard).run partialGrant).committed.tiersOf (2, 12)).levelAt
          .view ⟨4000⟩ ≤
        (((start (.ofList []) .zero .standard).run fullGrant).committed.tiersOf (2, 12)).levelAt
          .view ⟨4000⟩ := by
  have hpartial := anchored_run (.ofList []) .zero .standard partialGrant
  have hfull := anchored_run (.ofList []) .zero .standard fullGrant
  have hacyclic := hpartial.toLayered.itemsAcyclic
  have hwithin : ((start (.ofList []) .zero .standard).run partialGrant).committed.GrantsWithin
      ((start (.ofList []) .zero .standard).run fullGrant).committed := by
    decide +kernel
  have hs : ((start (.ofList []) .zero .standard).run partialGrant).committed.AtFixpoint .zero :=
    atFixpoint_iff.2 (hpartial.tiersOf_eq (by decide +kernel))
  have ht : ((start (.ofList []) .zero .standard).run fullGrant).committed.AtFixpoint .zero :=
    atFixpoint_iff.2 (hfull.tiersOf_eq (by decide +kernel))
  exact ⟨hwithin, hs, ht, levelAt_mono_of_grantsWithin (by decide +kernel) (by decide +kernel)
    (by decide +kernel) hacyclic hs ht hwithin (by decide) 2 12 ⟨4000⟩⟩

end Session

end Courseware
