import Courseware.Proofs.Monotone

/-!
# A user's own access is all there is

What a user may do is looked up as the highest levels of all ancestors whose end has not come. If the
recorded ancestors are exact and everybody has what is due, the user's own row tells the same: an
ancestor of an ancestor is one, so whatever is granted to an ancestor's ancestors is granted to the
user's, and more grants mean more access (`userLevels_own`).
-/

namespace Courseware

/-! ### Walks whose end has not come -/

theorem Network.Walk.trans_lasting {ν : Type} [DecidableEq ν] [Key ν] {g : Network ν} {a b c : ν}
    {e d : Expiry} {now : Timestamp} (hab : Walk g a b e) (he : e.isPast now = false)
    (hbc : Walk g b c d) (hd : d.isPast now = false) :
    ∃ m, Walk g a c m ∧ m.isPast now = false := by
  induction hbc with
  | stay => exact ⟨e, hab, he⟩
  | step _ hlink ih =>
    obtain ⟨hearlier, hlast⟩ := Expiry.isPast_min.1 hd
    obtain ⟨m, hwalk, hm⟩ := ih hearlier
    exact ⟨_, Walk.step hwalk hlink, Expiry.isPast_min.2 ⟨hm, hlast⟩⟩

namespace Store

open Network

variable {s : Store} {a b c : GroupId} {user : GroupId} {item : ItemId} {now : Timestamp}

theorem ClosureExact.isAncestorAt_iff (h : s.ClosureExact) :
    s.isAncestorAt a b now = true ↔
      s.groups.contains a = true ∧ ∃ e, Walk s.activeNetwork a b e ∧ e.isPast now = false := by
  rw [Store.isAncestorAt_iff]
  constructor
  · rintro ⟨row, hrow, hlasts⟩
    exact ⟨((h.contains_iff a b).1 (Table.contains_of_get? hrow)).1, row.expiry,
      (h.expiry a b row hrow).1, hlasts⟩
  · rintro ⟨hgroup, e, hwalk, hlasts⟩
    obtain ⟨row, hrow⟩ := Table.contains_iff.1 ((h.contains_iff a b).2 ⟨hgroup, e, hwalk⟩)
    exact ⟨row, hrow, Expiry.isPast_mono ((h.expiry a b row hrow).2 e hwalk) hlasts⟩

theorem ClosureExact.isAncestorAt_self (h : s.ClosureExact) (ha : s.groups.contains a = true) :
    s.isAncestorAt a a now = true :=
  h.isAncestorAt_iff.2 ⟨ha, .never, Walk.stay a, rfl⟩

theorem ClosureExact.isAncestorAt_trans (h : s.ClosureExact) (hab : s.isAncestorAt a b now = true)
    (hbc : s.isAncestorAt b c now = true) : s.isAncestorAt a c now = true := by
  obtain ⟨hgroup, e, hwalk, he⟩ := h.isAncestorAt_iff.1 hab
  obtain ⟨-, d, hwalk', hd⟩ := h.isAncestorAt_iff.1 hbc
  exact h.isAncestorAt_iff.2 ⟨hgroup, hwalk.trans_lasting he hwalk' hd⟩

/-! ### Stored levels -/

/-- Stored levels are those in effect now. -/
def LevelsCurrent (s : Store) (now : Timestamp) : Prop :=
  ∀ q row, s.generated.get? q = some row → row.levels = .ofTiers row.tiers now

instance (s : Store) (now : Timestamp) : Decidable (s.LevelsCurrent now) :=
  decidable_of_iff (∀ e ∈ s.generated.toList, e.2.levels = .ofTiers e.2.tiers now)
    ⟨fun h q row hrow => h (q, row) (Table.mem_toList_iff.2 hrow),
      fun h e he => h e.1 e.2 (Table.mem_toList_iff.1 he)⟩

/-- The stored levels of a pair; there are none without a row. -/
def levelsOf (s : Store) (q : Pair) : Levels := ((s.generated.get? q).map (·.levels)).getD .none

theorem LevelsCurrent.levelsOf_eq (h : s.LevelsCurrent now) (q : Pair) :
    s.levelsOf q = .ofTiers (s.tiersOf q) now := by
  rw [levelsOf]
  cases hrow : s.generated.get? q with
  | none =>
    rw [tiersOf_of_none hrow, Levels.ofTiers_empty]
    rfl
  | some row =>
    rw [tiersOf_of_get? hrow]
    exact h q row hrow

/-- What a user may do is the least that the rows of all ancestors are below. -/
theorem userLevels_below_iff {l : Levels} :
    (s.userLevels user item now).Below l ↔
      ∀ a row, s.generated.get? (a, item) = some row → s.isAncestorAt a user now = true →
        row.levels.Below l := by
  have hfold : s.userLevels user item now =
      ((s.generated.toList.filter fun e => e.1.2 = item && s.isAncestorAt e.1.1 user now).map
        (·.2.levels)).foldl Levels.max .none := by
    rw [userLevels, List.foldl_map]
  rw [hfold, Levels.foldl_max_below_iff]
  simp only [List.forall_mem_map, List.mem_filter, Table.mem_entries_iff, Bool.and_eq_true,
    decide_eq_true_eq]
  constructor
  · rintro ⟨-, h⟩ a row hrow hancestor
    exact h ((a, item), row) ⟨hrow, rfl, hancestor⟩
  · intro h
    refine ⟨Levels.none_below l, ?_⟩
    rintro ⟨⟨a, _⟩, row⟩ ⟨hrow, rfl, hancestor⟩
    exact h a row hrow hancestor

/-- An ancestor has nothing that a member does not have. -/
theorem ItemsAcyclic.below_of_isAncestorAt (hitems : s.ItemsAcyclic) (hclosure : s.ClosureExact)
    (hdue : ∀ q, s.tiersOf q = s.dueTiers q now) (hancestor : s.isAncestorAt a b now = true)
    (item : ItemId) :
    (Levels.ofTiers (s.tiersOf (a, item)) now).Below (.ofTiers (s.tiersOf (b, item)) now) := by
  refine Levels.ofTiers_below fun c hc => ?_
  refine levelAt_le_of_granted rfl rfl hitems (fun item => hdue (a, item))
    (fun item => hdue (b, item)) ?_ hc item now
  rintro item c tier ⟨k, grant, hget, hitem, habove, htier⟩
  exact ⟨k, grant, hget, hitem, hclosure.isAncestorAt_trans habove hancestor, htier⟩

theorem Anchored.userLevels_eq (h : s.Anchored) (hclosure : s.ClosureExact)
    (hdue : ∀ q, s.tiersOf q = s.dueTiers q now) (hlevels : s.LevelsCurrent now) (user : GroupId)
    (item : ItemId) :
    (s.userLevels user item now).ungrayed = (s.levelsOf (user, item)).ungrayed := by
  refine Levels.Below.antisymm (userLevels_below_iff.2 ?_) ?_
  · intro a row hrow hancestor
    rw [hlevels _ row hrow, ← tiersOf_of_get? hrow, hlevels.levelsOf_eq]
    exact h.toLayered.itemsAcyclic.below_of_isAncestorAt hclosure hdue hancestor item
  · rw [levelsOf]
    cases hrow : s.generated.get? (user, item) with
    | none => exact Levels.none_below _
    | some row =>
      -- the user is its own ancestor only if stored, which the row tells
      have hstored := (h.generated _ (Table.contains_of_get? hrow)).1
      exact userLevels_below_iff.1 (.refl _) user row hrow (hclosure.isAncestorAt_self hstored)

end Store

namespace Session

open Store

/-- In every state that a run leads to and in which the recorded ancestors are exact, every pair has
what it is due and the stored levels are those in effect, what a user may do with an item is what the
row of the user itself tells, being grayed aside; without a row it is nothing. -/
theorem userLevels_own (ids : IdSource) (clock : Timestamp) (policy : RetryPolicy)
    (steps : List Step)
    (hclosure : ((start ids clock policy).run steps).committed.ClosureExact)
    (hdue : ∀ q, ((start ids clock policy).run steps).committed.tiersOf q =
      ((start ids clock policy).run steps).committed.dueTiers q
        ((start ids clock policy).run steps).clock)
    (hlevels : ((start ids clock policy).run steps).committed.LevelsCurrent
      ((start ids clock policy).run steps).clock) (user : GroupId) (item : ItemId) :
    (((start ids clock policy).run steps).userLevels user item).ungrayed =
      ((((start ids clock policy).run steps).generated? user item).elim .none
        (·.levels)).ungrayed := by
  have hs := idle_run (idle_start ids clock policy) steps
  have hanchored := anchored_run ids clock policy steps
  generalize (start ids clock policy).run steps = s at *
  have hvisible : s.visible = s.committed := by
    rw [visible, hs.working]
    rfl
  rw [userLevels, generated?, hvisible, hanchored.userLevels_eq hclosure hdue hlevels, levelsOf]
  cases s.committed.generated.get? (user, item) <;> rfl

/-- A user in a group that is in one group for good and in another one until 1000: the latter may
edit a whole, the former may see it and from 1500 on its solutions too, and the user may watch a part
of it. All is brought up to date at 2000. -/
def heldThroughGroups : List Step :=
  let plain : Group := ⟨"", .other, true, none, none, none⟩
  [ .call (.createGroup 1 plain),
    .call (.createGroup 2 plain),
    .call (.createGroup 3 { plain with kind := .user }),
    .call (.createGroup 4 plain),
    .call (.createRelation 1 2 .unset),
    .call (.createRelation 2 3 .unset),
    .call (.createRelation 4 2 { MembershipTerms.unset with expiresAt := some ⟨1000⟩ }),
    .call (.createItem 10 .plain),
    .call (.createItem 11 .plain),
    .call (.createLink 10 11 .plain),
    .call (.grant 4 10 4 ⟨.none, .none, .none, .all, false, .always⟩),
    .call (.grant 1 10 1 ⟨.content, .none, .none, .none, false, .always⟩),
    .call (.grant 1 10 2 ⟨.solution, .none, .none, .none, false, .date ⟨1500⟩⟩),
    .call (.grant 3 11 3 ⟨.none, .none, .result, .none, false, .always⟩),
    .setClock ⟨2000⟩,
    .call .sweep ]

/-- The user sees the part as the outer group does and watches it as on its own. -/
theorem userLevels_heldThroughGroups :
    ((start (.ofList []) .zero .standard).run heldThroughGroups).committed.ClosureExact ∧
      (∀ q, ((start (.ofList []) .zero .standard).run heldThroughGroups).committed.tiersOf q =
        ((start (.ofList []) .zero .standard).run heldThroughGroups).committed.dueTiers q
          ((start (.ofList []) .zero .standard).run heldThroughGroups).clock) ∧
      ((start (.ofList []) .zero .standard).run heldThroughGroups).committed.LevelsCurrent
        ((start (.ofList []) .zero .standard).run heldThroughGroups).clock ∧
      (((start (.ofList []) .zero .standard).run heldThroughGroups).generated? 3 11).map
        (·.levels) = some ⟨.solution, .none, .result, .none, false, false⟩ ∧
      (((start (.ofList []) .zero .standard).run heldThroughGroups).userLevels 3 11).ungrayed =
        ((((start (.ofList []) .zero .standard).run heldThroughGroups).generated? 3 11).elim .none
          (·.levels)).ungrayed := by
  have hclosure :
      ((start (.ofList []) .zero .standard).run heldThroughGroups).committed.ClosureExact :=
    closureExact_iff.2 (by decide +kernel)
  have hexact : ((start (.ofList []) .zero .standard).run heldThroughGroups).committed.AllExact
      ((start (.ofList []) .zero .standard).run heldThroughGroups).clock := by
    decide +kernel
  have hdue := (anchored_run (.ofList []) .zero .standard heldThroughGroups).tiersOf_eq hexact
  have hlevels :
      ((start (.ofList []) .zero .standard).run heldThroughGroups).committed.LevelsCurrent
        ((start (.ofList []) .zero .standard).run heldThroughGroups).clock := by
    decide +kernel
  exact ⟨hclosure, hdue, hlevels, by decide +kernel,
    userLevels_own _ _ _ _ hclosure hdue hlevels 3 11⟩

end Session

end Courseware
