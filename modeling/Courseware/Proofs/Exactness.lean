import Courseware.Proofs.Fixpoint
import Courseware.Proofs.Integrity

/-!
# Exact access

A pair is exact if what is stored for it is what it is due. Recomputing makes a pair exact and
spoils no other but the heirs (`pairLaw_pairExact`), and there is only one way for all pairs to be
exact, since what a pair is due depends on pairs higher up only (`tiersOf_unique`).
-/

namespace Courseware

namespace Store

variable {s s' t : Store} {pair q : Pair} {now : Timestamp}

theorem contains_generated_iff (hfilled : s.RowsFilled) :
    s.generated.contains q = true ↔ s.tiersOf q ≠ ∅ := by
  rw [Table.contains_eq_isSome]
  cases hrow : s.generated.get? q with
  | none => simp [tiersOf_of_none hrow]
  | some g =>
    have hsome := hfilled q g hrow
    rw [tiersOf_of_get? hrow, ne_eq, ← Tiers.isEmpty_iff, hsome]
    simp

/-- What is stored for the pair is what it is due now; there is a row if that is anything. -/
structure PairExact (s : Store) (now : Timestamp) (pair : Pair) : Prop where
  tiers : s.tiersOf pair = s.dueTiers pair now
  row : s.generated.contains pair = true ↔ s.dueTiers pair now ≠ ∅

theorem pairExact_iff (hfilled : s.RowsFilled) :
    s.PairExact now pair ↔ s.tiersOf pair = s.dueTiers pair now := by
  refine ⟨fun h => h.tiers, fun h => ⟨h, ?_⟩⟩
  rw [contains_generated_iff hfilled, h]

theorem PairExact.congr (h : s.PairExact now q) (hgenerated : t.generated.get? q = s.generated.get? q)
    (hdue : t.dueTiers q now = s.dueTiers q now) : t.PairExact now q := by
  obtain ⟨htiers, hrow⟩ := h
  constructor
  · rw [tiersOf, hgenerated, hdue]
    exact htiers
  · rw [Table.contains_eq_isSome, hgenerated, hdue]
    exact hrow

instance (s : Store) (now : Timestamp) (pair : Pair) : Decidable (s.PairExact now pair) :=
  decidable_of_iff
    (s.tiersOf pair = s.dueTiers pair now ∧
      (s.generated.contains pair = true ↔ s.dueTiers pair now ≠ ∅))
    ⟨fun h => ⟨h.1, h.2⟩, fun h => ⟨h.1, h.2⟩⟩

/-- Every stored group has on every stored item what it is due there. -/
def AllExact (s : Store) (now : Timestamp) : Prop :=
  ∀ group, s.groups.contains group = true → ∀ item, s.items.contains item = true →
    s.PairExact now (group, item)

instance (s : Store) (now : Timestamp) : Decidable (s.AllExact now) :=
  decidable_of_iff
    (∀ group ∈ s.groups.keys, ∀ item ∈ s.items.keys, s.PairExact now (group, item))
    (by simp only [Table.mem_keys, AllExact])

theorem Fresh.pairExact (h : s.Fresh now q) : s.PairExact now q := by
  refine ⟨tiersOf_freshRow h, ?_⟩
  rw [Table.contains_eq_isSome, h, freshRow, ne_eq, ← Tiers.isEmpty_iff]
  split
  · rename_i hempty
    simp [hempty]
  · rename_i hfilled
    simp [hfilled]

theorem pairLaw_pairExact (now : Timestamp) : PairLaw now fun s q => s.PairExact now q :=
  .of_fresh (fun _ _ h => h.pairExact) fun _ _ _ hrow hdue _ h => h.congr hrow (hdue now)

/-! ### What tiers are due depends on -/

theorem tiersOf_congr (h : t.generated.get? q = s.generated.get? q) : t.tiersOf q = s.tiersOf q := by
  rw [tiersOf, tiersOf, h]

/-- What is granted depends on the grants and whether the group is below those that they are to. -/
theorem granted_congr {c : Component} {tier : Tier} (hgrants : t.grants = s.grants)
    (hancestors : ∀ k, s.grants.contains k = true →
      t.ancestors.get? (k.1, q.1) = s.ancestors.get? (k.1, q.1)) :
    t.Granted q now c tier ↔ s.Granted q now c tier := by
  have hsame : ∀ k grant, s.grants.get? k = some grant →
      t.isAncestorAt k.1 q.1 now = s.isAncestorAt k.1 q.1 now := by
    intro k grant hget
    rw [isAncestorAt, isAncestorAt, hancestors k (Table.contains_of_get? hget)]
  rw [Granted, Granted, hgrants]
  constructor
  · rintro ⟨k, grant, hget, hitem, hnow, htier⟩
    rw [hsame k grant hget] at hnow
    exact ⟨k, grant, hget, hitem, hnow, htier⟩
  · rintro ⟨k, grant, hget, hitem, hnow, htier⟩
    rw [← hsame k grant hget] at hnow
    exact ⟨k, grant, hget, hitem, hnow, htier⟩

/-- What is inherited depends on the links to the item, and on the items and the tiers of the group
at their other ends. -/
theorem inherited_congr {c : Component} {tier : Tier} (hlinks : t.links = s.links)
    (hitems : ∀ whole, s.links.contains (whole, q.2) = true →
      t.items.get? whole = s.items.get? whole)
    (htiers : ∀ whole, s.links.contains (whole, q.2) = true →
      t.tiersOf (q.1, whole) = s.tiersOf (q.1, whole)) :
    t.Inherited q c tier ↔ s.Inherited q c tier := by
  rw [Inherited, Inherited, hlinks]
  constructor
  · rintro ⟨whole, link, item, hlink, hitem, hcustom, htier⟩
    rw [hitems whole (Table.contains_of_get? hlink)] at hitem
    rw [htiers whole (Table.contains_of_get? hlink)] at htier
    exact ⟨whole, link, item, hlink, hitem, hcustom, htier⟩
  · rintro ⟨whole, link, item, hlink, hitem, hcustom, htier⟩
    rw [← hitems whole (Table.contains_of_get? hlink)] at hitem
    rw [← htiers whole (Table.contains_of_get? hlink)] at htier
    exact ⟨whole, link, item, hlink, hitem, hcustom, htier⟩

/-- If a group has what it is due on some items and on all that they are part of, this settles what it
has there: by induction from the highest items down. -/
theorem tiersOf_unique_on (hlayered : s.Layered) (hitems : t.items = s.items)
    (hlinks : t.links = s.links) (hgrants : t.grants = s.grants)
    (hancestors : t.ancestors = s.ancestors) {group : GroupId} {K : ItemId → Prop}
    (hK : ∀ whole item, s.links.contains (whole, item) = true → K item → K whole)
    (hs : ∀ item, K item → s.tiersOf (group, item) = s.dueTiers (group, item) now)
    (ht : ∀ item, K item → t.tiersOf (group, item) = t.dueTiers (group, item) now) {item : ItemId}
    (hitem : K item) : t.tiersOf (group, item) = s.tiersOf (group, item) := by
  induction hdepth : s.items.size - s.height item using Nat.strongRecOn generalizing item with
  | ind depth ih =>
    rw [hs item hitem, ht item hitem]
    refine dueTiers_congr (fun c tier => granted_congr hgrants fun k _ => by rw [hancestors])
      fun c tier => inherited_congr hlinks (fun whole _ => by rw [hitems]) fun whole hlink => ?_
    have hlt := hlayered.height_lt hlink
    have hle := s.height_le whole
    exact ih (s.items.size - s.height whole) (by dsimp only at hlt; omega) (hK whole item hlink hitem)
      rfl

theorem tiersOf_unique (hlayered : s.Layered) (hitems : t.items = s.items)
    (hlinks : t.links = s.links) (hgrants : t.grants = s.grants)
    (hancestors : t.ancestors = s.ancestors) {group : GroupId}
    (hs : ∀ item, s.tiersOf (group, item) = s.dueTiers (group, item) now)
    (ht : ∀ item, t.tiersOf (group, item) = t.dueTiers (group, item) now) (item : ItemId) :
    t.tiersOf (group, item) = s.tiersOf (group, item) :=
  tiersOf_unique_on (K := fun _ => True) hlayered hitems hlinks hgrants hancestors
    (fun _ _ _ _ => trivial) (fun item _ => hs item) (fun item _ => ht item) trivial

/-! ### The pairs that a change concerns -/

theorem mem_pairsForClosure {change : ClosureChange} :
    q ∈ s.pairsForClosure change now ↔
      change.changedGroups.contains q.1 = true ∧
        (s.generated.contains q = true ∨ ∃ e, e ∈ s.effectiveGrants q.1 q.2 now) := by
  obtain ⟨group, item⟩ := q
  have hgranted : (s.grantedItems group now).contains item = true ↔
      ∃ e, e ∈ s.effectiveGrants group item now := by
    rw [grantedItems, KeySet.contains_ofKeys, decide_eq_true_eq]
    simp only [List.mem_map, List.mem_filter, mem_effectiveGrants, Table.mem_entries_iff]
    constructor
    · rintro ⟨e, ⟨hget, hancestor⟩, hitem⟩
      exact ⟨e, hget, hitem, hancestor⟩
    · rintro ⟨e, hget, hitem, hancestor⟩
      exact ⟨e, ⟨hget, hancestor⟩, hitem⟩
  rw [pairsForClosure, List.mem_append, generatedPairs, List.mem_filter, List.mem_flatMap]
  simp only [Table.mem_keys, decide_eq_true_eq, List.mem_map, Prod.mk.injEq]
  constructor
  · rintro (⟨hrow, hchanged⟩ | ⟨_, hchanged, _, hitem, rfl, rfl⟩)
    · exact ⟨hchanged, Or.inl hrow⟩
    · exact ⟨hchanged, Or.inr (hgranted.1 hitem)⟩
  · rintro ⟨hchanged, hrow | he⟩
    · exact Or.inl ⟨hrow, hchanged⟩
    · exact Or.inr ⟨group, hchanged, item, hgranted.2 he, rfl, rfl⟩

theorem Granted.exists_effective {c : Component} {tier : Tier} (h : s.Granted q now c tier) :
    ∃ e, e ∈ s.effectiveGrants q.1 q.2 now := by
  obtain ⟨k, grant, hget, hitem, hancestor, -⟩ := h
  exact ⟨(k, grant), mem_effectiveGrants.2 ⟨hget, hitem, hancestor⟩⟩

theorem mem_pairsForGrant {group : GroupId} {item : ItemId} :
    q ∈ s.pairsForGrant group item ↔
      s.ancestors.contains (group, q.1) = true ∧ q.2 = item := by
  obtain ⟨g, i⟩ := q
  rw [pairsForGrant, List.mem_map, Table.contains_iff]
  constructor
  · rintro ⟨⟨d, row⟩, hmem, heq⟩
    obtain ⟨rfl, rfl⟩ := Prod.mk.inj heq
    exact ⟨⟨row, mem_descendantsOf.1 hmem⟩, rfl⟩
  · rintro ⟨⟨row, hrow⟩, rfl⟩
    exact ⟨(g, row), mem_descendantsOf.2 hrow, rfl⟩

theorem mem_pairsForLink {parent child : ItemId} :
    q ∈ s.pairsForLink parent child ↔
      q.2 = child ∧ (s.generated.contains (q.1, parent) = true ∨
        s.generated.contains (q.1, child) = true) := by
  obtain ⟨g, i⟩ := q
  have hgroup : ∀ g', g' ∈ (s.groupsWithGenerated [parent, child]).keys ↔
      s.generated.contains (g', parent) = true ∨ s.generated.contains (g', child) = true := by
    intro g'
    rw [groupsWithGenerated, KeySet.mem_keys_ofKeys]
    simp only [List.mem_map, List.mem_filter, Table.mem_keys, decide_eq_true_eq, List.mem_cons,
      List.not_mem_nil, or_false]
    constructor
    · rintro ⟨⟨g'', i'⟩, ⟨hrow, rfl | rfl⟩, rfl⟩
      · exact Or.inl hrow
      · exact Or.inr hrow
    · rintro (hrow | hrow)
      · exact ⟨(g', parent), ⟨hrow, Or.inl rfl⟩, rfl⟩
      · exact ⟨(g', child), ⟨hrow, Or.inr rfl⟩, rfl⟩
  rw [pairsForLink, List.mem_map]
  simp only [hgroup, Prod.mk.injEq]
  constructor
  · rintro ⟨_, hrow, rfl, rfl⟩
    exact ⟨rfl, hrow⟩
  · rintro ⟨rfl, hrow⟩
    exact ⟨g, hrow, rfl, rfl⟩

/-! ### Rows in the course of a run -/

theorem rowsFilled_empty : Store.empty.RowsFilled := by
  intro q g hg
  simp [Store.empty] at hg

theorem RowsFilled.of_rows (h : s.RowsFilled)
    (hrows : ∀ q g, t.generated.get? q = some g → s.generated.get? q = some g) : t.RowsFilled :=
  fun q g hg => h q g (hrows q g hg)

theorem RowsFilled.settlePairs (h : s.RowsFilled) {pairs : List Pair} {outcome : PermissionOutcome}
    (hsettle : s.settlePairs pairs now = .ok (outcome, s')) : s'.RowsFilled := by
  obtain ⟨rs, rfl⟩ := (resultsGrow_settlePairs hsettle).frame
  exact h.propagatePermissions (.ofKeys pairs) now

theorem RowsFilled.settleClosure (h : s.RowsFilled) {change : ClosureChange}
    (hsettle : s.settleClosure change now = .ok s') : s'.RowsFilled := by
  obtain ⟨outcome, hpairs⟩ := settleClosure_eq_ok hsettle
  exact h.settlePairs hpairs

theorem generated_deleteGroups {ids : List GroupId} {g : Generated} :
    (s.deleteGroups ids).2.generated.get? q = some g → s.generated.get? q = some g :=
  deleteGroups_keeps (P := fun t => t.generated.get? q = some g → s.generated.get? q = some g)
    (fun _ _ ht hg => ht (Table.get?_filter_eq_some.1 hg).1) id ids

theorem RowsFilled.deleteGroups (h : s.RowsFilled) (ids : List GroupId) :
    (s.deleteGroups ids).2.RowsFilled :=
  h.of_rows fun _ _ hg => generated_deleteGroups hg

theorem RowsFilled.recomputeClosure (h : s.RowsFilled) : s.recomputeClosure.2.RowsFilled := h

theorem RowsFilled.reclosed (h : s.RowsFilled) {change : ClosureChange}
    (hreclosed : Reclosed change s t) : t.RowsFilled := by
  obtain ⟨u, hjoin, hclosure⟩ := hreclosed
  obtain ⟨ms, n, rfl⟩ := hjoin.frame
  obtain rfl := congrArg Prod.snd hclosure
  exact h

theorem RowsFilled.deleteRelation (h : s.RowsFilled) {parent child : GroupId} {allowOrphans : Bool}
    {deletion : RelationDeletion}
    (hdelete : s.deleteRelation parent child allowOrphans = .ok (deletion, s')) : s'.RowsFilled := by
  have hfirst : (s.deleteMembership parent child).2.recomputeClosure.2.RowsFilled := h
  rcases deleteRelation_eq_ok hdelete with ⟨-, -, rfl⟩ | ⟨hremoved, -⟩ | ⟨-, -, rfl, -⟩
  · exact h
  · exact h.reclosed (reclosed_deleteMembership hremoved)
  · exact (hfirst.deleteGroups _).recomputeClosure

theorem RowsFilled.refresh (h : s.RowsFilled) (pair : Pair) (now : Timestamp) :
    (s.refresh pair now).RowsFilled := by
  intro q g hg
  rw [get?_refresh] at hg
  split at hg
  · obtain ⟨old, hold, rfl⟩ := Option.map_eq_some_iff.1 hg
    exact h pair old hold
  · exact h q g hg

theorem RowsFilled.refreshAll (h : s.RowsFilled) (now : Timestamp) (pairs : List Pair) :
    (s.refreshAll now pairs).2.RowsFilled := by
  induction pairs generalizing s with
  | nil => exact h
  | cons pair rest ih => exact ih (h.refresh pair now)

theorem RowsFilled.sweepPermissions (h : s.RowsFilled) (now : Timestamp) :
    (s.sweepPermissions now).2.RowsFilled :=
  (h.refreshAll now (s.pairsWithActivation now)).propagatePermissions
    (.ofKeys (s.pairsWithExpiredAncestor now)) now

theorem RowsFilled.call (h : s.RowsFilled) {policy : RetryPolicy} {call : Call} {ids : IdSource}
    {reply : Reply} (hrun : (Call.run policy now call ids s).1 = .ok (reply, s')) :
    s'.RowsFilled := by
  cases Effect.of_run hrun with
  | nothing hsame => rwa [hsame]
  | insertGroup hinsert =>
    obtain ⟨-, rfl⟩ := insertGroup_eq_ok hinsert
    exact h
  | reclose _ hreclosed hsettle => exact (h.reclosed hreclosed).settleClosure hsettle
  | resettle hsettle => exact h.settleClosure hsettle
  | deleteOrphans hdelete _ hsettle => exact (h.deleteRelation hdelete).settleClosure hsettle
  | transition hrequest =>
    rcases request_settles hrequest with ⟨t, hreclosed, hsettle⟩ | ⟨t, hjoin, hsettle⟩
    · exact (h.reclosed hreclosed).settleClosure hsettle
    · obtain ⟨ms, n, rfl⟩ := hjoin.frame
      refine RowsFilled.settleClosure ?_ hsettle
      exact h
  | appoint _ _ happointed => rw [happointed]; exact h
  | insertItem hinsert =>
    obtain ⟨-, rfl⟩ := insertItem_eq_ok hinsert
    exact h
  | link _ _ _ hsettle | unlink hsettle | grant _ _ hsettle | revoke hsettle =>
    refine RowsFilled.settlePairs ?_ hsettle
    exact h
  | sweep hsweep =>
    obtain ⟨-, results, hvisible⟩ := sweep_eq_ok hsweep
    obtain ⟨rs, rfl⟩ := (resultsGrow_settleVisible hvisible).frame
    exact h.sweepPermissions now
  | work hwork =>
    obtain ⟨_, _, _, _, rfl⟩ := hwork.onlyWork
    exact h

theorem rowsFilled_run (ids : IdSource) (clock : Timestamp) (policy : RetryPolicy)
    (steps : List Session.Step) :
    ((Session.start ids clock policy).run steps).committed.RowsFilled :=
  Session.committed_run rowsFilled_empty (fun _ _ _ _ _ _ _ h => h.call) ids clock policy steps

end Store

end Courseware
