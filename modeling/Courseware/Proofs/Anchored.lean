import Courseware.Proofs.Concern

/-!
# What is worked out refers to stored rows

The records of ancestors and the rows of access are not written on anybody's word, and they too are
about stored groups and items only (`anchored_run`): walks of memberships lead to stored groups, and
nothing is due to a group or on an item that is not there. So it makes no difference whether access
is exact for stored groups on stored items or for all pairs (`Anchored.allExact_iff`).
-/

namespace Courseware

namespace Store

open Network

variable {s s' t : Store} {q pair : Pair} {now : Timestamp}

/-- All rows refer to stored rows, and links never close a cycle. -/
structure Anchored (s : Store) : Prop extends Coherent s where
  ancestors : ∀ k, s.ancestors.contains k = true →
    s.groups.contains k.1 = true ∧ s.groups.contains k.2 = true
  generated : ∀ q, s.generated.contains q = true →
    s.groups.contains q.1 = true ∧ s.items.contains q.2 = true

theorem anchored_empty : Store.empty.Anchored := by
  refine ⟨coherent_empty, fun k hk => ?_, fun q hq => ?_⟩
  · simp [Store.empty] at hk
  · simp [Store.empty] at hq

/-! ### What is due -/

theorem Anchored.stored_of_granted (h : s.Anchored) {c : Component} {tier : Tier}
    (hgranted : s.Granted q now c tier) :
    s.groups.contains q.1 = true ∧ s.items.contains q.2 = true := by
  obtain ⟨k, grant, hget, hitem, hancestor, -⟩ := hgranted
  obtain ⟨record, hrecord, -⟩ := isAncestorAt_iff.1 hancestor
  refine ⟨(h.ancestors _ (Table.contains_of_get? hrecord)).2, ?_⟩
  rw [← hitem]
  exact (h.grants k (Table.contains_of_get? hget)).2

theorem Anchored.stored_of_inherited (h : s.Anchored) {c : Component} {tier : Tier}
    (hinherited : s.Inherited q c tier) :
    s.groups.contains q.1 = true ∧ s.items.contains q.2 = true := by
  obtain ⟨whole, link, item, hlink, -, -, htier⟩ := hinherited
  refine ⟨?_, (h.links _ (Table.contains_of_get? hlink)).2⟩
  cases hrow : s.generated.get? (q.1, whole) with
  | none =>
    rw [tiersOf_of_none hrow, get_inherit_empty] at htier
    exact absurd htier List.not_mem_nil
  | some row => exact (h.generated _ (Table.contains_of_get? hrow)).1

/-- Only stored groups are due anything, and only on stored items. -/
theorem Anchored.stored_of_due (h : s.Anchored) (hdue : s.dueTiers q now ≠ ∅) :
    s.groups.contains q.1 = true ∧ s.items.contains q.2 = true := by
  by_contra hmissing
  refine hdue (dueTiers_eq_empty.2 fun c tier => ⟨fun hgranted => ?_, fun hinherited => ?_⟩)
  · exact hmissing (h.stored_of_granted hgranted)
  · exact hmissing (h.stored_of_inherited hinherited)

/-- Where a group or an item is missing, nothing is stored and nothing is due. -/
theorem Anchored.pairExact_of_missing (h : s.Anchored)
    (hmissing : ¬ (s.groups.contains q.1 = true ∧ s.items.contains q.2 = true)) :
    s.PairExact now q := by
  have hnone : s.generated.get? q = none := by
    rw [Table.get?_eq_none_iff, ← Bool.not_eq_true]
    exact fun hrow => hmissing (h.generated q hrow)
  have hdue : s.dueTiers q now = ∅ := by
    by_contra hdue
    exact hmissing (h.stored_of_due hdue)
  exact (fresh_of_none hnone hdue).pairExact

theorem Anchored.allExact_iff (h : s.Anchored) :
    s.AllExact now ↔ ∀ q, s.PairExact now q := by
  refine ⟨fun hexact q => ?_, fun hexact group _ item _ => hexact (group, item)⟩
  by_cases hstored : s.groups.contains q.1 = true ∧ s.items.contains q.2 = true
  · exact hexact q.1 hstored.1 q.2 hstored.2
  · exact h.pairExact_of_missing hstored

theorem Anchored.tiersOf_eq (h : s.Anchored) (hexact : s.AllExact now) (q : Pair) :
    s.tiersOf q = s.dueTiers q now :=
  (h.allExact_iff.1 hexact q).tiers

/-! ### Working out access -/

/-- Recomputing a pair makes a row only if something is due. -/
theorem contains_recomputePair
    (hrow : (s.recomputePair pair now).2.generated.contains q = true) :
    s.generated.contains q = true ∨ (q = pair ∧ s.dueTiers pair now ≠ ∅) := by
  have hset : (s.setTiers pair (s.dueTiers pair now) now).generated.contains q = true →
      s.generated.contains q = true ∨ (q = pair ∧ s.dueTiers pair now ≠ ∅) := by
    intro hrow
    rw [Table.contains_eq_isSome, get?_setTiers, freshRow] at hrow
    split at hrow
    · rename_i hq
      split at hrow
      · simp at hrow
      · rename_i hsome
        exact Or.inr ⟨hq, fun hnone => hsome (Tiers.isEmpty_iff.2 hnone)⟩
    · exact Or.inl hrow
  rw [recomputePair] at hrow
  split at hrow
  · split at hrow
    · rw [refresh, Table.contains_modify] at hrow
      exact Or.inl hrow
    · exact hset hrow
  · split at hrow
    · exact Or.inl hrow
    · exact hset hrow

theorem Anchored.recomputePair (h : s.Anchored) (pair : Pair) (now : Timestamp) :
    (s.recomputePair pair now).2.Anchored := by
  have hrows := @contains_recomputePair s
  obtain ⟨gen, hgen⟩ := recomputePair_frame s pair now
  refine ⟨?_, ?_, fun q hq => ?_⟩
  · rw [hgen]
    exact h.toCoherent.setGenerated gen
  · rw [hgen]
    exact h.ancestors
  · have hstored : s.groups.contains q.1 = true ∧ s.items.contains q.2 = true := by
      rcases hrows hq with hrow | ⟨rfl, hdue⟩
      · exact h.generated q hrow
      · exact h.stored_of_due hdue
    rw [hgen]
    exact hstored

theorem Anchored.propagatePermissions (h : s.Anchored) (w : Worklist Pair) (now : Timestamp) :
    (s.propagatePermissions w now).2.Anchored :=
  propagatePermissions_keeps (fun _ pair ht => ht.recomputePair pair now) h w

theorem Anchored.resultsGrow (h : s.Anchored) (hgrow : s.ResultsGrow s') : s'.Anchored := by
  have hcoherent := h.toCoherent.resultsGrow hgrow
  obtain ⟨⟨rs, rfl⟩, -, -⟩ := hgrow
  exact ⟨hcoherent, h.ancestors, h.generated⟩

theorem Anchored.settlePairs (h : s.Anchored) {pairs : List Pair} {outcome : PermissionOutcome}
    (hsettle : s.settlePairs pairs now = .ok (outcome, s')) : s'.Anchored :=
  (h.propagatePermissions _ now).resultsGrow (resultsGrow_settlePairs hsettle)

theorem Anchored.settleClosure (h : s.Anchored) {change : ClosureChange}
    (hsettle : s.settleClosure change now = .ok s') : s'.Anchored := by
  obtain ⟨outcome, hpairs⟩ := settleClosure_eq_ok hsettle
  exact h.settlePairs hpairs

theorem Anchored.refreshAll (h : s.Anchored) (now : Timestamp) (pairs : List Pair) :
    (s.refreshAll now pairs).2.Anchored := by
  induction pairs generalizing s with
  | nil => exact h
  | cons pair rest ih =>
    refine ih ⟨h.toCoherent.setGenerated _, h.ancestors, fun q hq => h.generated q ?_⟩
    rwa [Store.refresh, Table.contains_modify] at hq

theorem Anchored.sweep (h : s.Anchored) {outcome : PermissionOutcome}
    (hsweep : s.sweep now = .ok (outcome, s')) : s'.Anchored := by
  obtain ⟨-, results, hvisible⟩ := sweep_eq_ok hsweep
  exact ((h.refreshAll now _).propagatePermissions _ now).resultsGrow
    (resultsGrow_settleVisible hvisible)

/-! ### Groups -/

theorem Anchored.recomputeClosure (h : s.Anchored) : s.recomputeClosure.2.Anchored := by
  refine ⟨h.toCoherent.recomputeClosure, fun k hk => ?_, h.generated⟩
  rw [recomputeClosure_store] at hk
  obtain ⟨hancestor, e, hwalk⟩ := contains_closure.1 hk
  exact ⟨hancestor, h.contains_of_walk hwalk hancestor⟩

theorem Anchored.rejoins (h : s.Anchored) (hjoin : s.Rejoins s') : s'.Anchored := by
  have hcoherent := h.toCoherent.rejoins hjoin
  obtain ⟨⟨ms, n, rfl⟩, -⟩ := hjoin
  exact ⟨hcoherent, h.ancestors, h.generated⟩

theorem Anchored.reclosed (h : s.Anchored) {change : ClosureChange}
    (hreclosed : Reclosed change s s') : s'.Anchored := by
  obtain ⟨t, hjoin, hclosure⟩ := hreclosed
  have hanchored := (h.rejoins hjoin).recomputeClosure
  rwa [hclosure] at hanchored

theorem Anchored.insertGroup (h : s.Anchored) {id : GroupId} {group : Group}
    (hinsert : s.insertGroup id group = .ok s') : s'.Anchored := by
  have hcoherent := h.toCoherent.insertGroup hinsert
  obtain ⟨-, rfl⟩ := insertGroup_eq_ok hinsert
  refine ⟨hcoherent, fun k hk => ?_, fun q hq => ?_⟩
  · have hkey : k = (id, id) ∨ s.ancestors.contains k = true := by
      dsimp only at hk
      split at hk
      · exact Or.inr hk
      · rw [Table.contains_insert, Bool.or_eq_true, decide_eq_true_eq, eq_comm] at hk
        exact hk
    rcases hkey with rfl | hkey
    · simp
    · obtain ⟨h1, h2⟩ := h.ancestors k hkey
      simp [h1, h2]
  · obtain ⟨h1, h2⟩ := h.generated q hq
    simp [h1, h2]

theorem Anchored.dropGroup (h : s.Anchored) (id : GroupId) : (s.dropGroup id).Anchored := by
  have hgroup : ∀ g, s.groups.contains g = true → g ≠ id →
      (s.dropGroup id).groups.contains g = true :=
    fun _ hg hne => Table.contains_erase_iff.2 ⟨hg, hne⟩
  refine ⟨h.toCoherent.dropGroup id, fun k hk => ?_, fun q hq => ?_⟩
  · obtain ⟨record, hrecord, hne⟩ := Table.contains_filter_iff.1 hk
    obtain ⟨h1, h2⟩ := h.ancestors k (Table.contains_of_get? hrecord)
    simp only [Bool.and_eq_true, decide_eq_true_eq] at hne
    exact ⟨hgroup _ h1 hne.1, hgroup _ h2 hne.2⟩
  · obtain ⟨row, hrow, hne⟩ := Table.contains_filter_iff.1 hq
    obtain ⟨h1, h2⟩ := h.generated q (Table.contains_of_get? hrow)
    exact ⟨hgroup _ h1 (of_decide_eq_true hne), h2⟩

theorem Anchored.deleteRelation (h : s.Anchored) {parent child : GroupId} {allowOrphans : Bool}
    {deletion : RelationDeletion}
    (hdelete : s.deleteRelation parent child allowOrphans = .ok (deletion, s')) : s'.Anchored := by
  have hdetached := (h.rejoins (rejoins_deleteMembership s parent child)).recomputeClosure
  rcases deleteRelation_eq_ok hdelete with ⟨-, -, rfl⟩ | ⟨hremoved, -⟩ | ⟨-, -, rfl, -⟩
  · exact h
  · exact h.reclosed (reclosed_deleteMembership hremoved)
  · exact (deleteGroups_keeps (fun _ id ht => ht.dropGroup id) hdetached _).recomputeClosure

/-! ### Calls -/

theorem Anchored.insertItem (h : s.Anchored) {id : ItemId} {item : Item}
    (hinsert : s.insertItem id item = .ok s') : s'.Anchored := by
  have hcoherent := h.toCoherent.insertItem hinsert
  obtain ⟨-, rfl⟩ := insertItem_eq_ok hinsert
  refine ⟨hcoherent, h.ancestors, fun q hq => ?_⟩
  obtain ⟨h1, h2⟩ := h.generated q hq
  simp [h1, h2]

theorem Anchored.call (h : s.Anchored) {policy : RetryPolicy} {call : Call} {ids : IdSource}
    {reply : Reply} (hrun : (Call.run policy now call ids s).1 = .ok (reply, s')) :
    s'.Anchored := by
  have hcoherent := h.toCoherent.call hrun
  cases Effect.of_run hrun with
  | nothing hsame => rwa [hsame]
  | insertGroup hinsert => exact h.insertGroup hinsert
  | reclose _ hreclosed hsettle => exact (h.reclosed hreclosed).settleClosure hsettle
  | resettle hsettle => exact h.settleClosure hsettle
  | deleteOrphans hdelete _ hsettle => exact (h.deleteRelation hdelete).settleClosure hsettle
  | transition hrequest =>
    rcases request_settles hrequest with ⟨t, hreclosed, hsettle⟩ | ⟨t, hjoin, hsettle⟩
    · exact (h.reclosed hreclosed).settleClosure hsettle
    · exact (h.rejoins hjoin).settleClosure hsettle
  | appoint _ _ happointed =>
    rw [happointed]
    exact ⟨h.toCoherent.setManagers _, h.ancestors, h.generated⟩
  | insertItem hinsert => exact h.insertItem hinsert
  | @link reply parent child link _ hparent hchild hreach hsettle =>
    have hlinked : (s.withLink parent child link).Anchored :=
      ⟨h.toCoherent.withLink link hparent hchild hreach, h.ancestors, h.generated⟩
    exact (hlinked.resultsGrow (resultsGrow_markResults _ _ _)).settlePairs hsettle
  | @unlink _ reply parent child _ hsettle =>
    have hunlinked : (s.withoutLink parent child).Anchored :=
      ⟨h.toCoherent.withoutLink parent child, h.ancestors, h.generated⟩
    exact (hunlinked.resultsGrow (resultsGrow_markResults _ _ _)).settlePairs hsettle
  | grant hgroup hitem hsettle =>
    exact (Anchored.mk (h.toCoherent.insertGrant _ _ hgroup hitem) h.ancestors
      h.generated).settlePairs hsettle
  | revoke hsettle =>
    exact (Anchored.mk (h.toCoherent.eraseGrant _) h.ancestors h.generated).settlePairs hsettle
  | sweep hsweep => exact h.sweep hsweep
  | work hwork =>
    obtain ⟨_, _, _, _, rfl⟩ := hwork.onlyWork
    exact ⟨hcoherent, h.ancestors, h.generated⟩

theorem anchored_run (ids : IdSource) (clock : Timestamp) (policy : RetryPolicy)
    (steps : List Session.Step) : ((Session.start ids clock policy).run steps).committed.Anchored :=
  Session.committed_run anchored_empty (fun _ _ _ _ _ _ _ h => h.call) ids clock policy steps

end Store

end Courseware
