import Courseware.Proofs.Exactness

/-!
# Access after orphans were deleted

When orphans are deleted along with a relation, what is known about their descendants goes with
them, between two recomputations of the closure neither of which tells of it. So a survivor that is
not told as changed keeps all its access. If all access was exact before, it is exact afterwards if
and only if these survivors owe nothing to grants to the deleted groups (`allExact_perform_iff`).
-/

namespace Courseware

namespace Store

variable {s s' t : Store} {now : Timestamp} {q : Pair}

/-! ### Deleting groups -/

/-- The store without the grants to some groups. -/
def withoutGrantsTo (s : Store) (ids : List GroupId) : Store :=
  { s with grants := s.grants.filter fun k _ => decide (k.1 ∉ ids) }

/-- The groups are gone with all memberships and grants of theirs, and what does not refer to them is
left. -/
structure Purged (ids : List GroupId) (s t : Store) : Prop where
  groups : ∀ g group, t.groups.get? g = some group ↔ s.groups.get? g = some group ∧ g ∉ ids
  memberships : ∀ k m, t.memberships.get? k = some m ↔
    s.memberships.get? k = some m ∧ k.1 ∉ ids ∧ k.2 ∉ ids
  items : t.items = s.items
  links : t.links = s.links
  ancestors : ∀ a d, a ∉ ids → d ∉ ids → t.ancestors.get? (a, d) = s.ancestors.get? (a, d)
  grants : t.grants = (s.withoutGrantsTo ids).grants
  generated : ∀ p : Pair, p.1 ∉ ids → t.generated.get? p = s.generated.get? p

theorem Purged.contains_groups {ids : List GroupId} (h : Purged ids s t) (g : GroupId) :
    t.groups.contains g = true ↔ s.groups.contains g = true ∧ g ∉ ids := by
  simp only [Table.contains_iff, h.groups, exists_and_right]

theorem purged_dropGroup (s : Store) (id : GroupId) : Purged [id] s (s.dropGroup id) := by
  refine ⟨fun g group => ?_, fun k m => ?_, rfl, rfl, fun a d ha hd => ?_, ?_, fun p hp => ?_⟩
  · rw [dropGroup, Table.get?_erase, List.mem_singleton]
    by_cases hg : id = g
    · simp [hg]
    · simp [hg, Ne.symm hg]
  · rw [dropGroup, Table.get?_filter_eq_some, List.mem_singleton, List.mem_singleton]
    simp
  · rw [List.mem_singleton] at ha hd
    exact Table.get?_filter_of_forall fun _ => by simp [ha, hd]
  · refine Table.ext_get? fun k => ?_
    simp [dropGroup, withoutGrantsTo]
  · rw [List.mem_singleton] at hp
    exact Table.get?_filter_of_forall fun _ => by simp [hp]

theorem Purged.trans {ids ids' : List GroupId} (hst : Purged ids s t) (htu : Purged ids' t s') :
    Purged (ids ++ ids') s s' := by
  refine ⟨fun g group => ?_, fun k m => ?_, htu.items.trans hst.items, htu.links.trans hst.links,
    fun a d ha hd => ?_, ?_, fun p hp => ?_⟩
  · rw [htu.groups, hst.groups, List.mem_append, not_or, and_assoc]
  · rw [htu.memberships, hst.memberships, List.mem_append, List.mem_append, not_or, not_or]
    constructor
    · rintro ⟨⟨hm, hparent, hchild⟩, hparent', hchild'⟩
      exact ⟨hm, ⟨hparent, hparent'⟩, hchild, hchild'⟩
    · rintro ⟨hm, ⟨hparent, hparent'⟩, hchild, hchild'⟩
      exact ⟨⟨hm, hparent, hchild⟩, hparent', hchild'⟩
  · rw [List.mem_append, not_or] at ha hd
    rw [htu.ancestors a d ha.2 hd.2, hst.ancestors a d ha.1 hd.1]
  · rw [htu.grants, withoutGrantsTo, hst.grants]
    refine Table.ext_get? fun k => Option.ext fun grant => ?_
    simp only [withoutGrantsTo, Table.get?_filter_eq_some, decide_eq_true_eq, List.mem_append,
      not_or, and_assoc]
  · rw [List.mem_append, not_or] at hp
    rw [htu.generated p hp.2, hst.generated p hp.1]

theorem purged_deleteGroups {ids : List GroupId} (hnodup : ids.Nodup)
    (hstored : ∀ id ∈ ids, s.groups.contains id = true) :
    Purged ids s (s.deleteGroups ids).2 := by
  induction ids generalizing s with
  | nil =>
    refine ⟨fun g group => by simp [deleteGroups], fun k m => by simp [deleteGroups], rfl, rfl,
      fun _ _ _ _ => rfl, ?_, fun _ _ => rfl⟩
    refine Table.ext_get? fun k => (Table.get?_filter_of_forall fun _ => ?_).symm
    simp
  | cons id rest ih =>
    obtain ⟨hnew, hrest⟩ := List.nodup_cons.1 hnodup
    have hdrop := purged_dropGroup s id
    rw [deleteGroups, if_pos (hstored id List.mem_cons_self)]
    refine hdrop.trans (ih hrest fun id' hid' => (hdrop.contains_groups id').2 ⟨?_, ?_⟩)
    · exact hstored id' (List.mem_cons_of_mem _ hid')
    · rw [List.mem_singleton]
      rintro rfl
      exact hnew hid'

/-- The group is stored and may be deleted along with a detached part of the hierarchy. -/
def Unprotected (s : Store) (g : GroupId) : Prop :=
  ∃ group, s.groups.get? g = some group ∧ group.kind.isProtected = false

theorem mem_unprotectedBelow {root g : GroupId} :
    g ∈ (s.unprotectedBelow root).keys ↔
      s.ancestors.contains (root, g) = true ∧ s.Unprotected g := by
  rw [unprotectedBelow, KeySet.mem_keys_ofKeys, List.mem_filterMap, Table.contains_iff]
  constructor
  · rintro ⟨⟨d, row⟩, hbelow, hsome⟩
    obtain ⟨group, hget, hself⟩ := Option.bind_eq_some_iff.1 hsome
    split at hself
    · simp at hself
    · rename_i hopen
      obtain rfl := Option.some.inj hself
      exact ⟨⟨row, mem_descendantsOf.1 hbelow⟩, group, hget, by simpa using hopen⟩
  · rintro ⟨⟨row, hrow⟩, group, hget, hopen⟩
    refine ⟨(g, row), mem_descendantsOf.2 hrow, ?_⟩
    simp [hget, hopen]

theorem mem_orphansBelow {root g : GroupId} :
    g ∈ s.orphansBelow root ↔
      g ∈ (s.unprotectedBelow root).keys ∧
        ∀ a, s.ancestors.contains (a, g) = true → a ∈ (s.unprotectedBelow root).keys := by
  rw [orphansBelow, List.mem_filter, List.all_eq_true]
  refine and_congr_right fun _ => ?_
  constructor
  · intro h a ha
    obtain ⟨row, hrow⟩ := Table.contains_iff.1 ha
    exact Table.mem_keys.2 (h (a, row) (mem_ancestorsOf.2 hrow))
  · rintro h ⟨a, row⟩ hmem
    exact Table.mem_keys.1 (h a (Table.contains_of_get? (mem_ancestorsOf.1 hmem)))

theorem nodup_orphansBelow (s : Store) (root : GroupId) : (s.orphansBelow root).Nodup :=
  (Table.nodup_keys _).filter _

theorem contains_of_mem_orphansBelow {root g : GroupId} (h : g ∈ s.orphansBelow root) :
    s.groups.contains g = true := by
  obtain ⟨-, group, hget, -⟩ := mem_unprotectedBelow.1 (mem_orphansBelow.1 h).1
  exact Table.contains_of_get? hget

theorem purged_deleteOrphans (s : Store) (root : GroupId) :
    Purged (s.orphansBelow root) s (s.deleteGroups (s.orphansBelow root)).2 :=
  purged_deleteGroups (nodup_orphansBelow s root) fun _ h => contains_of_mem_orphansBelow h

/-- What is left after orphans were deleted. A group that is not told as changed has kept its
ancestors, as far as they are left. -/
structure Bereft (deletion : RelationDeletion) (s t : Store) : Prop where
  groups : ∀ g, t.groups.contains g = true ↔
    s.groups.contains g = true ∧ g ∉ deletion.deletedGroups
  items : t.items = s.items
  links : t.links = s.links
  ancestors : ∀ a d, a ∉ deletion.deletedGroups → d ∉ deletion.deletedGroups →
    deletion.closure.changedGroups.contains d = false →
    t.ancestors.get? (a, d) = s.ancestors.get? (a, d)
  grants : t.grants = (s.withoutGrantsTo deletion.deletedGroups).grants
  generated : ∀ p : Pair, p.1 ∉ deletion.deletedGroups →
    t.generated.get? p = s.generated.get? p
  changed : ∀ d, deletion.closure.changedGroups.contains d = true → d ∉ deletion.deletedGroups

theorem contains_changedGroups_without {change again : ClosureChange} {ids : List GroupId}
    {d : GroupId} :
    ((change.merge again).without ids).changedGroups.contains d = true ↔
      (change.changedGroups.contains d = true ∨ again.changedGroups.contains d = true) ∧
        d ∉ ids := by
  rw [ClosureChange.without, ClosureChange.merge, Table.contains_filter_iff]
  simp only [decide_eq_true_eq, exists_and_right, ← Table.contains_iff, KeySet.contains_union,
    Bool.or_eq_true, or_comm]

theorem bereft_deleteRelation {parent child : GroupId} {allowOrphans : Bool}
    {deletion : RelationDeletion} (hdeleted : deletion.deletedGroups ≠ [])
    (h : s.deleteRelation parent child allowOrphans = .ok (deletion, s')) :
    Bereft deletion s s' := by
  rcases deleteRelation_eq_ok h with ⟨-, rfl, -⟩ | ⟨-, hnone⟩ | ⟨-, horphans, hs', hclosure⟩
  · exact absurd rfl hdeleted
  · exact absurd hnone hdeleted
  · generalize hdetached : (s.deleteMembership parent child).2 = detached at horphans hs' hclosure
    have hpurged : Purged deletion.deletedGroups detached.recomputeClosure.2
        (detached.recomputeClosure.2.deleteGroups deletion.deletedGroups).2 := by
      rw [horphans]
      exact purged_deleteOrphans _ child
    generalize (detached.recomputeClosure.2.deleteGroups deletion.deletedGroups).2 = purged at *
    subst hdetached hs'
    refine ⟨hpurged.contains_groups, hpurged.items, hpurged.links, fun a d ha hd hsame => ?_,
      hpurged.grants, hpurged.generated, fun d hd => ?_⟩
    · rw [hclosure, ← Bool.not_eq_true, contains_changedGroups_without, not_and_or, not_or,
        Bool.not_eq_true, Bool.not_eq_true] at hsame
      obtain ⟨hfirst, hagain⟩ := hsame.resolve_right fun hno => hno hd
      rw [get?_ancestors_recomputeClosure hagain, hpurged.ancestors a d ha hd,
        get?_ancestors_recomputeClosure hfirst]
      rfl
    · rw [hclosure, contains_changedGroups_without] at hd
      exact hd.2

/-! ### Access afterwards -/

variable {deletion : RelationDeletion}

/-- A group that is not told as changed is due what it was due, without what was granted to the
groups that are gone. -/
theorem Bereft.dueTiers (h : Bereft deletion s t) (hgroup : q.1 ∉ deletion.deletedGroups)
    (hsame : deletion.closure.changedGroups.contains q.1 = false) :
    t.dueTiers q now = (s.withoutGrantsTo deletion.deletedGroups).dueTiers q now := by
  refine dueTiers_congr (fun c tier => granted_congr h.grants fun k hk => ?_) fun c tier => ?_
  · obtain ⟨grant, -, hleft⟩ := Table.contains_filter_iff.1 hk
    exact h.ancestors k.1 q.1 (of_decide_eq_true hleft) hgroup hsame
  · exact inherited_congr h.links (fun whole _ => by rw [h.items]; rfl)
      fun whole _ => tiersOf_congr (h.generated (q.1, whole) hgroup)

/-- Settling a change of ancestors leaves alone what other groups have and are due. -/
theorem settleClosure_unchanged {change : ClosureChange}
    (hsettle : s.settleClosure change now = .ok s')
    (hsame : change.changedGroups.contains q.1 = false) :
    s'.generated.get? q = s.generated.get? q ∧ s'.dueTiers q now = s.dueTiers q now := by
  obtain ⟨outcome, hpairs⟩ := settleClosure_eq_ok hsettle
  obtain ⟨gen, hgen⟩ := propagatePermissions_frame s (.ofKeys (s.pairsForClosure change now)) now
  have hrow : ∀ p : Pair, change.changedGroups.contains p.1 = false →
      gen.get? p = s.generated.get? p := by
    intro p hp
    have hkept : (s.propagatePermissions (.ofKeys (s.pairsForClosure change now)) now).2.generated.get?
        p = s.generated.get? p := by
      refine get?_propagatePermissions_of_not
        (K := fun p => change.changedGroups.contains p.1 = true) (fun p p' hp hheir => ?_)
        (fun p' hp' => (mem_pairsForClosure.1 hp').1) (by simp [hp])
      rw [(mem_heirs.1 hheir).1]
      exact hp
    rwa [hgen] at hkept
  obtain ⟨rs, hs'⟩ := (resultsGrow_settlePairs hpairs).frame
  rw [hgen] at hs'
  subst hs'
  refine ⟨hrow q hsame, dueTiers_congr (fun c tier => Iff.rfl) fun c tier => ?_⟩
  exact inherited_congr rfl (fun _ _ => rfl) fun whole _ => tiersOf_congr (hrow (q.1, whole) hsame)

/-- Settling a change of ancestors makes exact what the changed groups have on some items, if pairs
without a row were exact before the change. -/
theorem pairExact_settleClosure {change : ClosureChange} (hlayered : s.Layered)
    (hfilled : s.RowsFilled) (hsettle : s.settleClosure change now = .ok s')
    (domain : Pair → Prop)
    (hdomain : ∀ q, domain q → change.changedGroups.contains q.1 = true)
    (hbare : ∀ q, domain q → s.generated.get? q = none → ∀ c tier, ¬ s.Inherited q c tier)
    (hq : domain q) : s'.PairExact now q := by
  obtain ⟨outcome, hpairs⟩ := settleClosure_eq_ok hsettle
  have hsettled : (s.propagatePermissions (.ofKeys (s.pairsForClosure change now)) now).2.PairExact
      now q := by
    refine ((pairLaw_pairExact now).restrict domain).propagate hlayered hfilled (fun p => ?_) q hq
    by_cases hmem : p ∈ s.pairsForClosure change now
    · exact Or.inl hmem
    · refine Or.inr fun hp => ?_
      rw [mem_pairsForClosure, not_and, not_or, Bool.not_eq_true] at hmem
      obtain ⟨hnone, hgrants⟩ := hmem (hdomain p hp)
      rw [← Table.get?_eq_none_iff] at hnone
      rw [pairExact_iff hfilled, tiersOf_of_none hnone, eq_comm, dueTiers_eq_empty]
      exact fun c tier =>
        ⟨fun hgranted => hgrants hgranted.exists_effective, hbare p hp hnone c tier⟩
  obtain ⟨rs, rfl⟩ := (resultsGrow_settlePairs hpairs).frame
  exact hsettled.congr rfl rfl

/-- The survivors that are not told as changed are due the same with and without the grants to the
deleted groups. -/
def OwesNothing (s : Store) (now : Timestamp) (deletion : RelationDeletion) : Prop :=
  ∀ group, s.groups.contains group = true → group ∉ deletion.deletedGroups →
    deletion.closure.changedGroups.contains group = false →
    ∀ item, s.items.contains item = true →
      (s.withoutGrantsTo deletion.deletedGroups).dueTiers (group, item) now =
        s.dueTiers (group, item) now

instance (s : Store) (now : Timestamp) (deletion : RelationDeletion) :
    Decidable (s.OwesNothing now deletion) :=
  decidable_of_iff
    (∀ group ∈ s.groups.keys, group ∉ deletion.deletedGroups →
      deletion.closure.changedGroups.contains group = false →
      ∀ item ∈ s.items.keys,
        (s.withoutGrantsTo deletion.deletedGroups).dueTiers (group, item) now =
          s.dueTiers (group, item) now)
    (by simp only [Table.mem_keys, OwesNothing])

theorem allExact_unrelate_iff (hcoherent : s.Coherent) (hfilled : s.RowsFilled)
    (hexact : s.AllExact now) {parent child : GroupId} {allowOrphans : Bool}
    (hdeleted : deletion.deletedGroups ≠ [])
    (h : s.unrelate parent child allowOrphans now = .ok (deletion, s')) :
    s'.AllExact now ↔ s.OwesNothing now deletion := by
  obtain ⟨t, hdelete, hsettle⟩ := unrelate_eq_ok h
  have hlayered := (hcoherent.deleteRelation hdelete).toLayered
  have hfilled' := hfilled.deleteRelation hdelete
  have hbereft := bereft_deleteRelation hdeleted hdelete
  obtain ⟨gen, rs, hframe⟩ := settleClosure_frame hsettle
  have hgroups : ∀ g, s'.groups.contains g = true ↔
      s.groups.contains g = true ∧ g ∉ deletion.deletedGroups := by
    rw [hframe]
    exact hbereft.groups
  have hitems : s'.items = s.items := by
    rw [hframe]
    exact hbereft.items
  -- A survivor that is not told as changed has kept its tiers.
  have hkept : ∀ group item, group ∉ deletion.deletedGroups →
      deletion.closure.changedGroups.contains group = false →
      s'.tiersOf (group, item) = s.tiersOf (group, item) ∧
        s'.dueTiers (group, item) now =
          (s.withoutGrantsTo deletion.deletedGroups).dueTiers (group, item) now := by
    intro group item hgroup hsame
    obtain ⟨hrow, hdue⟩ := settleClosure_unchanged (q := (group, item)) hsettle hsame
    rw [tiersOf_congr (hrow.trans (hbereft.generated _ hgroup)), hdue,
      hbereft.dueTiers hgroup hsame]
    exact ⟨rfl, rfl⟩
  constructor
  · intro hafter group hgroup hleft hsame item hitem
    obtain ⟨htiers, hdue⟩ := hkept group item hleft hsame
    rw [← hdue, ← (hexact group hgroup item hitem).tiers, ← htiers]
    refine (hafter group ((hgroups group).2 ⟨hgroup, hleft⟩) item ?_).tiers.symm
    rw [hitems]
    exact hitem
  · intro howes group hgroup item hitem
    obtain ⟨hstored, hleft⟩ := (hgroups group).1 hgroup
    rw [hitems] at hitem
    cases hsame : deletion.closure.changedGroups.contains group with
    | false =>
      obtain ⟨htiers, hdue⟩ := hkept group item hleft hsame
      rw [pairExact_iff (hfilled'.settleClosure hsettle), htiers, hdue,
        howes group hstored hleft hsame item hitem]
      exact (hexact group hstored item hitem).tiers
    | true =>
      refine pairExact_settleClosure hlayered hfilled' hsettle
        (fun p => deletion.closure.changedGroups.contains p.1 = true ∧
          s.groups.contains p.1 = true ∧ s.items.contains p.2 = true)
        (fun p hp => hp.1) (fun p ⟨hchanged, hp1, hp2⟩ hnone c tier hinherited => ?_)
        ⟨hsame, hstored, hitem⟩
      have hgone := hbereft.changed p.1 hchanged
      rw [hbereft.generated p hgone] at hnone
      have hdue := (hexact p.1 hp1 p.2 hp2).tiers
      rw [tiersOf_of_none hnone, eq_comm, dueTiers_eq_empty] at hdue
      refine (hdue c tier).2 ((inherited_congr hbereft.links
        (fun whole _ => by rw [hbereft.items]) fun whole _ => ?_).1 hinherited)
      exact tiersOf_congr (hbereft.generated (p.1, whole) hgone)

end Store

namespace Session

open Store

/-- If all access was exact when a relation and orphans with it were deleted, all access of those
that are left is exact afterwards if and only if the deletion takes from no group anything that it
does not tell as changed. -/
theorem allExact_perform_iff (ids : IdSource) (clock : Timestamp) (policy : RetryPolicy)
    (steps : List Step) {parent child : GroupId} {allowOrphans : Bool} {deletion : RelationDeletion}
    (hexact : ((start ids clock policy).run steps).committed.AllExact
      ((start ids clock policy).run steps).clock)
    (hperform : (((start ids clock policy).run steps).perform
      (.deleteRelation parent child allowOrphans)).1 = .ok (.deletion deletion))
    (hdeleted : deletion.deletedGroups ≠ []) :
    (((start ids clock policy).run steps).perform
        (.deleteRelation parent child allowOrphans)).2.committed.AllExact
        ((start ids clock policy).run steps).clock ↔
      ((start ids clock policy).run steps).committed.OwesNothing
        ((start ids clock policy).run steps).clock deletion := by
  obtain ⟨store, hout, hcommitted⟩ := perform_ok hperform
  obtain ⟨deletion', hunrelate, hreply⟩ := Reply.onSuccess_eq_ok.1 hout
  obtain rfl : deletion' = deletion := Reply.deletion.inj hreply
  rw [hcommitted]
  exact allExact_unrelate_iff (coherent_run ids clock policy steps)
    (rowsFilled_run ids clock policy steps) hexact hdeleted hunrelate

/-- A user in a class to which an item was given. -/
def classAccess : List Step :=
  let plain : GroupKind → Group := fun kind => ⟨"", kind, true, none, none, none⟩
  [ .call (.createGroup 1 (plain .base)),
    .call (.createGroup 2 (plain .classroom)),
    .call (.createGroup 3 (plain .user)),
    .call (.createRelation 1 2 .unset),
    .call (.createRelation 2 3 .unset),
    .call (.createItem 10 .plain),
    .call (.grant 2 10 1 ⟨.content, .none, .none, .none, false, .always⟩) ]

theorem allExact_classAccess :
    ((start (.ofList []) .zero .standard).run classAccess).committed.AllExact .zero ∧
      (((start (.ofList []) .zero .standard).run classAccess).perform
        (.deleteRelation 1 2 true)).1 = .ok (.deletion ⟨true, [2], ⟨.ofKeys [3], 0, 2⟩⟩) ∧
      (((start (.ofList []) .zero .standard).run classAccess).perform
        (.deleteRelation 1 2 true)).2.committed.AllExact .zero := by
  have hexact : ((start (.ofList []) .zero .standard).run classAccess).committed.AllExact .zero := by
    decide +kernel
  have hperform : (((start (.ofList []) .zero .standard).run classAccess).perform
      (.deleteRelation 1 2 true)).1 = .ok (.deletion ⟨true, [2], ⟨.ofKeys [3], 0, 2⟩⟩) := by
    decide +kernel
  exact ⟨hexact, hperform, (allExact_perform_iff (.ofList []) .zero .standard classAccess hexact
    hperform (by decide)).2 (by decide +kernel)⟩

/-- The user is in the root as well, so that losing the class leaves its other ancestors alone. -/
def doubleAccess : List Step := classAccess ++ [.call (.createRelation 1 3 .unset)]

theorem doubleAccess_not_allExact :
    ((start (.ofList []) .zero .standard).run doubleAccess).committed.ClosureExact ∧
      ((start (.ofList []) .zero .standard).run doubleAccess).committed.AllExact .zero ∧
      (((start (.ofList []) .zero .standard).run doubleAccess).perform
        (.deleteRelation 1 2 true)).1 = .ok (.deletion ⟨true, [2], ⟨∅, 0, 1⟩⟩) ∧
      ¬ (((start (.ofList []) .zero .standard).run doubleAccess).perform
        (.deleteRelation 1 2 true)).2.committed.AllExact .zero := by
  rw [closureExact_iff]
  decide +kernel

end Session

end Courseware
