import Courseware.Proofs.ItemGraph
import Courseware.Proofs.Orphans

/-!
# What goes with the last parent of a group

A group that loses its only parent is cut off with all that is below it. Deleted are those groups
below it that may be deleted and have nothing above them but groups of the same kind, itself among
them (`mem_orphansBelow_iff`): a user or a root somewhere on the way shelters what is below it, and
so does another way in from outside. Whatever is left although it might have been deleted still has a
group above it, since no group on the way down from its shelter is deleted (`IsAbove.survives`).
-/

namespace Courseware

namespace Store

open Network Relation

variable {s t : Store} {parent child root a g : GroupId}

/-! ### Above and below -/

/-- Active memberships lead down from one group to the other, or they are the same. -/
def IsAbove (s : Store) : GroupId → GroupId → Prop := ReflTransGen s.activeNetwork.Leads

theorem RecordsWalks.contains_iff_isAbove (h : s.RecordsWalks) :
    s.ancestors.contains (a, g) = true ↔ s.groups.contains a = true ∧ s.IsAbove a g := by
  rw [h.contains_iff, exists_walk_iff, IsAbove]

/-- What is above a stored group is stored. -/
theorem Coherent.contains_of_isAbove (h : s.Coherent) (habove : s.IsAbove a g)
    (hg : s.groups.contains g = true) : s.groups.contains a = true := by
  rcases ReflTransGen.cases_head habove with heq | ⟨next, hlink, -⟩
  · rw [heq]
    exact hg
  · obtain ⟨m, hm, -⟩ := contains_activeNetwork.1 hlink
    exact (h.memberships _ (Table.contains_of_get? hm)).1

/-- The group is below another that is cut off, and may be deleted with it. -/
def CutOff (s : Store) (root g : GroupId) : Prop := s.Unprotected g ∧ s.IsAbove root g

theorem mem_unprotectedBelow_iff (hwalks : s.RecordsWalks)
    (hroot : s.groups.contains root = true) :
    g ∈ (s.unprotectedBelow root).keys ↔ s.CutOff root g := by
  rw [mem_unprotectedBelow, hwalks.contains_iff_isAbove, CutOff]
  constructor
  · intro h
    exact ⟨h.2, h.1.2⟩
  · intro h
    exact ⟨⟨hroot, h.2⟩, h.1⟩

/-- Orphans are the groups cut off that have only such groups above them. -/
theorem mem_orphansBelow_iff (hcoherent : s.Coherent) (hwalks : s.RecordsWalks)
    (hroot : s.groups.contains root = true) :
    g ∈ s.orphansBelow root ↔ s.CutOff root g ∧ ∀ a, s.IsAbove a g → s.CutOff root a := by
  rw [mem_orphansBelow, mem_unprotectedBelow_iff hwalks hroot]
  apply and_congr_right
  intro hcut
  obtain ⟨group, hget, -⟩ := hcut.1
  apply forall_congr'
  intro a
  rw [hwalks.contains_iff_isAbove, mem_unprotectedBelow_iff hwalks hroot]
  constructor
  · intro h habove
    exact h ⟨hcoherent.contains_of_isAbove habove (Table.contains_of_get? hget), habove⟩
  · intro h ha
    exact h ha.2

/-- A way down on which no group is deleted is still there. -/
theorem IsAbove.survives {deleted : List GroupId}
    (hkept : ∀ k m, s.memberships.get? k = some m → k.1 ∉ deleted → k.2 ∉ deleted →
      t.memberships.get? k = some m)
    (hway : ∀ x, s.IsAbove a x → x ∉ deleted) (h : s.IsAbove a g) : t.IsAbove a g := by
  induction h with
  | refl => exact .refl
  | tail hpath hlink ih =>
    obtain ⟨m, hm, hactive⟩ := contains_activeNetwork.1 hlink
    have hm' := hkept _ m hm (hway _ hpath) (hway _ (hpath.tail hlink))
    exact ih.tail (contains_activeNetwork.2 ⟨m, hm', hactive⟩)

/-! ### Deleting what is cut off -/

/-- What becomes of the groups once `child` has lost its last parent, `left` being the store without
that membership. -/
structure Cascade (left : Store) (child : GroupId) (deleted : List GroupId) (after : Store) :
    Prop where
  /-- Deleted is what is cut off and has only such groups above it. -/
  mem_deleted : ∀ g, g ∈ deleted ↔
    left.CutOff child g ∧ ∀ a, left.IsAbove a g → left.CutOff child a
  /-- All other groups are left as they are. -/
  groups : ∀ g group, after.groups.get? g = some group ↔
    left.groups.get? g = some group ∧ g ∉ deleted
  memberships : ∀ k m, after.memberships.get? k = some m ↔
    left.memberships.get? k = some m ∧ k.1 ∉ deleted ∧ k.2 ∉ deleted
  /-- What is cut off and not deleted has another group as a recorded ancestor. -/
  sheltered : ∀ g, left.CutOff child g → g ∉ deleted →
    ∃ a, a ≠ g ∧ after.groups.contains a = true ∧ after.ancestors.contains (a, g) = true
  exact : after.ClosureExact

theorem cascade_deleteOrphans (hcoherent : s.Coherent) (hroot : s.groups.contains child = true) :
    Cascade s child (s.recomputeClosure.2.orphansBelow child)
      (s.recomputeClosure.2.deleteGroups
        (s.recomputeClosure.2.orphansBelow child)).2.recomputeClosure.2 := by
  have hmem : ∀ g, g ∈ s.recomputeClosure.2.orphansBelow child ↔
      s.CutOff child g ∧ ∀ a, s.IsAbove a g → s.CutOff child a := by
    intro g
    have hwalks := (closureExact_recomputeClosure s).toRecordsWalks
    exact mem_orphansBelow_iff hcoherent.recomputeClosure hwalks hroot
  have hpurged := purged_deleteOrphans s.recomputeClosure.2 child
  generalize s.recomputeClosure.2.orphansBelow child = deleted at hmem hpurged ⊢
  generalize (s.recomputeClosure.2.deleteGroups deleted).2 = purged at hpurged ⊢
  have hexact := closureExact_recomputeClosure purged
  refine ⟨hmem, hpurged.groups, hpurged.memberships, ?_, hexact⟩
  intro g hcut hleft
  -- Something above it is not cut off, and so nothing below that is deleted.
  obtain ⟨a, habove, hshelter⟩ : ∃ a, s.IsAbove a g ∧ ¬ s.CutOff child a := by
    by_contra hno
    push Not at hno
    exact hleft ((hmem g).2 ⟨hcut, hno⟩)
  have hway : ∀ x, s.IsAbove a x → x ∉ deleted := fun x hx hdeleted =>
    hshelter (((hmem x).1 hdeleted).2 a hx)
  have hstored : purged.groups.contains a = true := by
    obtain ⟨group, hget, -⟩ := hcut.1
    have ha := hcoherent.contains_of_isAbove habove (Table.contains_of_get? hget)
    exact (hpurged.contains_groups a).2 ⟨ha, hway a .refl⟩
  have hsurvives : purged.IsAbove a g :=
    habove.survives (fun k m hm hk hk' => (hpurged.memberships k m).2 ⟨hm, hk, hk'⟩) hway
  refine ⟨a, ?_, hstored, hexact.toRecordsWalks.contains_iff_isAbove.2 ⟨hstored, hsurvives⟩⟩
  intro heq
  rw [heq] at hshelter
  exact hshelter hcut

/-! ### Removing the last membership -/

/-- The group is an active member of one group only, ended memberships counted. -/
def OnlyParent (s : Store) (parent child : GroupId) : Prop :=
  ∀ other, s.activeNetwork.contains (other, child) = true ↔ other = parent

theorem mem_activeParents : a ∈ s.activeParents child ↔
    s.activeNetwork.contains (a, child) = true := by
  rw [activeParents, List.mem_map, contains_activeNetwork]
  constructor
  · rintro ⟨⟨⟨p, c⟩, m⟩, hmem, rfl⟩
    obtain ⟨hrow, hcond⟩ := List.mem_filter.1 hmem
    obtain ⟨hchild, hactive⟩ := Bool.and_eq_true_iff.1 hcond
    obtain rfl : c = child := of_decide_eq_true hchild
    exact ⟨m, Table.mem_toList_iff.1 hrow, of_decide_eq_true hactive⟩
  · rintro ⟨m, hm, hactive⟩
    refine ⟨((a, child), m), List.mem_filter.2 ⟨Table.mem_toList_iff.2 hm, ?_⟩, rfl⟩
    exact Bool.and_eq_true_iff.2 ⟨decide_eq_true rfl, decide_eq_true hactive⟩

/-- Without leave to delete orphans the last membership is not removed. With it, the orphans go. -/
theorem OnlyParent.deleteRelation (h : s.OnlyParent parent child) :
    s.deleteRelation parent child false = .error (.orphaned child) ∧
      ∀ deletion t, s.deleteRelation parent child true = .ok (deletion, t) →
        deletion.deletedGroups =
            (s.deleteMembership parent child).2.recomputeClosure.2.orphansBelow child ∧
          t = ((s.deleteMembership parent child).2.recomputeClosure.2.deleteGroups
            deletion.deletedGroups).2.recomputeClosure.2 := by
  obtain ⟨m, hm, hactive⟩ := contains_activeNetwork.1 ((h parent).2 rfl)
  have horphaned : (m.isActive && (s.activeParents child).all fun p => p = parent) = true := by
    rw [Bool.and_eq_true, List.all_eq_true]
    exact ⟨decide_eq_true hactive,
      fun p hp => decide_eq_true ((h p).1 (mem_activeParents.1 hp))⟩
  rw [Store.deleteRelation, Store.deleteRelation, hm]
  simp only [horphaned]
  refine ⟨rfl, fun deletion t hdelete => ?_⟩
  have hclosed := recomputeClosure_of_closed
    (closed_recomputeClosure (s.deleteMembership parent child).2)
  rcases hfirst : (s.deleteMembership parent child).2.recomputeClosure with ⟨change, u⟩
  simp only [hfirst] at hdelete hclosed ⊢
  rw [if_neg (by simp), if_pos trivial] at hdelete
  split at hdelete
  · -- Where there are no orphans the second recomputation finds nothing to do.
    rename_i hnone
    obtain ⟨rfl, rfl⟩ := Prod.mk.inj (Except.ok.inj hdelete)
    constructor
    · exact (List.isEmpty_iff.1 hnone).symm
    · rw [deleteGroups, hclosed]
  · obtain ⟨rfl, rfl⟩ := Prod.mk.inj (Except.ok.inj hdelete)
    exact ⟨rfl, rfl⟩

/-- What settling writes does not concern groups. -/
theorem Cascade.settleClosure {deleted : List GroupId} {change : ClosureChange} {now : Timestamp}
    {u : Store} (h : Cascade s child deleted t) (hsettle : t.settleClosure change now = .ok u) :
    Cascade s child deleted u := by
  obtain ⟨gen, rs, rfl⟩ := settleClosure_frame hsettle
  obtain ⟨⟨hcontains, hself⟩, hexpiry⟩ := h.exact
  exact ⟨h.mem_deleted, h.groups, h.memberships, h.sheltered, ⟨hcontains, hself⟩, hexpiry⟩

theorem OnlyParent.unrelate (h : s.OnlyParent parent child) (hcoherent : s.Coherent)
    {deletion : RelationDeletion} {now : Timestamp}
    (hunrelate : s.unrelate parent child true now = .ok (deletion, t)) :
    Cascade (s.deleteMembership parent child).2 child deletion.deletedGroups t := by
  obtain ⟨u, hdelete, hsettle⟩ := unrelate_eq_ok hunrelate
  obtain ⟨hdeleted, hu⟩ := h.deleteRelation.2 deletion u hdelete
  have hchild : s.groups.contains child = true := by
    obtain ⟨m, hm, -⟩ := contains_activeNetwork.1 ((h parent).2 rfl)
    exact (hcoherent.memberships _ (Table.contains_of_get? hm)).2
  have hleft := hcoherent.rejoins (rejoins_deleteMembership s parent child)
  apply Cascade.settleClosure _ hsettle
  rw [hu, hdeleted]
  exact cascade_deleteOrphans hleft hchild

end Store

namespace Session

open Store

/-- Whenever a group loses its only parent and orphans may be deleted: if the call succeeds it has
deleted exactly what is cut off and has nothing above it but what is cut off as well. If orphans may
not be deleted the call fails and nothing has changed. -/
theorem cascade_perform (ids : IdSource) (clock : Timestamp) (policy : RetryPolicy)
    (steps : List Step) {parent child : GroupId}
    (honly : ((start ids clock policy).run steps).committed.OnlyParent parent child) :
    (∀ reply, (((start ids clock policy).run steps).perform
          (.deleteRelation parent child true)).1 = .ok reply →
        ∃ deletion, reply = .deletion deletion ∧
          Cascade (((start ids clock policy).run steps).committed.deleteMembership parent child).2
            child deletion.deletedGroups
            (((start ids clock policy).run steps).perform
              (.deleteRelation parent child true)).2.committed) ∧
      ((start ids clock policy).run steps).perform (.deleteRelation parent child false) =
        (.error (.orphaned child), (start ids clock policy).run steps) := by
  have hs := idle_run (idle_start ids clock policy) steps
  have hcoherent := coherent_run ids clock policy steps
  generalize (start ids clock policy).run steps = s at *
  constructor
  · intro reply hperform
    obtain ⟨store, hout, hcommitted⟩ := perform_ok hperform
    obtain ⟨deletion, hunrelate, hreply⟩ := Reply.onSuccess_eq_ok.1 hout
    rw [hcommitted]
    exact ⟨deletion, hreply.symm, honly.unrelate hcoherent hunrelate⟩
  · have hfails : s.outcomeOf (.deleteRelation parent child false) = .error (.orphaned child) := by
      rw [outcomeOf, Call.run, Reply.onSuccess_eq_error, unrelate, honly.deleteRelation.1]
      rfl
    rw [perform_eq hs, hfails]
    rfl

/-- A class with a user and two other classes below it, the user with a class of its own, and a
circle of two classes. -/
def shelteredClass : List Step :=
  let plain : GroupKind → Group := fun kind => ⟨"", kind, true, none, none, none⟩
  [ .call (.createGroup 1 (plain .base)),
    .call (.createGroup 2 (plain .classroom)),
    .call (.createGroup 3 (plain .classroom)),
    .call (.createGroup 4 (plain .user)),
    .call (.createGroup 5 (plain .classroom)),
    .call (.createGroup 6 (plain .classroom)),
    .call (.createRelation 1 2 .unset),
    .call (.createRelation 2 3 .unset),
    .call (.createRelation 2 4 .unset),
    .call (.createRelation 4 5 .unset),
    .call (.createRelations [(3, 6), (6, 3)]) ]

/-- The user keeps its class. -/
theorem cascade_shelteredClass :
    ((start (.ofList []) .zero .standard).run shelteredClass).committed.OnlyParent 1 2 ∧
      ∃ deletion, (((start (.ofList []) .zero .standard).run shelteredClass).perform
          (.deleteRelation 1 2 true)).1 = .ok (.deletion deletion) ∧
        deletion.deletedGroups = [2, 3, 6] ∧
        Cascade
          (((start (.ofList []) .zero .standard).run shelteredClass).committed.deleteMembership
            1 2).2 2 [2, 3, 6]
          (((start (.ofList []) .zero .standard).run shelteredClass).perform
            (.deleteRelation 1 2 true)).2.committed := by
  have hparents : ((start (.ofList []) .zero .standard).run shelteredClass).committed.activeParents
      2 = [1] := by
    decide +kernel
  have honly : ((start (.ofList []) .zero .standard).run shelteredClass).committed.OnlyParent
      1 2 := by
    intro other
    rw [← mem_activeParents, hparents, List.mem_singleton]
  have hreply : (((start (.ofList []) .zero .standard).run shelteredClass).perform
      (.deleteRelation 1 2 true)).1 =
        .ok (.deletion ⟨true, [2, 3, 6], ⟨.ofKeys [4, 5], 0, 5⟩⟩) := by
    decide +kernel
  obtain ⟨deletion, hdeletion, hcascade⟩ :=
    (cascade_perform (.ofList []) .zero .standard shelteredClass honly).1 _ hreply
  obtain rfl := Reply.deletion.inj hdeletion
  exact ⟨honly, _, hreply, rfl, hcascade⟩

end Session

end Courseware
