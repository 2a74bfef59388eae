import Courseware.Proofs.Exactness
import Courseware.Proofs.Failures
import Courseware.Proofs.ItemGraph

/-!
# The reach of a grant

Access moves down two graphs: from a group to those it is recorded as an ancestor of, and from an
item to its parts, unless it is a custom chapter. A grant that is given or taken back on an item for
a group touches no row of a pair that cannot be reached in this way (`generated_perform`), whatever
other paths there are in the graphs and whatever is recomputed on the way.
-/

namespace Courseware

namespace Store

open Relation

variable {s s' : Store} {group : GroupId} {item : ItemId} {p q : Pair} {now : Timestamp}

/-- Access to an item is handed down to its part: it is stored and no custom chapter. -/
def HandsDown (s : Store) (whole part : ItemId) : Prop :=
  s.HasPart whole part ∧ ∃ row, s.items.get? whole = some row ∧ row.customChapter = false

/-- The pairs that a grant to a group on an item may concern: the group is recorded as an ancestor,
ended or not, and the item is handed down along some path. Only the last item of the path may be a
custom chapter. -/
structure InCone (s : Store) (group : GroupId) (item : ItemId) (q : Pair) : Prop where
  ancestor : s.ancestors.contains (group, q.1) = true
  path : ReflTransGen s.HandsDown item q.2

theorem handsDown_of_mem_heirs (h : q ∈ PermissionRun.heirs s p) : s.HandsDown p.2 q.2 := by
  obtain ⟨-, row, link, -, hrow, hcustom, hlink, -⟩ := mem_heirs.1 h
  exact ⟨Table.contains_of_get? hlink, row, hrow, hcustom⟩

theorem InCone.heir (h : s.InCone group item p) (hheir : q ∈ PermissionRun.heirs s p) :
    s.InCone group item q := by
  have hsame : q.1 = p.1 := (mem_heirs.1 hheir).1
  constructor
  · rw [hsame]
    exact h.ancestor
  · exact h.path.tail (handsDown_of_mem_heirs hheir)

/-- A custom chapter hands nothing down, so a path that starts there ends there. -/
theorem eq_of_path_of_customChapter {part : ItemId} {row : Item} (hrow : s.items.get? item = some row)
    (hcustom : row.customChapter = true) (h : ReflTransGen s.HandsDown item part) : part = item := by
  rcases ReflTransGen.cases_head h with heq | ⟨next, ⟨-, row', hrow', hopen⟩, -⟩
  · exact heq.symm
  · rw [hrow, Option.some.injEq] at hrow'
    rw [← hrow', hcustom] at hopen
    exact absurd hopen (by simp)

/-- Whatever grants there are now, settling the pairs of a grant leaves alone what is out of its
reach. -/
theorem get?_settlePairs_of_not_inCone {grants : Table (GroupId × ItemId × GroupId) Grant}
    {outcome : PermissionOutcome}
    (h : { s with grants := grants }.settlePairs (s.pairsForGrant group item) now =
      .ok (outcome, s')) (hq : ¬ s.InCone group item q) :
    s'.generated.get? q = s.generated.get? q := by
  obtain ⟨rs, rfl⟩ := (resultsGrow_settlePairs h).frame
  apply get?_propagatePermissions_of_not (s := { s with grants := grants })
    (K := s.InCone group item)
  · intro p q hp hheir
    exact hp.heir hheir
  · intro p hp
    obtain ⟨hancestor, hitem⟩ := mem_pairsForGrant.1 hp
    exact ⟨hancestor, hitem ▸ .refl⟩
  · exact hq

end Store

namespace Session

open Store Relation

/-- Giving and taking back a grant leave every row as it is, tiers, levels and the time of its
levels, unless the pair is in reach of the grant. Nothing is in reach through a custom chapter. -/
theorem generated_perform (s : Session) (group : GroupId) (item : ItemId) (giver : GroupId)
    (q : Pair) :
    (∀ grant, (s.perform (.grant group item giver grant)).2.committed.generated.get? q =
        s.committed.generated.get? q ∨ s.committed.InCone group item q) ∧
      ((s.perform (.revoke group item giver)).2.committed.generated.get? q =
        s.committed.generated.get? q ∨ s.committed.InCone group item q) ∧
      ∀ chapter row part, s.committed.items.get? chapter = some row → row.customChapter = true →
        ReflTransGen s.committed.HandsDown chapter part → part = chapter := by
  refine ⟨?_, ?_, fun _ _ _ hrow hcustom => eq_of_path_of_customChapter hrow hcustom⟩
  · intro grant
    cases hreply : (s.perform (.grant group item giver grant)).1 with
    | error fault => exact Or.inl (by rw [committed_of_error hreply])
    | ok reply =>
      obtain ⟨store, hrun, hcommitted⟩ := perform_ok hreply
      obtain ⟨outcome, hgive, -⟩ := Reply.onSuccess_eq_ok.1 hrun
      obtain ⟨-, -, hsettle⟩ := giveGrant_eq_ok hgive
      rw [hcommitted, or_iff_not_imp_right]
      exact get?_settlePairs_of_not_inCone hsettle
  · cases hreply : (s.perform (.revoke group item giver)).1 with
    | error fault => exact Or.inl (by rw [committed_of_error hreply])
    | ok reply =>
      obtain ⟨store, hrun, hcommitted⟩ := perform_ok hreply
      obtain ⟨outcome, hrevoke, -⟩ := Reply.onSuccess_eq_ok.1 hrun
      rw [hcommitted, or_iff_not_imp_right]
      rcases revokeGrant_eq_ok hrevoke with hnone | hsettle
      · intro _
        rw [hnone]
      · exact get?_settlePairs_of_not_inCone hsettle

end Session

end Courseware
