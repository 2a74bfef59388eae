import Courseware.Proofs.Anchored
import Courseware.Proofs.Sweep

/-!
# Exact access stays exact

If every pair is exact at some time, a call at that time leaves it so: what the call marks is enough.
This goes for changes of grants and of links (`allExact_of_area_permissions`), and for changes of
memberships, whatever records of ancestors they gain or lose, unless they delete a group
(`allExact_perform`). All that is asked of the store before is what holds in the course of every run
(`anchored_run`).
-/

namespace Courseware

namespace Store

variable {s s' : Store} {now : Timestamp}

theorem dueLaw_pairExact (now : Timestamp) : DueLaw now fun s q => s.PairExact now q where
  fresh h := h.pairExact
  congr h hrow hdue := h.congr hrow (hdue now)
  filled h hrow := by
    rw [← Bool.not_eq_true, Tiers.isEmpty_iff, ← tiersOf_of_get? hrow, h.tiers]
    exact h.row.1 (Table.contains_of_get? hrow)
  bare h hnone := by
    by_contra hdue
    have hrow := h.row.2 hdue
    rw [Table.contains_eq_isSome, hnone] at hrow
    simp at hrow

/-- A sweep looks at levels again, which is nothing to the tiers, and recomputes pairs that have lost
an ancestor. -/
theorem pairExact_sweep (h : ∀ q, s.PairExact now q) (hlayered : s.Layered)
    {outcome : PermissionOutcome} (hsweep : s.sweep now = .ok (outcome, s')) (q : Pair) :
    s'.PairExact now q := by
  have hrefreshed : ∀ p, (s.refreshAll now (s.pairsWithActivation now)).2.PairExact now p := by
    intro p
    have hrow : (s.refreshAll now (s.pairsWithActivation now)).2.generated.contains p =
        s.generated.contains p := by
      rw [Table.contains_eq_isSome, get?_refreshAll, Table.contains_eq_isSome]
      split <;> simp
    constructor
    · rw [tiersOf_refreshAll, dueTiers_refreshAll]
      exact (h p).tiers
    · rw [hrow, dueTiers_refreshAll]
      exact (h p).row
  have hlayered' := hlayered.refreshAll now (s.pairsWithActivation now)
  have hfilled := ((dueLaw_pairExact now).rowsFilled h).refreshAll now (s.pairsWithActivation now)
  obtain ⟨-, results, hvisible⟩ := sweep_eq_ok hsweep
  obtain ⟨rs, rfl⟩ := (resultsGrow_settleVisible hvisible).frame
  exact ((pairLaw_pairExact now).propagate hlayered' hfilled (fun p => Or.inr (hrefreshed p)) q).congr
    rfl rfl

theorem Anchored.allExact_call (h : s.Anchored) (hexact : s.AllExact now) {policy : RetryPolicy}
    {call : Call} {ids : IdSource} {reply : Reply}
    (hrun : (Call.run policy now call ids s).1 = .ok (reply, s'))
    (hkept : ∀ deletion, reply = .deletion deletion → deletion.deletedGroups = []) :
    s'.AllExact now := by
  rw [h.allExact_iff] at hexact
  rw [(h.call hrun).allExact_iff]
  exact (dueLaw_pairExact now).call hexact h.toCoherent
    (fun _ hsweep => pairExact_sweep hexact h.toLayered hsweep) hrun hkept

end Store

namespace Session

open Store

variable {s : Session} {call : Call} {reply : Reply}

/-- Access on a whole that its parts inherit, and a user who asks to join. -/
def nestedAccess : List Step :=
  let plain : Group := ⟨"", .other, true, none, none, none⟩
  [ .call (.createGroup 1 plain),
    .call (.createGroup 2 plain),
    .call (.createGroup 3 { plain with kind := .user }),
    .call (.createRelation 1 2 { MembershipTerms.unset with expiresAt := some ⟨5000⟩ }),
    .call (.setManager 2 1),
    .call (.createItem 10 .plain),
    .call (.createItem 11 .plain),
    .call (.createItem 12 .plain),
    .call (.createLink 10 11 .plain),
    .call (.createLink 11 12 .plain),
    .call (.grant 1 10 1 ⟨.contentWithDescendants, .none, .none, .none, false, .date ⟨3000⟩⟩),
    .call (.grant 2 11 1 ⟨.info, .none, .none, .none, false, .always⟩),
    .call (.transition ⟨2, [3], .userCreatesJoinRequest, 3, none, none, false⟩) ]

/-- Whatever a call does to grants and links, it marks enough: if all access was exact before, it is
exact again. -/
theorem allExact_of_area_permissions (hanchored : s.committed.Anchored)
    (hexact : s.committed.AllExact s.clock) (harea : call.area = .permissions)
    (hperform : (s.perform call).1 = .ok reply) :
    (s.perform call).2.committed.AllExact s.clock := by
  obtain ⟨store, hrun, hcommitted⟩ := perform_ok hperform
  rw [hcommitted]
  refine hanchored.allExact_call hexact hrun fun deletion hreply => ?_
  rw [hreply] at hrun
  have hgroups := area_of_deletion hrun
  rw [harea] at hgroups
  simp at hgroups

/-- A grant on the whole is replaced by one of more, at once. -/
theorem allExact_regranted :
    ((start (.ofList []) .zero .standard).run nestedAccess).committed.AllExact .zero ∧
      (((start (.ofList []) .zero .standard).run nestedAccess).perform
        (.grant 1 10 1 ⟨.solution, .none, .none, .none, false, .always⟩)).1 =
          .ok (.permissions ⟨6,
            .ofKeys [(1, 10), (1, 11), (1, 12), (2, 10), (2, 11), (2, 12)],
            .ofKeys [(1, 10), (1, 11), (1, 12), (2, 10), (2, 12)]⟩) ∧
      (((start (.ofList []) .zero .standard).run nestedAccess).perform
        (.grant 1 10 1 ⟨.solution, .none, .none, .none, false, .always⟩)).2.committed.AllExact
          .zero := by
  have hanchored := anchored_run (.ofList []) .zero .standard nestedAccess
  have hexact : ((start (.ofList []) .zero .standard).run nestedAccess).committed.AllExact
      ((start (.ofList []) .zero .standard).run nestedAccess).clock := by
    decide +kernel
  have hperform : (((start (.ofList []) .zero .standard).run nestedAccess).perform
      (.grant 1 10 1 ⟨.solution, .none, .none, .none, false, .always⟩)).1 =
        .ok (.permissions ⟨6,
          .ofKeys [(1, 10), (1, 11), (1, 12), (2, 10), (2, 11), (2, 12)],
          .ofKeys [(1, 10), (1, 11), (1, 12), (2, 10), (2, 12)]⟩) := by
    decide +kernel
  exact ⟨hexact, hperform, allExact_of_area_permissions hanchored hexact rfl hperform⟩

/-- Whatever a call does, to memberships or to anything else, it marks enough, as long as it deletes
no group: if all access was exact before, it is exact again. -/
theorem allExact_perform (hanchored : s.committed.Anchored)
    (hexact : s.committed.AllExact s.clock) (hperform : (s.perform call).1 = .ok reply)
    (hkept : ∀ deletion, reply = .deletion deletion → deletion.deletedGroups = []) :
    (s.perform call).2.committed.AllExact s.clock := by
  obtain ⟨store, hrun, hcommitted⟩ := perform_ok hperform
  rw [hcommitted]
  exact hanchored.allExact_call hexact hrun hkept

/-- The user is let in, and has from then on what the two groups have. -/
theorem allExact_accepted :
    ((start (.ofList []) .zero .standard).run nestedAccess).committed.AllExact .zero ∧
      (((start (.ofList []) .zero .standard).run nestedAccess).perform
        (.transition ⟨2, [3], .adminAcceptsJoinRequest, 2, none, none, false⟩)).1 =
          .ok (.transition ⟨.adminAcceptsJoinRequest,
            [⟨3, some 2, ⟨some .active, false⟩, true, .success⟩], ⟨.ofKeys [3], 2, 0⟩⟩) ∧
      (((start (.ofList []) .zero .standard).run nestedAccess).perform
        (.transition ⟨2, [3], .adminAcceptsJoinRequest, 2, none, none, false⟩)).2.committed.AllExact
          .zero := by
  have hanchored := anchored_run (.ofList []) .zero .standard nestedAccess
  have hexact : ((start (.ofList []) .zero .standard).run nestedAccess).committed.AllExact
      ((start (.ofList []) .zero .standard).run nestedAccess).clock := by
    decide +kernel
  have hperform : (((start (.ofList []) .zero .standard).run nestedAccess).perform
      (.transition ⟨2, [3], .adminAcceptsJoinRequest, 2, none, none, false⟩)).1 =
        .ok (.transition ⟨.adminAcceptsJoinRequest,
          [⟨3, some 2, ⟨some .active, false⟩, true, .success⟩], ⟨.ofKeys [3], 2, 0⟩⟩) := by
    decide +kernel
  exact ⟨hexact, hperform, allExact_perform hanchored hexact hperform (by simp)⟩

end Session

end Courseware
