import Courseware.Proofs.Calls.Effects

/-!
# Leaving a group with a membership lock

A member who approved the membership lock of a group cannot ask to leave while the lock is in force.
Leaving at once is looked up against the other lock of the group only. So among the requests of
users it is the one way out (`membership_transition_of_locked`), and it stays open
(`leaveAtOnce_ends_membership`).
-/

namespace Courseware

/-- On an active membership, users have nothing but requests to leave and leaving itself. -/
theorem nextState_user_of_isActive {action : Action} {current : MembershipState}
    {standing : Standing} {leaveRequested : Bool} (huser : action.isAdmin = false)
    (hactive : current.isActive = true)
    (h : nextState action current = .apply standing leaveRequested) :
    action.isLeaveRequest = true ∨ (action = .userLeavesGroup ∧ standing = .left) := by
  obtain ⟨old, requested⟩ := current
  obtain rfl : old = some .active := of_decide_eq_true hactive
  cases action <;> cases requested <;>
    simp_all [nextState, Action.isAdmin, Action.isLeaveRequest]

namespace Store

section Moves

variable {s s' : Store} {group : Group} {r : RelationRequest} {action : Action} {now : Timestamp}
  {m : Membership} {c child : GroupId}

/-- The approval of a lock that is in force holds an active member back. -/
structure Holds (group : Group) (m : Membership) (now : Timestamp) : Prop where
  locked : group.isMembershipLocked now = true
  active : m.isActive = true
  approved : m.lockApproved = true

instance (group : Group) (m : Membership) (now : Timestamp) : Decidable (Holds group m now) :=
  decidable_of_iff
    (group.isMembershipLocked now = true ∧ m.isActive = true ∧ m.lockApproved = true)
    ⟨fun h => ⟨h.1, h.2.1, h.2.2⟩, fun h => ⟨h.locked, h.active, h.approved⟩⟩

/-- An approved lock in force refuses requests to leave. -/
theorem Holds.not_isLeaveRequest {out : TransitionResult × Bool} (hholds : Holds group m now)
    (hm : s.memberships.get? (r.parent, c) = some m)
    (h : s.moveChild group r action c now = .ok (out, s')) : action.isLeaveRequest = false := by
  have hunlocked := unlocked_of_moveChild h
  rwa [hm, Option.any_some, hholds.approved, hholds.locked, Bool.and_true, Bool.and_true] at hunlocked

/-- Only leaving at once writes to the membership of somebody who is held back. -/
theorem Holds.moveChild {out : TransitionResult × Bool} (hholds : Holds group m now)
    (huser : action.isAdmin = false) (hstays : action ≠ .userLeavesGroup)
    (hm : s.memberships.get? (r.parent, c) = some m)
    (h : s.moveChild group r action child now = .ok (out, s')) :
    s'.memberships.get? (r.parent, c) = some m := by
  by_cases hne : child = c
  · subst hne
    have hrequest := hholds.not_isLeaveRequest hm h
    obtain ⟨result, flipped⟩ := out
    rcases moveChild_eq_ok h with ⟨-, -, rfl⟩ | ⟨standing, requested, approval, id, hnext, -⟩
    · exact hm
    · have hstate : (MembershipState.ofMembership (s.memberships.get? (r.parent, child))).isActive =
          true := by
        have hactive := hholds.active
        rw [hm]
        simpa [MembershipState.ofMembership, MembershipState.isActive, Membership.isActive] using
          hactive
      rcases nextState_user_of_isActive huser hstate hnext with hleave | ⟨hleave, -⟩
      · rw [hrequest] at hleave
        simp at hleave
      · exact absurd hleave hstays
  · rw [get?_moveChild_of_ne (by simpa using hne) h]
    exact hm

theorem Holds.moveChildren {children : List GroupId} {out : List TransitionResult × Bool}
    (hholds : Holds group m now) (huser : action.isAdmin = false)
    (hstays : action ≠ .userLeavesGroup) (hm : s.memberships.get? (r.parent, c) = some m)
    (h : s.moveChildren group r action now children = .ok (out, s')) :
    s'.memberships.get? (r.parent, c) = some m ∧
      (c ∈ children → action.isLeaveRequest = false) := by
  induction children generalizing s out with
  | nil =>
    simp only [Store.moveChildren, Except.ok.injEq, Prod.mk.injEq] at h
    rw [← h.2]
    exact ⟨hm, by simp⟩
  | cons child rest ih =>
    obtain ⟨_, _, _, _, t, hone, hrest, -⟩ := moveChildren_cons_eq_ok h
    obtain ⟨hkept, hrequest⟩ := ih (hholds.moveChild huser hstays hm hone) hrest
    refine ⟨hkept, fun hmem => ?_⟩
    rcases List.mem_cons.1 hmem with rfl | hmem
    · exact hholds.not_isLeaveRequest hm hone
    · exact hrequest hmem

/-- Leaving at once ends an active membership, and does nothing to one that has been left. -/
theorem standing_moveChild_userLeavesGroup {out : TransitionResult × Bool}
    (hm : s.memberships.get? (r.parent, c) = some m)
    (hstanding : m.standing = .active ∨ m.standing = .left)
    (h : s.moveChild group r .userLeavesGroup c now = .ok (out, s')) :
    ∃ m', s'.memberships.get? (r.parent, c) = some m' ∧ m'.standing = .left := by
  obtain ⟨result, flipped⟩ := out
  rcases moveChild_eq_ok h with ⟨hnot, -, rfl⟩ | ⟨standing, requested, approval, id, hnext, -, hput, -⟩
  · refine ⟨m, hm, hstanding.resolve_left fun hactive => ?_⟩
    apply hnot .left false
    rw [hm, MembershipState.ofMembership, hactive]
    rfl
  · obtain ⟨-, -, rfl⟩ := putMembership_eq_ok hput
    refine ⟨_, Table.get?_insert_self _ _ _, ?_⟩
    rw [standing_membershipAfter]
    rw [hm, MembershipState.ofMembership] at hnext
    rcases hstanding with heq | heq <;> rw [heq] at hnext <;> simp_all [nextState]

theorem standing_moveChildren_userLeavesGroup {children : List GroupId}
    {out : List TransitionResult × Bool} (hm : s.memberships.get? (r.parent, c) = some m)
    (hstanding : m.standing = .left ∨ (m.standing = .active ∧ c ∈ children))
    (h : s.moveChildren group r .userLeavesGroup now children = .ok (out, s')) :
    ∃ m', s'.memberships.get? (r.parent, c) = some m' ∧ m'.standing = .left := by
  induction children generalizing s out m with
  | nil =>
    simp only [Store.moveChildren, Except.ok.injEq, Prod.mk.injEq] at h
    rw [← h.2]
    exact ⟨m, hm, hstanding.resolve_right (by simp)⟩
  | cons child rest ih =>
    obtain ⟨_, _, _, _, t, hone, hrest, -⟩ := moveChildren_cons_eq_ok h
    by_cases hchild : child = c
    · subst hchild
      obtain ⟨m', hm', hleft⟩ := standing_moveChild_userLeavesGroup hm
        (hstanding.symm.imp And.left id) hone
      exact ih hm' (Or.inl hleft) hrest
    · have hkept : t.memberships.get? (r.parent, c) = some m := by
        rw [get?_moveChild_of_ne (by simpa using hchild) hone]
        exact hm
      refine ih hkept ?_ hrest
      rcases hstanding with hleft | ⟨hactive, hmem⟩
      · exact Or.inl hleft
      · exact Or.inr ⟨hactive, (List.mem_cons.1 hmem).resolve_left (Ne.symm hchild)⟩

/-- What a request of a user comes to for somebody who is held back. -/
theorem Holds.request {outcome : TransitionOutcome} (hholds : Holds group m now)
    (hgroup : s.groups.get? r.parent = some group) (huser : r.action.isAdmin = false)
    (hm : s.memberships.get? (r.parent, c) = some m) (hc : c ∈ r.children)
    (h : s.request r now = .ok (outcome, s')) :
    (r.action ≠ .userLeavesGroup ∧ r.action.isLeaveRequest = false ∧
        s'.memberships.get? (r.parent, c) = some m) ∨
      (r.action = .userLeavesGroup ∧ group.isLeavingLocked now = false ∧
        ∃ m', s'.memberships.get? (r.parent, c) = some m' ∧ m'.standing = .left) := by
  obtain ⟨group', action, out, t, hget, haction, hmoves, hmemberships⟩ := moves_of_request h
  obtain rfl : group = group' := Option.some.inj (hgroup.symm.trans hget)
  obtain ⟨hadmitted, hopen⟩ := admittedAction_eq_ok haction
  rw [hmemberships]
  by_cases hleave : action = .userLeavesGroup
  · subst hleave
    have hactive : m.standing = .active := of_decide_eq_true hholds.active
    refine Or.inr ⟨?_, hopen rfl,
      standing_moveChildren_userLeavesGroup hm (Or.inr ⟨hactive, hc⟩) hmoves⟩
    exact (hadmitted.resolve_right (by simp)).symm
  · have huser' : action.isAdmin = false := by
      rcases hadmitted with rfl | ⟨-, rfl⟩
      · exact huser
      · rfl
    obtain ⟨hkept, hrequest⟩ := hholds.moveChildren huser' hleave hm hmoves
    refine Or.inl ?_
    rcases hadmitted with rfl | ⟨hjoin, -⟩
    · exact ⟨hleave, hrequest hc, hkept⟩
    · rw [hjoin]
      exact ⟨by simp, rfl, hkept⟩

end Moves

end Store

namespace Session

open Store

/-- Throughout a run, a request of a user takes away the membership of somebody who is held back if
and only if the member leaves at once, which the other lock of the group alone can prevent. Requests
to leave are refused, also as part of a request for many. -/
theorem membership_transition_of_holds (ids : IdSource) (clock : Timestamp) (policy : RetryPolicy)
    (steps : List Step) {group : Group} {parent child : GroupId} {m : Membership}
    {r : RelationRequest} {reply : Reply}
    (hgroup : ((start ids clock policy).run steps).group? parent = some group)
    (hm : ((start ids clock policy).run steps).membership? parent child = some m)
    (hholds : Holds group m ((start ids clock policy).run steps).clock)
    (huser : r.action.isAdmin = false)
    (hperform : (((start ids clock policy).run steps).perform (.transition r)).1 = .ok reply) :
    ((((start ids clock policy).run steps).perform (.transition r)).2.membership? parent child =
        some m ↔ ¬ (r.action = .userLeavesGroup ∧ r.parent = parent ∧ child ∈ r.children)) ∧
      (r.parent = parent → child ∈ r.children →
        r.action.isLeaveRequest = false ∧
          (r.action = .userLeavesGroup →
            group.isLeavingLocked ((start ids clock policy).run steps).clock = false ∧
            ∃ m', (((start ids clock policy).run steps).perform (.transition r)).2.membership?
              parent child = some m' ∧ m'.standing = .left)) := by
  have hs := idle_run (idle_start ids clock policy) steps
  generalize (start ids clock policy).run steps = s at *
  have hafter : (s.perform (.transition r)).2.Idle := idle_step hs (.call (.transition r))
  obtain ⟨store, hout, hcommitted⟩ := perform_ok hperform
  obtain ⟨outcome, hrequest, -⟩ := Reply.onSuccess_eq_ok.1 hout
  rw [membership?_of_idle hs] at hm
  rw [group?_of_idle hs] at hgroup
  rw [membership?_of_idle hafter, hcommitted]
  by_cases hnamed : r.parent = parent ∧ child ∈ r.children
  · obtain ⟨rfl, hc⟩ := hnamed
    have hactive : m.standing = .active := of_decide_eq_true hholds.active
    rcases hholds.request hgroup huser hm hc hrequest with
      ⟨hstays, hleave, hkept⟩ | ⟨hleaves, hopen, m', hm', hleft⟩
    · refine ⟨⟨fun _ hleaves => hstays hleaves.1, fun _ => hkept⟩, fun _ _ => ⟨hleave, ?_⟩⟩
      intro hleaves
      exact absurd hleaves hstays
    · refine ⟨⟨fun hkept => ?_, fun hnot => absurd ⟨hleaves, rfl, hc⟩ hnot⟩, fun _ _ => ?_⟩
      · rw [hkept] at hm'
        obtain rfl := Option.some.inj hm'
        rw [hactive] at hleft
        simp at hleft
      · exact ⟨by rw [hleaves]; rfl, fun _ => ⟨hopen, m', hm', hleft⟩⟩
  · have hne : ∀ c ∈ r.children, (r.parent, c) ≠ (parent, child) := by
      intro c hc heq
      obtain ⟨rfl, rfl⟩ := Prod.mk.inj heq
      exact hnamed ⟨rfl, hc⟩
    rw [get?_request_of_ne hne hrequest]
    refine ⟨⟨fun _ hleaves => hnamed hleaves.2, fun _ => hm⟩, fun hparent hc => ?_⟩
    exact absurd ⟨hparent, hc⟩ hnamed

/-- A group whose members can be held back until 9000, and a user who accepted to join it under
these terms. -/
def approvedMember : List Step :=
  let plain : Group := ⟨"", .user, true, none, none, none⟩
  [ .call (.createGroup 1 { plain with kind := .other, approvalRequiredUntil := some ⟨9000⟩ }),
    .call (.createGroup 2 plain),
    .call (.createGroup 3 plain),
    .call (.setManager 1 3),
    .call (.transition ⟨1, [2], .adminCreatesInvitation, 3, none, none, false⟩),
    .call (.transition ⟨1, [2], .userAcceptsInvitation, 2, none, none, true⟩) ]

/-- To accept once more changes nothing. -/
theorem membership_approvedMember :
    ∃ group m reply,
      ((start (.ofList []) .zero .standard).run approvedMember).group? 1 = some group ∧
      ((start (.ofList []) .zero .standard).run approvedMember).membership? 1 2 = some m ∧
      Holds group m .zero ∧
      (((start (.ofList []) .zero .standard).run approvedMember).perform
        (.transition ⟨1, [2], .userAcceptsInvitation, 2, none, none, true⟩)).1 = .ok reply ∧
      (((start (.ofList []) .zero .standard).run approvedMember).perform
        (.transition ⟨1, [2], .userAcceptsInvitation, 2, none, none, true⟩)).2.membership? 1 2 =
          some m := by
  have hgroup : ((start (.ofList []) .zero .standard).run approvedMember).group? 1 =
      some ⟨"", .other, true, none, some ⟨9000⟩, none⟩ := by decide +kernel
  have hm : ((start (.ofList []) .zero .standard).run approvedMember).membership? 1 2 =
      some ⟨1, "member", .active, true, false, .never, .zero⟩ := by decide +kernel
  have hholds : Holds ⟨"", .other, true, none, some ⟨9000⟩, none⟩
      ⟨1, "member", .active, true, false, .never, .zero⟩
      ((start (.ofList []) .zero .standard).run approvedMember).clock := by decide +kernel
  have hperform : (((start (.ofList []) .zero .standard).run approvedMember).perform
      (.transition ⟨1, [2], .userAcceptsInvitation, 2, none, none, true⟩)).1 =
        .ok (.transition ⟨.userAcceptsInvitation,
          [⟨2, some 1, ⟨some .active, false⟩, false, .unchanged⟩], .none⟩) := by
    decide +kernel
  exact ⟨_, _, _, hgroup, hm, hholds, hperform,
    (membership_transition_of_holds (.ofList []) .zero .standard approvedMember hgroup hm hholds
      rfl hperform).1.2 (by simp)⟩

/-- Somebody who is held back leaves at once. -/
theorem leaveAtOnce_approvedMember :
    ∃ group m reply,
      ((start (.ofList []) .zero .standard).run approvedMember).group? 1 = some group ∧
      ((start (.ofList []) .zero .standard).run approvedMember).membership? 1 2 = some m ∧
      Holds group m .zero ∧
      (((start (.ofList []) .zero .standard).run approvedMember).perform
        (.transition ⟨1, [2], .userLeavesGroup, 2, none, none, false⟩)).1 = .ok reply ∧
      ((((start (.ofList []) .zero .standard).run approvedMember).perform
        (.transition ⟨1, [2], .userLeavesGroup, 2, none, none, false⟩)).2.membership? 1 2).any
          (·.isActive) = false := by
  refine ⟨⟨"", .other, true, none, some ⟨9000⟩, none⟩,
    ⟨1, "member", .active, true, false, .never, .zero⟩,
    .transition ⟨.userLeavesGroup, [⟨2, some 1, ⟨some .left, false⟩, true, .success⟩],
      ⟨.ofKeys [2], 0, 1⟩⟩, ?_⟩
  decide +kernel

end Session

end Courseware
