import Courseware.Proofs.Frame
import Mathlib.Tactic.Common

/-!
# What a successful call on groups did

One lemma for each operation says what it wrote and what it had found out before. Changes of
memberships are all of one kind (`Rejoins`): nothing else is written, and a new membership ties
stored groups.
-/

namespace Courseware

/-- Only members ask to leave, and they stay members. -/
theorem isActive_of_isLeaveRequest {action : Action} {current : MembershipState}
    {standing : Standing} {leaveRequested : Bool} (hrequest : action.isLeaveRequest = true)
    (h : nextState action current = .apply standing leaveRequested) :
    current.isActive = true ∧ standing = .active := by
  obtain ⟨old, requested⟩ := current
  cases action <;> cases requested <;> rcases old with _ | (_ | _) <;>
    simp_all [nextState, Action.isLeaveRequest, MembershipState.isActive]

namespace Store

/-! ### Memberships -/

/-- Nothing but memberships and their numbering differs, and new memberships tie stored groups. -/
structure Rejoins (s t : Store) : Prop where
  frame : ∃ ms n, t = { s with memberships := ms, lastEdgeId := n }
  founded : ∀ k, t.memberships.contains k = true → s.memberships.contains k = true ∨
    (s.groups.contains k.1 = true ∧ s.groups.contains k.2 = true)

theorem Rejoins.refl (s : Store) : s.Rejoins s :=
  ⟨⟨s.memberships, s.lastEdgeId, rfl⟩, fun _ h => Or.inl h⟩

theorem Rejoins.trans {s t u : Store} (hst : s.Rejoins t) (htu : t.Rejoins u) : s.Rejoins u := by
  obtain ⟨⟨ms, n, rfl⟩, hfounded⟩ := hst
  obtain ⟨⟨ms', n', rfl⟩, hfounded'⟩ := htu
  refine ⟨⟨ms', n', rfl⟩, fun k h => ?_⟩
  rcases hfounded' k h with h | h
  · exact hfounded k h
  · exact Or.inr h

/-- The membership that a standing is written down in. -/
def membershipAfter (s : Store) (parent child : GroupId) (standing : Standing)
    (leaveRequested : Bool) (terms : MembershipTerms) (now : Timestamp) : Membership :=
  match s.memberships.get? (parent, child) with
  | some m => renewed m standing leaveRequested terms now
  | none => founded (s.lastEdgeId + 1) standing leaveRequested terms now

@[simp] theorem standing_membershipAfter (s : Store) (parent child : GroupId)
    (standing : Standing) (leaveRequested : Bool) (terms : MembershipTerms) (now : Timestamp) :
    (s.membershipAfter parent child standing leaveRequested terms now).standing = standing := by
  rw [membershipAfter]
  split <;> rfl

@[simp] theorem leaveRequested_membershipAfter (s : Store) (parent child : GroupId)
    (standing : Standing) (leaveRequested : Bool) (terms : MembershipTerms) (now : Timestamp) :
    (s.membershipAfter parent child standing leaveRequested terms now).leaveRequested =
      leaveRequested := by
  rw [membershipAfter]
  split <;> rfl

/-- Without an approval to write down, the stored one stays. -/
theorem lockApproved_membershipAfter (s : Store) (parent child : GroupId) (standing : Standing)
    (leaveRequested : Bool) (terms : MembershipTerms) (now : Timestamp) :
    (s.membershipAfter parent child standing leaveRequested terms now).lockApproved =
      terms.lockApproved.getD ((s.memberships.get? (parent, child)).any (·.lockApproved)) := by
  rw [membershipAfter]
  cases s.memberships.get? (parent, child) <;> rfl

theorem putMembership_eq_ok {s s' : Store} {parent child : GroupId} {standing : Standing}
    {leaveRequested : Bool} {terms : MembershipTerms} {now : Timestamp} {id : EdgeId}
    (h : s.putMembership parent child standing leaveRequested terms now = .ok (id, s')) :
    s.groups.contains parent = true ∧ s.groups.contains child = true ∧
      s' = { s with
        memberships := s.memberships.insert (parent, child)
          (s.membershipAfter parent child standing leaveRequested terms now)
        lastEdgeId := s.lastEdgeId + 1 } := by
  rw [putMembership] at h
  obtain ⟨_, hdemand, h⟩ := bind_eq_ok.1 h
  obtain ⟨hparent, hchild⟩ := Bool.and_eq_true_iff.1 (demand_eq_ok.1 hdemand)
  simp only [pure, Except.pure, Except.ok.injEq, Prod.mk.injEq] at h
  exact ⟨hparent, hchild, h.2.symm⟩

theorem rejoins_putMembership {s s' : Store} {parent child : GroupId} {standing : Standing}
    {leaveRequested : Bool} {terms : MembershipTerms} {now : Timestamp} {id : EdgeId}
    (h : s.putMembership parent child standing leaveRequested terms now = .ok (id, s')) :
    s.Rejoins s' := by
  obtain ⟨hparent, hchild, rfl⟩ := putMembership_eq_ok h
  refine ⟨⟨_, _, rfl⟩, fun k hk => ?_⟩
  rw [Table.contains_insert, Bool.or_eq_true, decide_eq_true_eq] at hk
  rcases hk with rfl | hk
  · exact Or.inr ⟨hparent, hchild⟩
  · exact Or.inl hk

theorem rejoins_deleteMembership (s : Store) (parent child : GroupId) :
    s.Rejoins (s.deleteMembership parent child).2 := by
  exact ⟨⟨_, s.lastEdgeId, rfl⟩, fun k hk => Or.inl (Table.contains_erase_iff.1 hk).1⟩

/-- Memberships were changed, and then the closure was recomputed. -/
def Reclosed (change : ClosureChange) (s t : Store) : Prop :=
  ∃ u, s.Rejoins u ∧ u.recomputeClosure = (change, t)

theorem Reclosed.groups_eq {s t : Store} {change : ClosureChange} (h : Reclosed change s t) :
    t.groups = s.groups := by
  obtain ⟨u, hjoin, hclosure⟩ := h
  obtain ⟨ms, n, rfl⟩ := hjoin.frame
  obtain rfl := congrArg Prod.snd hclosure
  rfl

theorem createRelation_eq_ok {s s' : Store} {parent child : GroupId} {terms : MembershipTerms}
    {now : Timestamp} {change : ClosureChange}
    (h : s.createRelation parent child terms now = .ok (change, s')) :
    s.ensureNoCycle parent child = .ok () ∧
      ∃ id t, (s.deleteMembership parent child).2.putMembership parent child .active false terms
          now = .ok (id, t) ∧ t.recomputeClosure = (change, s') := by
  rw [createRelation] at h
  obtain ⟨_, hcycle, h⟩ := bind_eq_ok.1 h
  obtain ⟨⟨id, t⟩, hput, h⟩ := bind_eq_ok.1 h
  exact ⟨hcycle, id, t, Fault.lift_eq_ok.1 hput, Except.ok.inj h⟩

theorem reclosed_createRelation {s s' : Store} {parent child : GroupId} {terms : MembershipTerms}
    {now : Timestamp} {change : ClosureChange}
    (h : s.createRelation parent child terms now = .ok (change, s')) : Reclosed change s s' := by
  obtain ⟨-, id, t, hput, hclosure⟩ := createRelation_eq_ok h
  exact ⟨t, (rejoins_deleteMembership s parent child).trans (rejoins_putMembership hput), hclosure⟩

theorem rejoins_activateAll {s s' : Store} {now : Timestamp} {pairs : List (GroupId × GroupId)}
    (h : s.activateAll now pairs = .ok s') : s.Rejoins s' := by
  induction pairs generalizing s with
  | nil =>
    rw [activateAll, Except.ok.injEq] at h
    exact h ▸ .refl s
  | cons pair rest ih =>
    rw [activateAll] at h
    obtain ⟨⟨id, t⟩, hput, h⟩ := bind_eq_ok.1 h
    exact (rejoins_putMembership hput).trans (ih h)

theorem createRelations_eq_ok {s s' : Store} {pairs : List (GroupId × GroupId)}
    {now : Timestamp} {change : ClosureChange}
    (h : s.createRelations pairs now = .ok (change, s')) : Reclosed change s s' := by
  rw [createRelations] at h
  obtain ⟨t, hall, h⟩ := bind_eq_ok.1 h
  exact ⟨t, rejoins_activateAll (Fault.lift_eq_ok.1 hall), Except.ok.inj h⟩

theorem reclosed_deleteMembership {s s' : Store} {parent child : GroupId} {change : ClosureChange}
    (h : (s.deleteMembership parent child).2.recomputeClosure = (change, s')) :
    Reclosed change s s' :=
  ⟨_, rejoins_deleteMembership s parent child, h⟩

/-- What dropping a group keeps, dropping groups one after the other keeps. -/
theorem deleteGroups_keeps {P : Store → Prop} (hdrop : ∀ t id, P t → P (t.dropGroup id))
    {s : Store} (hs : P s) (ids : List GroupId) : P (s.deleteGroups ids).2 := by
  induction ids generalizing s with
  | nil => exact hs
  | cons id rest ih =>
    rw [deleteGroups]
    split
    · exact ih (hdrop s id hs)
    · exact ih hs

/-- Either there was no membership, or it was removed and the closure recomputed; then possibly
orphans were deleted and the closure was recomputed again. -/
theorem deleteRelation_eq_ok {s s' : Store} {parent child : GroupId} {allowOrphans : Bool}
    {deletion : RelationDeletion}
    (h : s.deleteRelation parent child allowOrphans = .ok (deletion, s')) :
    (s.memberships.get? (parent, child) = none ∧ deletion = ⟨false, [], .none⟩ ∧ s' = s) ∨
      ((s.deleteMembership parent child).2.recomputeClosure = (deletion.closure, s') ∧
        deletion.deletedGroups = []) ∨
      (deletion.deletedGroups ≠ [] ∧
        deletion.deletedGroups =
          (s.deleteMembership parent child).2.recomputeClosure.2.orphansBelow child ∧
        s' = ((s.deleteMembership parent child).2.recomputeClosure.2.deleteGroups
          deletion.deletedGroups).2.recomputeClosure.2 ∧
        deletion.closure =
          ((s.deleteMembership parent child).2.recomputeClosure.1.merge
            ((s.deleteMembership parent child).2.recomputeClosure.2.deleteGroups
              deletion.deletedGroups).2.recomputeClosure.1).without deletion.deletedGroups) := by
  rw [deleteRelation] at h
  split at h
  · rename_i hnone
    simp only [Except.ok.injEq, Prod.mk.injEq] at h
    exact Or.inl ⟨hnone, h.1.symm, h.2.symm⟩
  · rename_i m _
    generalize (m.isActive && (s.activeParents child).all fun p => p = parent) = orphaned at h
    rcases hfirst : (s.deleteMembership parent child).2.recomputeClosure with ⟨change, t⟩
    simp only [hfirst] at h ⊢
    split at h
    · simp at h
    · split at h
      · split at h
        · simp only [Except.ok.injEq, Prod.mk.injEq] at h
          obtain ⟨rfl, rfl⟩ := h
          exact Or.inr (Or.inl ⟨rfl, rfl⟩)
        · rename_i hsome
          simp only [Except.ok.injEq, Prod.mk.injEq] at h
          obtain ⟨rfl, rfl⟩ := h
          exact Or.inr (Or.inr ⟨by simpa using hsome, rfl, rfl, rfl⟩)
      · simp only [List.isEmpty_nil, if_true, Except.ok.injEq, Prod.mk.injEq] at h
        obtain ⟨rfl, rfl⟩ := h
        exact Or.inr (Or.inl ⟨rfl, rfl⟩)

/-! ### Why a request fails -/

section FailsFor

variable {p : Fault → Prop}

theorem failsFor_admittedAction (hdenied : p .accessDenied) (hban : ∀ ban, p (.forbidden ban))
    (group : Group) (r : RelationRequest) (manages : Bool) (now : Timestamp) :
    FailsFor p (admittedAction group r manages now) := by
  rw [admittedAction]
  split
  · exact failsFor_error hdenied
  · split
    · split
      · exact failsFor_ok _
      · split
        · exact failsFor_ok _
        · exact failsFor_error hdenied
    · split
      · exact failsFor_ok _
      · exact failsFor_error hdenied
    · split
      · exact failsFor_error (hban _)
      · exact failsFor_ok _
    · exact failsFor_ok _

theorem failsFor_ensureNoOtherTeam (hconflict : ∀ conflict, p (.unprocessable conflict)) (s : Store)
    (group : Group) (r : RelationRequest) (child : GroupId) (now : Timestamp) :
    FailsFor p (s.ensureNoOtherTeam group r child now) := by
  rw [ensureNoOtherTeam]
  split
  · split
    · exact failsFor_error (hconflict _)
    · exact failsFor_ok _
  · exact failsFor_ok _

theorem failsFor_requiredApproval (hconflict : ∀ conflict, p (.unprocessable conflict))
    (group : Group) (r : RelationRequest) (action : Action) (stored : Bool) (now : Timestamp) :
    FailsFor p (requiredApproval group r action stored now) := by
  rw [requiredApproval]
  generalize (if action.isAdmin then stored else r.approvesLock) = approved
  split
  · exact failsFor_ok _
  · split
    · exact failsFor_ok _
    · exact failsFor_error (hconflict _)

end FailsFor

/-! ### Moves -/

/-- Managers who ask to join do so at once; any other action is carried out as it was asked for. -/
theorem admittedAction_eq_ok {group : Group} {r : RelationRequest} {manages : Bool}
    {now : Timestamp} {action : Action} (h : admittedAction group r manages now = .ok action) :
    (action = r.action ∨
        (r.action = .userCreatesJoinRequest ∧ action = .userCreatesAcceptedJoinRequest)) ∧
      (action = .userLeavesGroup → group.isLeavingLocked now = false) := by
  rw [admittedAction] at h
  split at h
  · simp at h
  · split at h
    · rename_i hjoin
      split at h
      · obtain rfl := Except.ok.inj h
        exact ⟨Or.inr ⟨hjoin, rfl⟩, by simp⟩
      · split at h
        · obtain rfl := Except.ok.inj h
          exact ⟨Or.inl hjoin.symm, by simp⟩
        · simp at h
    · rename_i hjoin
      split at h
      · obtain rfl := Except.ok.inj h
        exact ⟨Or.inl hjoin.symm, by simp⟩
      · simp at h
    · rename_i hleave
      split at h
      · simp at h
      · rename_i hopen
        obtain rfl := Except.ok.inj h
        exact ⟨Or.inl hleave.symm, fun _ => by simpa using hopen⟩
    · rename_i hother
      obtain rfl := Except.ok.inj h
      exact ⟨Or.inl rfl, fun hleave => absurd hleave hother⟩

/-- Administration is for managers, and so are join requests that are accepted at once. -/
theorem manages_of_admittedAction {group : Group} {r : RelationRequest} {manages : Bool}
    {now : Timestamp} {action : Action} (h : admittedAction group r manages now = .ok action)
    (haction : action.isAdmin = true ∨ action = .userCreatesAcceptedJoinRequest) :
    manages = true := by
  by_contra hmanages
  rw [Bool.not_eq_true] at hmanages
  subst hmanages
  obtain ⟨hadmitted, -⟩ := admittedAction_eq_ok h
  rw [admittedAction] at h
  rcases haction with hadmin | rfl
  · obtain rfl := hadmitted.resolve_right fun hjoin => by
      simp [hjoin.2, Action.isAdmin] at hadmin
    simp [hadmin] at h
  · rcases hadmitted with hjoin | ⟨hjoin, -⟩
    · simp [← hjoin, Action.isAdmin] at h
    · simp only [hjoin, Action.isAdmin, Bool.false_and, Bool.false_eq_true, if_false] at h
      split at h <;> simp at h

/-- Where an approval is required, it is given with the request or has been stored before. -/
theorem requiredApproval_eq_ok {group : Group} {r : RelationRequest} {action : Action}
    {stored : Bool} {now : Timestamp} {approval : Option Bool}
    (h : requiredApproval group r action stored now = .ok approval) :
    (group.isMembershipLocked now = false ∧ approval = none) ∨
      (approval = some true ∧ (if action.isAdmin then stored else r.approvesLock) = true) := by
  rw [requiredApproval] at h
  generalize (if action.isAdmin then stored else r.approvesLock) = approved at h ⊢
  split at h
  · rename_i hopen
    exact Or.inl ⟨by simpa using hopen, (Except.ok.inj h).symm⟩
  · split at h
    · rename_i happroved
      exact Or.inr ⟨(Except.ok.inj h).symm, happroved⟩
    · simp at h

/-- Either the action is not for the membership or has nothing to do, and the membership stays, or
the action leads to a standing, which is written down; if that makes the child a member, there is no
other team in the way and it closes no cycle, and if it does or the child asks to be one, but not
otherwise, the approval is there that the group requires. -/
theorem moveChild_eq_ok {s s' : Store} {group : Group} {r : RelationRequest} {action : Action}
    {child : GroupId} {now : Timestamp} {result : TransitionResult} {flipped : Bool}
    (h : s.moveChild group r action child now = .ok ((result, flipped), s')) :
    ((∀ standing leaveRequested,
        nextState action (.ofMembership (s.memberships.get? (r.parent, child))) ≠
          .apply standing leaveRequested) ∧ flipped = false ∧ s' = s) ∨
      ∃ standing leaveRequested approval id,
        nextState action (.ofMembership (s.memberships.get? (r.parent, child))) =
          .apply standing leaveRequested ∧
        (standing = .active →
          (MembershipState.ofMembership (s.memberships.get? (r.parent, child))).isActive = false →
          s.ensureNoOtherTeam group r child now = .ok () ∧
            s.ensureNoCycle r.parent child = .ok ()) ∧
        s.putMembership r.parent child standing leaveRequested ⟨r.role, r.expiresAt, approval⟩
          now = .ok (id, s') ∧
        flipped = decide (decide (standing = .active) ≠
          (MembershipState.ofMembership (s.memberships.get? (r.parent, child))).isActive) ∧
        (((standing = .requestSent ∨
            (MembershipState.ofMembership (s.memberships.get? (r.parent, child))).isActive = false) ∧
          requiredApproval group r action
            ((s.memberships.get? (r.parent, child)).any (·.lockApproved)) now = .ok approval) ∨
          (approval = none ∧ standing ≠ .requestSent ∧ (standing = .active →
            (MembershipState.ofMembership (s.memberships.get? (r.parent, child))).isActive =
              true))) := by
  rw [moveChild] at h
  simp only at h
  split at h
  · obtain ⟨_, hfault, -⟩ := bind_eq_ok.1 h
    simp at hfault
  split at h
  · rename_i hnext
    simp only [pure, Except.pure, Except.ok.injEq, Prod.mk.injEq] at h
    exact Or.inl ⟨by simp [hnext], h.1.2.symm, h.2.symm⟩
  · rename_i hnext
    simp only [pure, Except.pure, Except.ok.injEq, Prod.mk.injEq] at h
    exact Or.inl ⟨by simp [hnext], h.1.2.symm, h.2.symm⟩
  · rename_i standing leaveRequested hnext
    -- Whatever approval was found, the standing is written down once all was looked up.
    have hwritten : ∃ approval, (standing = .active →
          (MembershipState.ofMembership (s.memberships.get? (r.parent, child))).isActive = false →
          s.ensureNoOtherTeam group r child now = .ok () ∧
            s.ensureNoCycle r.parent child = .ok ()) ∧
        (((standing = .requestSent ∨
            (MembershipState.ofMembership (s.memberships.get? (r.parent, child))).isActive = false) ∧
          requiredApproval group r action
            ((s.memberships.get? (r.parent, child)).any (·.lockApproved)) now = .ok approval) ∨
          (approval = none ∧ standing ≠ .requestSent ∧ (standing = .active →
            (MembershipState.ofMembership (s.memberships.get? (r.parent, child))).isActive =
              true))) ∧
        (Fault.lift (s.putMembership r.parent child standing leaveRequested
          ⟨r.role, r.expiresAt, approval⟩ now) >>= fun p => .ok (((⟨child, some p.1,
            ⟨some standing, leaveRequested⟩, true, .success⟩ : TransitionResult),
            decide (decide (standing = Standing.active) ≠
              (MembershipState.ofMembership (s.memberships.get? (r.parent, child))).isActive)),
            p.2)) = .ok ((result, flipped), s') := by
      split at h
      · rename_i hjoins
        simp only [Bool.or_eq_true, Bool.and_eq_true, Bool.not_eq_true', decide_eq_true_eq] at hjoins
        obtain ⟨_, hteam, h⟩ := bind_eq_ok.1 h
        obtain ⟨approval, hrequired, h⟩ := bind_eq_ok.1 h
        have happroval := And.intro (hjoins.symm.imp id And.right) hrequired
        refine ⟨approval, ?_⟩
        split at h
        · obtain ⟨_, hcycle, h⟩ := bind_eq_ok.1 h
          exact ⟨fun _ _ => ⟨hteam, hcycle⟩, Or.inl happroval, h⟩
        · rename_i hstays
          refine ⟨fun hactive hbefore => absurd ?_ hstays, Or.inl happroval, h⟩
          simp [hactive, hbefore]
      · rename_i hstays
        obtain ⟨approval, hnone, h⟩ := bind_eq_ok.1 h
        obtain rfl := Except.ok.inj hnone
        rw [Bool.not_eq_true, Bool.or_eq_false_iff, decide_eq_false_iff_not] at hstays
        obtain ⟨hstays, hrequest⟩ := hstays
        refine ⟨none, ?_⟩
        split at h
        · rename_i hjoins
          rw [hstays] at hjoins
          simp at hjoins
        · refine ⟨fun hactive hbefore => ?_, Or.inr ⟨rfl, hrequest, fun hactive => ?_⟩, h⟩
          · simp [hactive, hbefore] at hstays
          · simpa [hactive] using hstays
    obtain ⟨approval, hguards, happroval, h⟩ := hwritten
    obtain ⟨⟨id, t⟩, hput, h⟩ := bind_eq_ok.1 h
    simp only [Except.ok.injEq, Prod.mk.injEq] at h
    obtain ⟨⟨-, hflip⟩, rfl⟩ := h
    exact Or.inr ⟨standing, leaveRequested, approval, id, hnext, hguards, Fault.lift_eq_ok.1 hput,
      hflip.symm, happroval⟩

/-- Whoever is moved is not held back by the lock. -/
theorem unlocked_of_moveChild {s s' : Store} {group : Group} {r : RelationRequest} {action : Action}
    {child : GroupId} {now : Timestamp} {out : TransitionResult × Bool}
    (h : s.moveChild group r action child now = .ok (out, s')) :
    (action.isLeaveRequest && (s.memberships.get? (r.parent, child)).any (·.lockApproved) &&
      group.isMembershipLocked now) = false := by
  rw [moveChild] at h
  simp only at h
  split at h
  · obtain ⟨_, hfault, -⟩ := bind_eq_ok.1 h
    simp at hfault
  · rename_i hfree
    exact (Bool.not_eq_true _).mp hfree

theorem rejoins_moveChild {s s' : Store} {group : Group} {r : RelationRequest} {action : Action}
    {child : GroupId} {now : Timestamp} {out : TransitionResult × Bool}
    (h : s.moveChild group r action child now = .ok (out, s')) : s.Rejoins s' := by
  obtain ⟨result, flipped⟩ := out
  rcases moveChild_eq_ok h with ⟨-, -, rfl⟩ | ⟨_, _, _, _, -, -, hput, -⟩
  · exact .refl s'
  · exact rejoins_putMembership hput

/-- Moving a child leaves all other memberships alone. -/
theorem get?_moveChild_of_ne {s s' : Store} {group : Group} {r : RelationRequest} {action : Action}
    {child : GroupId} {now : Timestamp} {k : GroupId × GroupId} {out : TransitionResult × Bool}
    (hne : (r.parent, child) ≠ k) (h : s.moveChild group r action child now = .ok (out, s')) :
    s'.memberships.get? k = s.memberships.get? k := by
  obtain ⟨result, flipped⟩ := out
  rcases moveChild_eq_ok h with ⟨-, -, rfl⟩ | ⟨standing, requested, approval, id, -, -, hput, -⟩
  · rfl
  · obtain ⟨-, -, rfl⟩ := putMembership_eq_ok hput
    rw [Table.get?_insert, if_neg hne]

theorem moveChildren_cons_eq_ok {s s' : Store} {group : Group} {r : RelationRequest}
    {action : Action} {now : Timestamp} {child : GroupId} {rest : List GroupId}
    {out : List TransitionResult × Bool}
    (h : s.moveChildren group r action now (child :: rest) = .ok (out, s')) :
    ∃ result flipped results flippedLater t,
      s.moveChild group r action child now = .ok ((result, flipped), t) ∧
        t.moveChildren group r action now rest = .ok ((results, flippedLater), s') ∧
        out = (result :: results, flipped || flippedLater) := by
  rw [moveChildren] at h
  obtain ⟨⟨⟨result, flipped⟩, t⟩, hone, h⟩ := bind_eq_ok.1 h
  obtain ⟨⟨⟨results, flippedLater⟩, u⟩, hrest, h⟩ := bind_eq_ok.1 h
  simp only [pure, Except.pure, Except.ok.injEq, Prod.mk.injEq] at h
  obtain ⟨rfl, rfl⟩ := h
  exact ⟨result, flipped, results, flippedLater, t, hone, hrest, rfl⟩

/-- What every move of a request keeps, all of them keep. -/
theorem moveChildren_keeps {P : Store → Prop} {s s' : Store} {group : Group} {r : RelationRequest}
    {action : Action} {now : Timestamp} {children : List GroupId}
    {out : List TransitionResult × Bool}
    (hmove : ∀ t t' child out, child ∈ children → P t →
      t.moveChild group r action child now = .ok (out, t') → P t')
    (hs : P s) (h : s.moveChildren group r action now children = .ok (out, s')) : P s' := by
  induction children generalizing s out with
  | nil =>
    simp only [moveChildren, Except.ok.injEq, Prod.mk.injEq] at h
    exact h.2 ▸ hs
  | cons child rest ih =>
    obtain ⟨_, _, _, _, t, hone, hrest, -⟩ := moveChildren_cons_eq_ok h
    refine ih (fun t t' later out hlater => ?_) (hmove s t child _ List.mem_cons_self hs hone) hrest
    exact hmove t t' later out (List.mem_cons_of_mem _ hlater)

theorem get?_moveChildren_of_ne {s s' : Store} {group : Group} {r : RelationRequest}
    {action : Action} {now : Timestamp} {k : GroupId × GroupId} {children : List GroupId}
    {out : List TransitionResult × Bool} (hne : ∀ child ∈ children, (r.parent, child) ≠ k)
    (h : s.moveChildren group r action now children = .ok (out, s')) :
    s'.memberships.get? k = s.memberships.get? k :=
  moveChildren_keeps (P := fun t => t.memberships.get? k = s.memberships.get? k)
    (fun _ _ child _ hchild hkept hone =>
      (get?_moveChild_of_ne (hne child hchild) hone).trans hkept) rfl h

theorem rejoins_moveChildren {s s' : Store} {group : Group} {r : RelationRequest}
    {action : Action} {now : Timestamp} {children : List GroupId}
    {out : List TransitionResult × Bool}
    (h : s.moveChildren group r action now children = .ok (out, s')) : s.Rejoins s' :=
  moveChildren_keeps (P := s.Rejoins)
    (fun _ _ _ _ _ hjoin hone => hjoin.trans (rejoins_moveChild hone)) (.refl s) h

/-- The closure is recomputed if a membership became active or stopped being so. -/
theorem applyRequest_eq_ok {s s' : Store} {r : RelationRequest} {now : Timestamp}
    {outcome : TransitionOutcome} (h : s.applyRequest r now = .ok (outcome, s')) :
    ∃ group action results flipped t,
      s.groups.get? r.parent = some group ∧
        admittedAction group r (s.manages r.actor r.parent now) now = .ok action ∧
        s.moveChildren group r action now r.children = .ok ((results, flipped), t) ∧
        ((flipped = true ∧ t.recomputeClosure = (outcome.closure, s')) ∨
          (flipped = false ∧ outcome.closure = .none ∧ s' = t)) := by
  rw [applyRequest] at h
  split at h
  · rename_i group hget
    obtain ⟨_, hgroup, h⟩ := bind_eq_ok.1 h
    obtain rfl := Except.ok.inj hgroup
    obtain ⟨action, haction, h⟩ := bind_eq_ok.1 h
    obtain ⟨⟨⟨results, flipped⟩, t⟩, hmoves, h⟩ := bind_eq_ok.1 h
    refine ⟨group, action, results, flipped, t, hget, haction, hmoves, ?_⟩
    cases flipped with
    | true =>
      simp only [if_true, pure, Except.pure, Except.ok.injEq, Prod.mk.injEq] at h
      obtain ⟨rfl, rfl⟩ := h
      exact Or.inl ⟨rfl, rfl⟩
    | false =>
      simp only [Bool.false_eq_true, if_false, pure, Except.pure, Except.ok.injEq,
        Prod.mk.injEq] at h
      obtain ⟨rfl, rfl⟩ := h
      exact Or.inr ⟨rfl, rfl, rfl⟩
  · obtain ⟨_, hfault, -⟩ := bind_eq_ok.1 h
    simp at hfault

/-! ### Calls on groups -/

theorem insertGroup_eq_ok {s s' : Store} {id : GroupId} {group : Group}
    (h : s.insertGroup id group = .ok s') :
    s.groups.contains id = false ∧
      s' = { s with
        groups := s.groups.insert id group
        ancestors :=
          if s.ancestors.contains (id, id) then s.ancestors
          else s.ancestors.insert (id, id) ⟨true, .never⟩ } := by
  rw [insertGroup] at h
  split at h
  · simp at h
  · rename_i hno
    exact ⟨by simpa using hno, (Except.ok.inj h).symm⟩

theorem requireGroup_eq_ok {s : Store} {id : GroupId} {u : Unit}
    (h : s.requireGroup id = .ok u) : s.groups.contains id = true := by
  rw [requireGroup] at h
  split at h
  · assumption
  · simp at h

theorem relate_eq_ok {s s' : Store} {parent child : GroupId} {terms : MembershipTerms}
    {now : Timestamp} {change : ClosureChange}
    (h : s.relate parent child terms now = .ok (change, s')) :
    ∃ t, s.createRelation parent child terms now = .ok (change, t) ∧
      t.settleClosure change now = .ok s' := by
  rw [relate] at h
  obtain ⟨_, -, h⟩ := bind_eq_ok.1 h
  obtain ⟨_, -, h⟩ := bind_eq_ok.1 h
  obtain ⟨⟨change', t⟩, hcreate, h⟩ := bind_eq_ok.1 h
  obtain ⟨u, hsettle, h⟩ := bind_eq_ok.1 h
  simp only [pure, Except.pure, Except.ok.injEq, Prod.mk.injEq] at h
  obtain ⟨rfl, rfl⟩ := h
  exact ⟨t, hcreate, hsettle⟩

theorem relateAll_eq_ok {s s' : Store} {pairs : List (GroupId × GroupId)} {now : Timestamp}
    {change : ClosureChange} (h : s.relateAll pairs now = .ok (change, s')) :
    ∃ t, s.createRelations pairs now = .ok (change, t) ∧ t.settleClosure change now = .ok s' := by
  rw [relateAll] at h
  obtain ⟨⟨change', t⟩, hcreate, h⟩ := bind_eq_ok.1 h
  obtain ⟨u, hsettle, h⟩ := bind_eq_ok.1 h
  simp only [pure, Except.pure, Except.ok.injEq, Prod.mk.injEq] at h
  obtain ⟨rfl, rfl⟩ := h
  exact ⟨t, hcreate, hsettle⟩

theorem unrelate_eq_ok {s s' : Store} {parent child : GroupId} {allowOrphans : Bool}
    {now : Timestamp} {deletion : RelationDeletion}
    (h : s.unrelate parent child allowOrphans now = .ok (deletion, s')) :
    ∃ t, s.deleteRelation parent child allowOrphans = .ok (deletion, t) ∧
      t.settleClosure deletion.closure now = .ok s' := by
  rw [unrelate] at h
  obtain ⟨⟨deletion', t⟩, hdelete, h⟩ := bind_eq_ok.1 h
  obtain ⟨u, hsettle, h⟩ := bind_eq_ok.1 h
  simp only [pure, Except.pure, Except.ok.injEq, Prod.mk.injEq] at h
  obtain ⟨rfl, rfl⟩ := h
  exact ⟨t, hdelete, hsettle⟩

/-- Once a relation is removed there are no other memberships and groups than before. -/
theorem unrelate_kept {s s' : Store} {parent child : GroupId} {allowOrphans : Bool}
    {now : Timestamp} {deletion : RelationDeletion}
    (h : s.unrelate parent child allowOrphans now = .ok (deletion, s')) :
    (∀ k m, s'.memberships.get? k = some m → s.memberships.get? k = some m) ∧
      ∀ id group, s'.groups.get? id = some group → s.groups.get? id = some group := by
  obtain ⟨t, hdelete, hsettle⟩ := unrelate_eq_ok h
  obtain ⟨gen, rs, rfl⟩ := settleClosure_frame hsettle
  have hremoved : ∀ k m, (s.deleteMembership parent child).2.memberships.get? k = some m →
      s.memberships.get? k = some m := by
    intro k m hm
    rw [deleteMembership, Table.get?_erase] at hm
    split at hm
    · simp at hm
    · exact hm
  rcases deleteRelation_eq_ok hdelete with ⟨-, -, rfl⟩ | ⟨hclosure, -⟩ | ⟨-, -, rfl, -⟩
  · exact ⟨fun _ _ hm => hm, fun _ _ hgroup => hgroup⟩
  · obtain rfl := congrArg Prod.snd hclosure
    exact ⟨hremoved, fun _ _ hgroup => hgroup⟩
  · refine deleteGroups_keeps (s := (s.deleteMembership parent child).2.recomputeClosure.2)
      (P := fun t => (∀ k m, t.memberships.get? k = some m → s.memberships.get? k = some m) ∧
        ∀ id group, t.groups.get? id = some group → s.groups.get? id = some group)
      (fun t id ht => ⟨fun k m hm => ?_, fun other group hgroup => ?_⟩)
      ⟨hremoved, fun _ _ hgroup => hgroup⟩ _
    · exact ht.1 k m (Table.get?_filter_eq_some.1 hm).1
    · rw [dropGroup, Table.get?_erase] at hgroup
      split at hgroup
      · simp at hgroup
      · exact ht.2 other group hgroup

theorem request_eq_ok {s s' : Store} {r : RelationRequest} {now : Timestamp}
    {outcome : TransitionOutcome} (h : s.request r now = .ok (outcome, s')) :
    ∃ t, s.applyRequest r now = .ok (outcome, t) ∧
      t.settleClosure outcome.closure now = .ok s' := by
  rw [request] at h
  obtain ⟨⟨outcome', t⟩, happly, h⟩ := bind_eq_ok.1 h
  obtain ⟨u, hsettle, h⟩ := bind_eq_ok.1 h
  simp only [pure, Except.pure, Except.ok.injEq, Prod.mk.injEq] at h
  obtain ⟨rfl, rfl⟩ := h
  exact ⟨t, happly, hsettle⟩

/-- Whether or not memberships were moved in or out, what was written is settled. -/
theorem request_settles {s s' : Store} {r : RelationRequest} {now : Timestamp}
    {outcome : TransitionOutcome} (h : s.request r now = .ok (outcome, s')) :
    (∃ t, Reclosed outcome.closure s t ∧ t.settleClosure outcome.closure now = .ok s') ∨
      ∃ t, s.Rejoins t ∧ t.settleClosure .none now = .ok s' := by
  obtain ⟨t, happly, hsettle⟩ := request_eq_ok h
  obtain ⟨_, _, _, _, u, -, -, hmoves, hrest⟩ := applyRequest_eq_ok happly
  have hjoin := rejoins_moveChildren hmoves
  rcases hrest with ⟨-, hclosure⟩ | ⟨-, hnone, rfl⟩
  · exact Or.inl ⟨t, ⟨u, hjoin, hclosure⟩, hsettle⟩
  · rw [hnone] at hsettle
    exact Or.inr ⟨t, hjoin, hsettle⟩

/-- After a request the memberships are those that its moves left. -/
theorem moves_of_request {s s' : Store} {r : RelationRequest} {now : Timestamp}
    {outcome : TransitionOutcome} (h : s.request r now = .ok (outcome, s')) :
    ∃ group action out t,
      s.groups.get? r.parent = some group ∧
        admittedAction group r (s.manages r.actor r.parent now) now = .ok action ∧
        s.moveChildren group r action now r.children = .ok (out, t) ∧
        s'.memberships = t.memberships := by
  obtain ⟨t, happly, hsettle⟩ := request_eq_ok h
  obtain ⟨gen, rs, rfl⟩ := settleClosure_frame hsettle
  obtain ⟨group, action, results, flipped, u, hget, haction, hmoves, hrest⟩ :=
    applyRequest_eq_ok happly
  refine ⟨group, action, (results, flipped), u, hget, haction, hmoves, ?_⟩
  rcases hrest with ⟨-, hclosure⟩ | ⟨-, -, rfl⟩
  · obtain rfl : u.recomputeClosure.2 = t := congrArg Prod.snd hclosure
    rfl
  · rfl

theorem groups_request {s s' : Store} {r : RelationRequest} {now : Timestamp}
    {outcome : TransitionOutcome} (h : s.request r now = .ok (outcome, s')) :
    s'.groups = s.groups := by
  rcases request_settles h with ⟨t, hreclosed, hsettle⟩ | ⟨t, ⟨⟨ms, n, rfl⟩, -⟩, hsettle⟩
  · obtain ⟨gen, rs, rfl⟩ := settleClosure_frame hsettle
    exact hreclosed.groups_eq
  · obtain ⟨gen, rs, rfl⟩ := settleClosure_frame hsettle
    rfl

theorem get?_request_of_ne {s s' : Store} {r : RelationRequest} {now : Timestamp}
    {k : GroupId × GroupId} {outcome : TransitionOutcome}
    (hne : ∀ child ∈ r.children, (r.parent, child) ≠ k) (h : s.request r now = .ok (outcome, s')) :
    s'.memberships.get? k = s.memberships.get? k := by
  obtain ⟨group, action, out, t, -, -, hmoves, hmemberships⟩ := moves_of_request h
  rw [hmemberships]
  exact get?_moveChildren_of_ne hne hmoves

theorem appoint_eq_ok {s s' : Store} {group manager : GroupId} {new : Bool}
    (h : s.appoint group manager = .ok (new, s')) :
    s' = s ∨ (s.groups.contains group = true ∧ s.groups.contains manager = true ∧
      s' = { s with managers := s.managers.add (group, manager) }) := by
  rw [appoint] at h
  obtain ⟨_, hgroup, h⟩ := bind_eq_ok.1 h
  obtain ⟨_, hmanager, h⟩ := bind_eq_ok.1 h
  replace h := Fault.lift_eq_ok.1 h
  rw [addManager] at h
  split at h
  · simp only [Except.ok.injEq, Prod.mk.injEq] at h
    exact Or.inl h.2.symm
  · obtain ⟨_, -, h⟩ := bind_eq_ok.1 h
    simp only [pure, Except.pure, Except.ok.injEq, Prod.mk.injEq] at h
    exact Or.inr ⟨requireGroup_eq_ok hgroup, requireGroup_eq_ok hmanager, h.2.symm⟩

end Store

end Courseware
