import Courseware.Proofs.Memberships

/-!
# Approval of membership locks

While the lock of a group is in force, nobody joins it or asks to join it without an approval. Users
give it with a request, and it stays with the membership, where managers rely on it. So whoever joined
or asked to join a locked group has approved of the lock at some time, and the membership tells
(`lockApproved_run`).
-/

namespace Courseware

namespace Store

variable {s s' : Store} {given : Prop} {group : Group} {parent child : GroupId} {now : Timestamp}

/-- If the standing of a membership was reached under the lock of the group, the approval is stored,
and what is stored has been given. -/
structure Covered (given : Prop) (group : Group) (m : Membership) : Prop where
  approved : m.standing = .requestSent ∨ m.standing = .active →
    group.isMembershipLocked m.changedAt = true → m.lockApproved = true
  given : m.lockApproved = true → given

theorem Covered.mono {later : Prop} {m : Membership} (h : Covered given group m)
    (hlater : given → later) : Covered later group m :=
  ⟨h.approved, fun happroved => hlater (h.given happroved)⟩

section Moves

variable {r : RelationRequest} {action : Action}

/-- A standing is as old as it was before the move, or it is new. -/
theorem changedAt_membershipAfter (s : Store) (parent child : GroupId) (standing : Standing)
    (leaveRequested : Bool) (terms : MembershipTerms) (now : Timestamp) :
    (∃ m, s.memberships.get? (parent, child) = some m ∧ m.standing = standing ∧
      (s.membershipAfter parent child standing leaveRequested terms now).changedAt = m.changedAt) ∨
    ((MembershipState.ofMembership (s.memberships.get? (parent, child))).standing ≠ some standing ∧
      (s.membershipAfter parent child standing leaveRequested terms now).changedAt = now) := by
  rw [membershipAfter]
  split
  · rename_i m hm
    by_cases hsame : m.standing = standing
    · exact Or.inl ⟨m, hm, hsame, if_pos hsame⟩
    · refine Or.inr ⟨?_, if_neg hsame⟩
      rw [hm]
      exact fun heq => hsame (Option.some.inj heq)
  · rename_i hnone
    refine Or.inr ⟨?_, rfl⟩
    rw [hnone]
    simp [MembershipState.ofMembership, MembershipState.absent]

/-- A stored approval stays, and without a new one a standing is reached in an open group only. -/
theorem covered_membershipAfter {standing : Standing} {leaveRequested : Bool}
    {terms : MembershipTerms}
    (hcovered : ∀ m, s.memberships.get? (parent, child) = some m → Covered given group m)
    (hterms : (terms.lockApproved = some true ∧ given) ∨
      (terms.lockApproved = none ∧
        ((MembershipState.ofMembership (s.memberships.get? (parent, child))).standing ≠
            some standing →
          standing = .requestSent ∨ standing = .active →
          group.isMembershipLocked now = false))) :
    Covered given group (s.membershipAfter parent child standing leaveRequested terms now) := by
  rcases hterms with ⟨happroved, hgiven⟩ | ⟨hnone, hopen⟩
  · refine ⟨fun _ _ => ?_, fun _ => hgiven⟩
    rw [lockApproved_membershipAfter, happroved]
    rfl
  · constructor
    · rw [standing_membershipAfter, lockApproved_membershipAfter, hnone]
      intro hstanding hlocked
      rcases s.changedAt_membershipAfter parent child standing leaveRequested terms now with
        ⟨m, hm, rfl, hdate⟩ | ⟨hnew, hdate⟩
      · rw [hdate] at hlocked
        rw [hm]
        exact (hcovered m hm).approved hstanding hlocked
      · rw [hdate, hopen hnew hstanding] at hlocked
        simp at hlocked
    · rw [lockApproved_membershipAfter, hnone]
      intro hstored
      obtain ⟨m, hm, happroved⟩ := Option.any_eq_true .. |>.1 hstored
      exact (hcovered m hm).given happroved

theorem covered_moveChild {first : GroupId} {out : TransitionResult × Bool}
    (hcovered : ∀ m, s.memberships.get? (r.parent, child) = some m → Covered given group m)
    (huser : action.isAdmin = false → r.approvesLock = true → given)
    (h : s.moveChild group r action first now = .ok (out, s')) :
    ∀ m, s'.memberships.get? (r.parent, child) = some m → Covered given group m := by
  by_cases hfirst : first = child
  · subst hfirst
    obtain ⟨result, flipped⟩ := out
    rcases moveChild_eq_ok h with
      ⟨-, -, rfl⟩ | ⟨standing, requested, approval, id, -, -, hput, -, happroval⟩
    · exact hcovered
    · obtain ⟨-, -, rfl⟩ := putMembership_eq_ok hput
      intro m hm
      obtain rfl := Option.some.inj ((Table.get?_insert_self _ _ _).symm.trans hm)
      refine covered_membershipAfter hcovered ?_
      rcases happroval with ⟨-, hrequired⟩ | ⟨hnone, hrequest, hactive⟩
      · rcases requiredApproval_eq_ok hrequired with ⟨hopen, hnone⟩ | ⟨happroved, hsource⟩
        · exact Or.inr ⟨hnone, fun _ _ => hopen⟩
        · refine Or.inl ⟨happroved, ?_⟩
          split at hsource
          · obtain ⟨m, hm, hstored⟩ := Option.any_eq_true .. |>.1 hsource
            exact (hcovered m hm).given hstored
          · rename_i hadmin
            exact huser (by simpa using hadmin) hsource
      · refine Or.inr ⟨hnone, fun hnew hstanding => ?_⟩
        have hold := hactive (hstanding.resolve_left hrequest)
        rw [hstanding.resolve_left hrequest] at hnew
        exact absurd (of_decide_eq_true hold) hnew
  · rwa [get?_moveChild_of_ne (by simpa using hfirst) h]

theorem covered_moveChildren {children : List GroupId} {out : List TransitionResult × Bool}
    (hcovered : ∀ m, s.memberships.get? (r.parent, child) = some m → Covered given group m)
    (huser : action.isAdmin = false → r.approvesLock = true → given)
    (h : s.moveChildren group r action now children = .ok (out, s')) :
    ∀ m, s'.memberships.get? (r.parent, child) = some m → Covered given group m :=
  moveChildren_keeps
    (P := fun t => ∀ m, t.memberships.get? (r.parent, child) = some m → Covered given group m)
    (fun _ _ _ _ _ ht hone => covered_moveChild ht huser hone) hcovered h

end Moves

/-- Whether the membership, if there is one, is covered in its group. -/
def CoversMembership (given : Prop) (s : Store) (parent child : GroupId) : Prop :=
  ∀ m group, s.memberships.get? (parent, child) = some m → s.groups.get? parent = some group →
    Covered given group m

theorem CoversMembership.mono {later : Prop} (h : CoversMembership given s parent child)
    (hlater : given → later) : CoversMembership later s parent child :=
  fun m group hm hgroup => (h m group hm hgroup).mono hlater

theorem CoversMembership.keeps (h : CoversMembership given s parent child)
    (hkeeps : KeepsMembership s s' parent child) : CoversMembership given s' parent child := by
  intro m group hm hgroup
  obtain ⟨hm, hgroups⟩ := hkeeps m hm
  exact h m group hm (hgroups group hgroup)

theorem CoversMembership.request {r : RelationRequest} {outcome : TransitionOutcome}
    (h : CoversMembership given s r.parent child)
    (huser : r.action.isAdmin = false → r.approvesLock = true → given)
    (hrequest : s.request r now = .ok (outcome, s')) :
    CoversMembership given s' r.parent child := by
  intro m group hm hgroup
  rw [groups_request hrequest] at hgroup
  obtain ⟨stored, action, out, t, hstored, hadmitted, hmoves, hmemberships⟩ :=
    moves_of_request hrequest
  obtain rfl := Option.some.inj (hgroup.symm.trans hstored)
  rw [hmemberships] at hm
  refine covered_moveChildren (fun m hm => h m group hm hgroup) (fun hadmin => huser ?_) hmoves m hm
  rcases (admittedAction_eq_ok hadmitted).1 with rfl | ⟨hjoin, -⟩
  · exact hadmin
  · rw [hjoin]
    rfl

end Store

namespace Session

open Store

variable {s : Session} {step : Step} {parent child : GroupId}

/-- The step is a successful request of a user about `child` in `parent` that approves of the lock. -/
def ApprovesLock (parent child : GroupId) (s : Session) (step : Step) : Prop :=
  ∃ r, s.Requests parent child step r ∧ r.action.isAdmin = false ∧ r.approvesLock = true

theorem coversMembership_step {given : Prop} (hs : s.Idle) (hcoherent : s.committed.Coherent)
    (h : CoversMembership given s.committed parent child) (hspares : s.Spares parent child step) :
    CoversMembership (given ∨ s.ApprovesLock parent child step) (s.step step).committed parent
      child := by
  rcases membership_step hs hcoherent hspares with hkeeps | ⟨r, outcome, hrequests, hrequest⟩
  · exact (h.mono Or.inl).keeps hkeeps
  · have hparent := hrequests.parent
    subst hparent
    exact (h.mono Or.inl).request (fun hadmin happroves => Or.inr ⟨r, hrequests, hadmin, happroves⟩)
      hrequest

theorem coversMembership_start (ids : IdSource) (clock : Timestamp) (policy : RetryPolicy) :
    CoversMembership False (start ids clock policy).committed parent child :=
  fun m _ hm _ => absurd hm (by simp [start, Store.empty])

/-- Who joined a group or asked to join it before the end of its lock, has the approval stored, and a
request of a user has given it at some time, as long as the relation has not been made otherwise. -/
theorem lockApproved_run (ids : IdSource) (clock : Timestamp) (policy : RetryPolicy)
    {steps : List Step} {parent child : GroupId} {group : Group} {m : Membership}
    (hspares : (start ids clock policy).Along (Spares parent child) steps)
    (hgroup : ((start ids clock policy).run steps).group? parent = some group)
    (hm : ((start ids clock policy).run steps).membership? parent child = some m)
    (hstanding : m.standing = .requestSent ∨ m.standing = .active)
    (hlocked : group.isMembershipLocked m.changedAt = true) :
    m.lockApproved = true ∧
      (start ids clock policy).Sometime (ApprovesLock parent child) steps := by
  have hs := idle_start ids clock policy
  rw [group?_of_idle (idle_run hs steps)] at hgroup
  rw [membership?_of_idle (idle_run hs steps)] at hm
  have hcovers := (run_history
    (I := fun given s => s.committed.Coherent ∧ CoversMembership given s.committed parent child)
    (p := ApprovesLock parent child) (fun given s step hs h hspares =>
      ⟨coherent_step hs h.1 step, coversMembership_step hs h.1 h.2 hspares⟩) hs False
    ⟨coherent_empty, coversMembership_start ids clock policy⟩ hspares).2
  obtain ⟨happroved, hgiven⟩ := hcovers m group hm hgroup
  have hstored := happroved hstanding hlocked
  exact ⟨hstored, (hgiven hstored).resolve_left id⟩

/-- A user approves with the request to join a group that is locked until 9000, and a manager relies
on that. -/
def approvedRequest : List Step :=
  let plain : Group := ⟨"", .user, true, none, none, none⟩
  [ .call (.createGroup 1 { plain with kind := .classroom, approvalRequiredUntil := some ⟨9000⟩ }),
    .call (.createGroup 2 plain),
    .call (.createGroup 3 plain),
    .call (.setManager 1 3),
    .call (.transition ⟨1, [2], .userCreatesJoinRequest, 2, none, none, true⟩),
    .advance (.ofMillis 1000),
    .call (.transition ⟨1, [2], .adminAcceptsJoinRequest, 3, none, none, false⟩) ]

theorem lockApproved_approvedRequest :
    ((start (.ofList []) .zero .standard).run approvedRequest).membership? 1 2 =
        some ⟨1, "member", .active, true, false, .never, ⟨1000⟩⟩ ∧
      (start (.ofList []) .zero .standard).Sometime (ApprovesLock 1 2) approvedRequest := by
  have hspares : (start (.ofList []) .zero .standard).Along (Spares 1 2) approvedRequest := by
    decide +kernel
  have hgroup : ((start (.ofList []) .zero .standard).run approvedRequest).group? 1 =
      some ⟨"", .classroom, true, none, some ⟨9000⟩, none⟩ := by decide +kernel
  have hm : ((start (.ofList []) .zero .standard).run approvedRequest).membership? 1 2 =
      some ⟨1, "member", .active, true, false, .never, ⟨1000⟩⟩ := by decide +kernel
  exact ⟨hm, (lockApproved_run (.ofList []) .zero .standard hspares hgroup hm (Or.inr rfl)
    (by decide)).2⟩

end Session

end Courseware
