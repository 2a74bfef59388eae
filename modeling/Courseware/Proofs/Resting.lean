import Courseware.Proofs.Sweep

/-!
# Requests that are repeated

The state that an action leads to is one in which the same action does nothing more. So once a request
has been carried out all its children are at rest for it, those listed twice included, and if it is
made again with the same rights it finds nothing to do: nothing is written, no ancestor changes, and
access and results are settled already (`transition_repeated`).
-/

namespace Courseware

/-- Where an action leads to, it leads no further. -/
theorem nextState_of_nextState {action : Action} {current : MembershipState} {standing : Standing}
    {leaveRequested : Bool} (h : nextState action current = .apply standing leaveRequested)
    (standing' : Standing) (leaveRequested' : Bool) :
    nextState action ⟨some standing, leaveRequested⟩ ≠ .apply standing' leaveRequested' := by
  obtain ⟨old, requested⟩ := current
  cases action <;> cases requested <;> rcases old with _ | (_ | _) <;>
    simp only [nextState, Transition.apply.injEq, reduceCtorEq] at h <;>
    obtain ⟨rfl, rfl⟩ := h <;> simp [nextState]

namespace Store

section Moves

variable {s s' t : Store} {group : Group} {r : RelationRequest} {action : Action} {now : Timestamp}
  {child : GroupId}

/-- The action does nothing to the membership of the child, and is not refused for its lock. -/
structure Resting (s : Store) (group : Group) (r : RelationRequest) (action : Action)
    (now : Timestamp) (child : GroupId) : Prop where
  idle : ∀ standing leaveRequested,
    nextState action (.ofMembership (s.memberships.get? (r.parent, child))) ≠
      .apply standing leaveRequested
  unlocked : (action.isLeaveRequest && (s.memberships.get? (r.parent, child)).any (·.lockApproved) &&
    group.isMembershipLocked now) = false

theorem Resting.congr (h : s.Resting group r action now child)
    (hsame : t.memberships.get? (r.parent, child) = s.memberships.get? (r.parent, child)) :
    t.Resting group r action now child := by
  obtain ⟨hidle, hunlocked⟩ := h
  rw [← hsame] at hidle hunlocked
  exact ⟨hidle, hunlocked⟩

/-- A child that was moved is at rest. -/
theorem resting_moveChild {out : TransitionResult × Bool}
    (h : s.moveChild group r action child now = .ok (out, s')) :
    s'.Resting group r action now child := by
  have hunlocked := unlocked_of_moveChild h
  obtain ⟨result, flipped⟩ := out
  rcases moveChild_eq_ok h with
    ⟨hidle, -, rfl⟩ | ⟨standing, requested, approval, id, hnext, -, hput, -, happroval⟩
  · exact ⟨hidle, hunlocked⟩
  · obtain ⟨-, -, rfl⟩ := putMembership_eq_ok hput
    refine ⟨?_, ?_⟩
    · rw [Table.get?_insert_self, MembershipState.ofMembership, standing_membershipAfter,
        leaveRequested_membershipAfter]
      exact nextState_of_nextState hnext
    · rw [Table.get?_insert_self, Option.any_some, lockApproved_membershipAfter]
      -- Only who is a member asks to leave, and that needs no approval of its own.
      cases hrequest : action.isLeaveRequest with
      | false => rw [Bool.false_and, Bool.false_and]
      | true =>
        have hactive := isActive_of_isLeaveRequest hrequest hnext
        rcases happroval with ⟨hjoins, -⟩ | ⟨rfl, -, -⟩
        · rcases hjoins with hrequested | hinactive
          · exact absurd hrequested (hactive.2 ▸ by decide)
          · exact absurd (hactive.1.symm.trans hinactive) (by simp)
        · rw [hrequest] at hunlocked
          exact hunlocked

/-- Moving any child leaves those alone that are at rest. -/
theorem Resting.moveChild {other : GroupId} {out : TransitionResult × Bool}
    (h : s.Resting group r action now child)
    (hmove : s.moveChild group r action other now = .ok (out, s')) :
    s'.Resting group r action now child := by
  by_cases hother : other = child
  · subst hother
    exact resting_moveChild hmove
  · exact h.congr (get?_moveChild_of_ne (by simpa using hother) hmove)

theorem resting_moveChildren {children : List GroupId} {out : List TransitionResult × Bool}
    (h : s.moveChildren group r action now children = .ok (out, s')) :
    ∀ child ∈ children, s'.Resting group r action now child := by
  induction children generalizing s out with
  | nil => exact fun _ hchild => absurd hchild List.not_mem_nil
  | cons first rest ih =>
    obtain ⟨_, _, _, _, t, hone, hrest, -⟩ := moveChildren_cons_eq_ok h
    refine List.forall_mem_cons.2 ⟨?_, ih hrest⟩
    exact moveChildren_keeps (P := fun u => u.Resting group r action now first)
      (fun _ _ _ _ _ hresting hmove => hresting.moveChild hmove) (resting_moveChild hone) hrest

/-- A child at rest is not moved. -/
theorem Resting.moveChild_eq (h : s.Resting group r action now child) :
    ∃ result, result.changed = false ∧
      s.moveChild group r action child now = .ok ((result, false), s) := by
  rw [Store.moveChild]
  simp only [h.unlocked, Bool.false_eq_true, if_false]
  cases hnext : nextState action (.ofMembership (s.memberships.get? (r.parent, child))) with
  | apply standing leaveRequested => exact absurd hnext (h.idle standing leaveRequested)
  | unchanged | invalid => exact ⟨_, rfl, rfl⟩

theorem moveChildren_of_resting {children : List GroupId}
    (h : ∀ child ∈ children, s.Resting group r action now child) :
    ∃ results, (∀ result ∈ results, result.changed = false) ∧
      s.moveChildren group r action now children = .ok ((results, false), s) := by
  induction children with
  | nil => exact ⟨[], fun _ hresult => absurd hresult List.not_mem_nil, rfl⟩
  | cons child rest ih =>
    obtain ⟨hchild, hrest⟩ := List.forall_mem_cons.1 h
    obtain ⟨result, hsame, hone⟩ := hchild.moveChild_eq
    obtain ⟨results, hunchanged, hlater⟩ := ih hrest
    refine ⟨result :: results, List.forall_mem_cons.2 ⟨hsame, hunchanged⟩, ?_⟩
    rw [moveChildren, hone, bind, Monad.toBind, Except.instMonad]
    simp [hlater, Except.bind, pure, Except.pure]

/-! ### Requests -/

/-- A request that was carried out finds nothing to do when it is made again with the same rights. -/
theorem request_again {outcome : TransitionOutcome} (h : s.request r now = .ok (outcome, s'))
    (hdone : s'.AllDone)
    (hmanages : s'.manages r.actor r.parent now = s.manages r.actor r.parent now) :
    ∃ again, (∀ result ∈ again.results, result.changed = false) ∧
      s'.request r now = .ok (again, s') := by
  obtain ⟨group, action, out, t, hget, haction, hmoves, hmemberships⟩ := moves_of_request h
  have hresting : ∀ child ∈ r.children, s'.Resting group r action now child := fun child hchild =>
    (resting_moveChildren hmoves child hchild).congr (by rw [hmemberships])
  obtain ⟨results, hunchanged, hagain⟩ := moveChildren_of_resting hresting
  rw [← groups_request h] at hget
  rw [← hmanages] at haction
  have happly : s'.applyRequest r now = .ok (⟨action, results, .none⟩, s') := by
    rw [applyRequest, hget]
    simp [haction, hagain, bind, Except.bind, pure, Except.pure]
  refine ⟨⟨action, results, .none⟩, hunchanged, ?_⟩
  rw [request, happly]
  simp [settleClosure_of_allDone hdone now, bind, Except.bind, pure, Except.pure]

end Moves

end Store

/-! ### Runs -/

namespace Session

/-- A request that succeeds can be repeated at once, and as long as the actor manages the group then if
and only if it was so before, nothing comes of it but an answer by which nothing has changed. -/
theorem transition_repeated (ids : IdSource) (clock : Timestamp) (policy : RetryPolicy)
    (steps : List Step) {s : Session} (hreached : s = (start ids clock policy).run steps)
    {r : RelationRequest} (hok : (s.perform (.transition r)).1.isOk = true)
    (hmanages : (s.perform (.transition r)).2.committed.manages r.actor r.parent s.clock =
      s.committed.manages r.actor r.parent s.clock) :
    ∃ again, (∀ result ∈ again.results, result.changed = false) ∧
      (s.perform (.transition r)).2.perform (.transition r) =
        (.ok (.transition again), (s.perform (.transition r)).2) := by
  have hs : s.Idle := hreached ▸ idle_run (idle_start ids clock policy) steps
  have hdone : s.committed.AllDone := hreached ▸ Store.allDone_run ids clock policy steps
  have hcoherent : s.committed.Coherent := hreached ▸ Store.coherent_run ids clock policy steps
  obtain ⟨reply, hout⟩ := outcome_of_isOk hok
  obtain ⟨outcome, hrequest, -⟩ := Reply.onSuccess_eq_ok.1 hout
  obtain ⟨again, hunchanged, hagain⟩ :=
    Store.request_again hrequest (Store.allDone_call hdone hcoherent hout) hmanages
  have hclock := clock_step_call hs (.transition r)
  have hs' := idle_step hs (.call (.transition r))
  rw [Session.step] at hclock hs'
  rw [← hclock] at hagain
  refine ⟨again, hunchanged, perform_of_run_eq hs' ?_⟩
  rw [Call.run, hagain]
  rfl

/-- A class with a manager, which a user has asked to join. -/
def askedClass : List Step :=
  [ .call (.createGroup 1 ⟨"", .user, true, none, none, none⟩),
    .call (.createGroup 2 ⟨"", .user, true, none, none, none⟩),
    .call (.createGroup 3 ⟨"", .user, true, none, none, none⟩),
    .call (.createGroup 5 ⟨"", .classroom, true, none, none, none⟩),
    .call (.setManager 5 3),
    .call (.transition ⟨5, [1], .userCreatesJoinRequest, 1, none, none, false⟩) ]

/-- The manager invites that user, who thereby joins, and another one, and lists the first twice. -/
def invitesTwice : RelationRequest :=
  ⟨5, [1, 2, 1], .adminCreatesInvitation, 3, some "guest", some ⟨9⟩, false⟩

theorem transition_repeated_invitesTwice :
    (((start (.ofList [7]) .zero .standard).run askedClass).perform
        (.transition invitesTwice)).2.committed ≠
      ((start (.ofList [7]) .zero .standard).run askedClass).committed ∧
    ((((start (.ofList [7]) .zero .standard).run askedClass).perform
        (.transition invitesTwice)).2.perform (.transition invitesTwice)).2 =
      (((start (.ofList [7]) .zero .standard).run askedClass).perform
        (.transition invitesTwice)).2 := by
  obtain ⟨again, -, hagain⟩ := transition_repeated (.ofList [7]) .zero .standard askedClass rfl
    (r := invitesTwice) (by decide +kernel) (by decide +kernel)
  exact ⟨by decide +kernel, by rw [hagain]⟩

end Session

end Courseware
