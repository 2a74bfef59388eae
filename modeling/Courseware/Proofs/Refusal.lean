import Courseware.Proofs.Acyclic
import Courseware.Proofs.Rounds

/-!
# Which relations are refused

A relation between stored groups is refused for a cycle if and only if it would close one. So is a
request: at the first child that it would make a member, all other checks on it passed, and from
which at that moment a walk of active memberships leads to the group (`hierarchy_run`). Settling
what a change touches fails for other reasons only.
-/

namespace Courseware

/-- The fault is not that a relation would close a cycle. -/
def Fault.Unlooped (fault : Fault) : Prop := ∀ parent child, fault ≠ .relationCycle parent child

theorem Fault.unlooped_ofStore (fault : StoreFault) : (Fault.ofStore fault).Unlooped := by
  intro parent child
  cases fault <;> simp [Fault.ofStore]

namespace Store

open Network

variable {s s' t : Store} {now : Timestamp}

/-! ### Settling -/

theorem unlooped_settleClosure (s : Store) (change : ClosureChange) (now : Timestamp) :
    FailsFor Fault.Unlooped (s.settleClosure change now) :=
  (failsFor_settlePairs Fault.unlooped_ofStore (by simp [Fault.Unlooped]) _ _ now).bind
    fun _ _ => failsFor_ok _

/-! ### Requests -/

section Requests

variable {group : Group} {r : RelationRequest} {action : Action} {child : GroupId}

/-- The action leads to a new active membership of a child, and all checks on the child other than
the one for cycles have passed. -/
structure WouldJoin (s : Store) (group : Group) (r : RelationRequest) (action : Action)
    (child : GroupId) (now : Timestamp) : Prop where
  inactive : s.activeNetwork.contains (r.parent, child) = false
  activates : ∃ leaveRequested,
    nextState action (.ofMembership (s.memberships.get? (r.parent, child))) =
      .apply .active leaveRequested
  noOtherTeam : s.ensureNoOtherTeam group r child now = .ok ()
  approved : ∃ approval, requiredApproval group r action
    ((s.memberships.get? (r.parent, child)).any (·.lockApproved)) now = .ok approval

/-- Requests to leave begin no membership. -/
theorem not_isLeaveRequest_of_nextState {current : MembershipState} {leaveRequested : Bool}
    (hinactive : current.isActive = false)
    (h : nextState action current = .apply .active leaveRequested) :
    action.isLeaveRequest = false := by
  rw [← Bool.not_eq_true]
  intro hrequest
  have hactive := (isActive_of_isLeaveRequest hrequest h).1
  rw [hinactive] at hactive
  simp at hactive

/-- A move is refused for a cycle if the check for cycles refuses it, which is made when all others
have passed. -/
theorem moveChild_eq_relationCycle {a b : GroupId} :
    s.moveChild group r action child now = .error (.relationCycle a b) ↔
      s.WouldJoin group r action child now ∧
        s.ensureNoCycle r.parent child = .error (.relationCycle a b) := by
  have hconflict : ∀ conflict, (Fault.unprocessable conflict).Unlooped := by simp [Fault.Unlooped]
  constructor
  · intro h
    rw [moveChild] at h
    simp only at h
    split at h
    · rcases bind_eq_error.1 h with hfault | ⟨_, hfault, -⟩ <;> simp at hfault
    split at h
    · simp [pure, Except.pure] at h
    · simp [pure, Except.pure] at h
    · rename_i standing leaveRequested hnext
      by_cases hjoins : standing = .active ∧
          (MembershipState.ofMembership (s.memberships.get? (r.parent, child))).isActive = false
      · obtain ⟨rfl, hinactive⟩ := hjoins
        simp only [hinactive, decide_true, Bool.not_false, Bool.and_true, Bool.true_or,
          if_true] at h
        rcases bind_eq_error.1 h with hfault | ⟨_, hteam, h⟩
        · exact absurd rfl (failsFor_ensureNoOtherTeam hconflict _ _ _ _ _ _ hfault a b)
        rcases bind_eq_error.1 h with hfault | ⟨approval, happroval, h⟩
        · exact absurd rfl (failsFor_requiredApproval hconflict _ _ _ _ _ _ hfault a b)
        rcases bind_eq_error.1 h with hfault | ⟨_, -, h⟩
        · rw [← contains_activeNetwork_eq] at hinactive
          exact ⟨⟨hinactive, ⟨leaveRequested, hnext⟩, hteam, approval, happroval⟩, hfault⟩
        · rcases bind_eq_error.1 h with hfault | ⟨_, -, h⟩
          · exact absurd rfl (failsFor_lift Fault.unlooped_ofStore _ _ hfault a b)
          · simp [pure, Except.pure] at h
      · -- Cycles are not looked for.
        have hstays : (decide (standing = .active) && !(MembershipState.ofMembership
            (s.memberships.get? (r.parent, child))).isActive) = false := by
          simpa using hjoins
        simp only [hstays, Bool.false_or, Bool.false_eq_true, if_false] at h
        split at h
        · rcases bind_eq_error.1 h with hfault | ⟨_, -, h⟩
          · exact absurd rfl (failsFor_ensureNoOtherTeam hconflict _ _ _ _ _ _ hfault a b)
          rcases bind_eq_error.1 h with hfault | ⟨_, -, h⟩
          · exact absurd rfl (failsFor_requiredApproval hconflict _ _ _ _ _ _ hfault a b)
          rcases bind_eq_error.1 h with hfault | ⟨_, -, h⟩
          · exact absurd rfl (failsFor_lift Fault.unlooped_ofStore _ _ hfault a b)
          · simp [pure, Except.pure] at h
        · rcases bind_eq_error.1 h with hfault | ⟨_, -, h⟩
          · simp at hfault
          rcases bind_eq_error.1 h with hfault | ⟨_, -, h⟩
          · exact absurd rfl (failsFor_lift Fault.unlooped_ofStore _ _ hfault a b)
          · simp [pure, Except.pure] at h
  · intro h
    obtain ⟨⟨hinactive, ⟨leaveRequested, hnext⟩, hteam, approval, happroval⟩, hcycle⟩ := h
    rw [contains_activeNetwork_eq] at hinactive
    rw [moveChild]
    simp [not_isLeaveRequest_of_nextState hinactive hnext, hnext, hinactive, hteam, happroval,
      hcycle, Bind.bind, Except.bind]

/-- The moves of a request fail with the first of them that does. -/
theorem moveChildren_eq_error {children : List GroupId} {fault : Fault} :
    s.moveChildren group r action now children = .error fault ↔
      ∃ before child after out t, children = before ++ child :: after ∧
        s.moveChildren group r action now before = .ok (out, t) ∧
        t.moveChild group r action child now = .error fault := by
  induction children generalizing s with
  | nil => simp [moveChildren]
  | cons first rest ih =>
    constructor
    · intro h
      rw [moveChildren] at h
      rcases bind_eq_error.1 h with hfault | ⟨⟨⟨result, flipped⟩, u⟩, hone, h⟩
      · exact ⟨[], first, rest, _, s, rfl, rfl, hfault⟩
      · rcases bind_eq_error.1 h with hfault | ⟨_, -, h⟩
        · obtain ⟨before, child, after, ⟨results, flippedLater⟩, t, rfl, hmoves, hfault⟩ :=
            ih.1 hfault
          refine ⟨first :: before, child, after, (result :: results, flipped || flippedLater), t,
            rfl, ?_, hfault⟩
          rw [moveChildren]
          exact bind_eq_ok.2 ⟨_, hone, bind_eq_ok.2 ⟨_, hmoves, rfl⟩⟩
        · simp [pure, Except.pure] at h
    · intro h
      obtain ⟨before, child, after, out, t, heq, hmoves, hfault⟩ := h
      rw [moveChildren]
      cases before with
      | nil =>
        obtain ⟨rfl, rfl⟩ := List.cons.inj heq
        simp only [moveChildren, Except.ok.injEq, Prod.mk.injEq] at hmoves
        rw [← hmoves.2] at hfault
        exact bind_eq_error.2 (Or.inl hfault)
      | cons first' before =>
        obtain ⟨rfl, rfl⟩ := List.cons.inj heq
        obtain ⟨result, flipped, results, flippedLater, u, hone, hrest, -⟩ :=
          moveChildren_cons_eq_ok hmoves
        refine bind_eq_error.2 (Or.inr ⟨_, hone, bind_eq_error.2 (Or.inl ?_)⟩)
        exact ih.2 ⟨before, child, after, _, t, rfl, hrest, hfault⟩

/-- At the turn of a child the request would make it a member, all other checks on it passed, and
that would close a cycle. The turns before it succeeded, and their new members count. -/
def MeetsCycle (s : Store) (r : RelationRequest) (child : GroupId) (now : Timestamp) : Prop :=
  ∃ group action before after out t,
    s.groups.get? r.parent = some group ∧
      admittedAction group r (s.manages r.actor r.parent now) now = .ok action ∧
      r.children = before ++ child :: after ∧
      s.moveChildren group r action now before = .ok (out, t) ∧
      t.WouldJoin group r action child now ∧ t.ClosesCycle r.parent child

theorem WouldJoin.keeps (h : s.WouldJoin group r action child now) :
    action.endsMembership = false := by
  obtain ⟨leaveRequested, hnext⟩ := h.activates
  have hinactive := h.inactive
  rw [contains_activeNetwork_eq] at hinactive
  rw [← isActive_of_nextState hnext (by rw [hinactive]; simp), hinactive]

theorem moveChildren_eq_relationCycle (hknows : s.KnowsAbove r.parent) {children : List GroupId}
    {a b : GroupId} :
    s.moveChildren group r action now children = .error (.relationCycle a b) ↔
      a = r.parent ∧ ∃ before after out t, children = before ++ b :: after ∧
        s.moveChildren group r action now before = .ok (out, t) ∧
        t.WouldJoin group r action b now ∧ t.ClosesCycle r.parent b := by
  rw [moveChildren_eq_error]
  constructor
  · intro h
    obtain ⟨before, child, after, out, t, heq, hmoves, hfault⟩ := h
    obtain ⟨hjoin, hcycle⟩ := moveChild_eq_relationCycle.1 hfault
    obtain ⟨hsame, hcloses⟩ := (hknows.moveChildren hjoin.keeps hmoves).ensureNoCycle_eq_error.1 hcycle
    obtain ⟨rfl, rfl⟩ := Fault.relationCycle.inj hsame
    exact ⟨rfl, before, after, out, t, heq, hmoves, hjoin, hcloses⟩
  · intro h
    obtain ⟨rfl, before, after, out, t, heq, hmoves, hjoin, hcloses⟩ := h
    refine ⟨before, b, after, out, t, heq, hmoves, moveChild_eq_relationCycle.2 ⟨hjoin, ?_⟩⟩
    exact (hknows.moveChildren hjoin.keeps hmoves).ensureNoCycle_eq_error.2 ⟨rfl, hcloses⟩

theorem request_eq_relationCycle (hrecords : s.RecordsWalks) (hcoherent : s.Coherent)
    {a b : GroupId} :
    s.request r now = .error (.relationCycle a b) ↔ a = r.parent ∧ s.MeetsCycle r b now := by
  have happly : s.request r now = .error (.relationCycle a b) ↔
      ∃ group action, s.groups.get? r.parent = some group ∧
        admittedAction group r (s.manages r.actor r.parent now) now = .ok action ∧
        s.moveChildren group r action now r.children = .error (.relationCycle a b) := by
    constructor
    · intro h
      rw [request] at h
      rcases bind_eq_error.1 h with h | ⟨⟨outcome, t⟩, -, h⟩
      · rw [applyRequest] at h
        split at h
        · rename_i group hget
          rcases bind_eq_error.1 h with hfault | ⟨_, hgroup, h⟩
          · simp at hfault
          obtain rfl := Except.ok.inj hgroup
          rcases bind_eq_error.1 h with hfault | ⟨action, haction, h⟩
          · have hother : (Fault.relationCycle a b).Unlooped :=
              failsFor_admittedAction (by simp [Fault.Unlooped]) (by simp [Fault.Unlooped]) _ _ _ _ _
                hfault
            exact absurd rfl (hother a b)
          rcases bind_eq_error.1 h with hfault | ⟨⟨⟨results, flipped⟩, t⟩, -, h⟩
          · exact ⟨group, action, hget, haction, hfault⟩
          · cases flipped <;> simp [pure, Except.pure] at h
        · rcases bind_eq_error.1 h with hfault | ⟨_, hfault, -⟩
          · split at hfault <;> simp at hfault
          · simp at hfault
      · rcases bind_eq_error.1 h with hfault | ⟨_, -, h⟩
        · exact absurd rfl (unlooped_settleClosure _ _ _ _ hfault a b)
        · simp [pure, Except.pure] at h
    · intro h
      obtain ⟨group, action, hget, haction, hfault⟩ := h
      rw [request, applyRequest, hget]
      refine bind_eq_error.2 (Or.inl ?_)
      exact bind_eq_error.2 (Or.inr ⟨group, rfl, bind_eq_error.2 (Or.inr ⟨action, haction,
        bind_eq_error.2 (Or.inl hfault)⟩)⟩)
  rw [happly]
  constructor
  · intro h
    obtain ⟨group, action, hget, haction, hfault⟩ := h
    have hknows := hrecords.knowsAbove hcoherent (Table.contains_of_get? hget)
    obtain ⟨hparent, before, after, out, t, heq, hrest⟩ :=
      (moveChildren_eq_relationCycle hknows).1 hfault
    exact ⟨hparent, group, action, before, after, out, t, hget, haction, heq, hrest⟩
  · intro h
    obtain ⟨hparent, group, action, before, after, out, t, hget, haction, heq, hrest⟩ := h
    have hknows := hrecords.knowsAbove hcoherent (Table.contains_of_get? hget)
    exact ⟨group, action, hget, haction,
      (moveChildren_eq_relationCycle hknows).2 ⟨hparent, before, after, out, t, heq, hrest⟩⟩

end Requests

/-! ### Relations -/

theorem requireGroup_eq_error {id : GroupId} {a b : GroupId} :
    s.requireGroup id ≠ .error (.relationCycle a b) := by
  rw [requireGroup]
  split <;> simp

theorem relate_eq_relationCycle (hrecords : s.RecordsWalks) (hcoherent : s.Coherent)
    {parent child : GroupId} {terms : MembershipTerms} {a b : GroupId} :
    s.relate parent child terms now = .error (.relationCycle a b) ↔
      (a = parent ∧ b = child) ∧ s.groups.contains parent = true ∧
        s.groups.contains child = true ∧ s.ClosesCycle parent child := by
  constructor
  · intro h
    rw [relate] at h
    rcases bind_eq_error.1 h with hfault | ⟨_, hparent, h⟩
    · exact absurd hfault requireGroup_eq_error
    rcases bind_eq_error.1 h with hfault | ⟨_, hchild, h⟩
    · exact absurd hfault requireGroup_eq_error
    have hparent := requireGroup_eq_ok hparent
    have hchild := requireGroup_eq_ok hchild
    rcases bind_eq_error.1 h with h | ⟨⟨change, t⟩, -, h⟩
    · rw [createRelation] at h
      rcases bind_eq_error.1 h with hcycle | ⟨_, -, h⟩
      · obtain ⟨hsame, hcloses⟩ :=
          (hrecords.knowsAbove hcoherent hparent).ensureNoCycle_eq_error.1 hcycle
        exact ⟨Fault.relationCycle.inj hsame, hparent, hchild, hcloses⟩
      · rcases bind_eq_error.1 h with hfault | ⟨_, -, h⟩
        · exact absurd rfl (failsFor_lift Fault.unlooped_ofStore _ _ hfault a b)
        · simp [pure, Except.pure] at h
    · rcases bind_eq_error.1 h with hfault | ⟨_, -, h⟩
      · exact absurd rfl (unlooped_settleClosure _ _ _ _ hfault a b)
      · simp [pure, Except.pure] at h
  · intro h
    obtain ⟨⟨rfl, rfl⟩, hparent, hchild, hcloses⟩ := h
    have hcycle := (hrecords.knowsAbove hcoherent hparent).ensureNoCycle_eq_error.2 ⟨rfl, hcloses⟩
    have hfound : ∀ id, s.groups.contains id = true → s.requireGroup id = .ok () := by
      intro id hid
      rw [requireGroup, if_pos hid]
    rw [relate]
    exact bind_eq_error.2 (Or.inr ⟨_, hfound _ hparent, bind_eq_error.2 (Or.inr ⟨_, hfound _ hchild,
      bind_eq_error.2 (Or.inl (bind_eq_error.2 (Or.inl hcycle)))⟩)⟩)

end Store

namespace Session

open Store

/-- Whether a step looks for cycles if it makes a relation. -/
def Step.looksForCycles : Step → Bool
  | .call c => c.looksForCycles
  | _ => true

theorem groupsAcyclic_run (ids : IdSource) (clock : Timestamp) (policy : RetryPolicy)
    {steps : List Step} (hsteps : ∀ step ∈ steps, step.looksForCycles = true) :
    ((start ids clock policy).run steps).committed.GroupsAcyclic := by
  have hrun := run_induction
    (I := fun s => s.committed.GroupsAcyclic ∧ s.committed.RecordsWalks ∧ s.committed.Coherent)
    (p := fun _ step => step.looksForCycles = true) ?_ (idle_start ids clock policy)
    ⟨?_, recordsWalks_empty, coherent_empty⟩ (along_of_forall (fun step hstep _ => hsteps step hstep) _)
  · exact hrun.1
  · intro s step hs hI hlooks
    obtain ⟨hacyclic, hrecords, hcoherent⟩ := hI
    rcases committed_step hs step with heq | ⟨call, reply, rfl, hcall⟩
    · rw [heq]
      exact ⟨hacyclic, hrecords, hcoherent⟩
    · exact ⟨hacyclic.call hrecords hcoherent hlooks hcall, hrecords.call hcoherent hcall,
        hcoherent.call hcall⟩
  · intro parent child e hlink
    obtain ⟨m, hm, -⟩ := contains_activeNetwork.1 hlink
    simp [start, Store.empty] at hm

/-- Throughout a run whose steps look for cycles, active memberships form none, whether or not they
have ended. In every store that a run commits, a new relation between stored groups is refused for
a cycle if and only if it would close one, and a request if and only if at the turn of some child it
would make it a member and so close a cycle with the memberships that there are then. -/
theorem hierarchy_run (ids : IdSource) (clock : Timestamp) (policy : RetryPolicy)
    (steps : List Step) :
    ((∀ step ∈ steps, step.looksForCycles = true) →
        ((start ids clock policy).run steps).committed.GroupsAcyclic) ∧
      (∀ parent child terms a b,
        (((start ids clock policy).run steps).perform (.createRelation parent child terms)).1 =
            .error (.relationCycle a b) ↔
          (a = parent ∧ b = child) ∧
            ((start ids clock policy).run steps).committed.groups.contains parent = true ∧
            ((start ids clock policy).run steps).committed.groups.contains child = true ∧
            ((start ids clock policy).run steps).committed.ClosesCycle parent child) ∧
      ∀ r a b,
        (((start ids clock policy).run steps).perform (.transition r)).1 =
            .error (.relationCycle a b) ↔
          a = r.parent ∧ ((start ids clock policy).run steps).committed.MeetsCycle r b
            ((start ids clock policy).run steps).clock := by
  have hs := idle_run (idle_start ids clock policy) steps
  have hrecords := recordsWalks_run ids clock policy steps
  have hcoherent := coherent_run ids clock policy steps
  refine ⟨groupsAcyclic_run ids clock policy, fun parent child terms a b => ?_, fun r a b => ?_⟩
  · rw [perform_eq_error hs]
    exact Reply.onSuccess_eq_error.trans (relate_eq_relationCycle hrecords hcoherent)
  · rw [perform_eq_error hs]
    exact Reply.onSuccess_eq_error.trans (request_eq_relationCycle hrecords hcoherent)

/-- Three groups one below the other, and a manager of the lowest. -/
def chain : List Step :=
  let plain : Group := ⟨"", .other, true, none, none, none⟩
  [ .call (.createGroup 1 plain),
    .call (.createGroup 2 plain),
    .call (.createGroup 3 plain),
    .call (.createGroup 4 { plain with kind := .user }),
    .call (.createGroup 5 { plain with kind := .user }),
    .call (.createRelation 1 2 .unset),
    .call (.createRelation 2 3 .unset),
    .call (.setManager 3 5) ]

/-- To put the highest below the lowest would close a cycle, also along with somebody else. -/
theorem hierarchy_chain :
    ((start (.ofList []) .zero .standard).run chain).committed.GroupsAcyclic ∧
      ((start (.ofList []) .zero .standard).run chain).committed.ClosesCycle 3 1 ∧
      ((start (.ofList []) .zero .standard).run chain).committed.MeetsCycle
        ⟨3, [4, 1], .userCreatesAcceptedJoinRequest, 5, none, none, false⟩ 1 .zero := by
  obtain ⟨hacyclic, hrelate, hrequest⟩ := hierarchy_run (.ofList []) .zero .standard chain
  have hrelation : (((start (.ofList []) .zero .standard).run chain).perform
      (.createRelation 3 1 .unset)).1 = .error (.relationCycle 3 1) := by decide +kernel
  have htransition : (((start (.ofList []) .zero .standard).run chain).perform
      (.transition ⟨3, [4, 1], .userCreatesAcceptedJoinRequest, 5, none, none, false⟩)).1 =
        .error (.relationCycle 3 1) := by decide +kernel
  exact ⟨hacyclic (by decide), ((hrelate _ _ _ _ _).1 hrelation).2.2.2,
    ((hrequest _ _ _).1 htransition).2⟩

end Session

end Courseware
