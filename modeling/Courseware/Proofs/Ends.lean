import Courseware.Proofs.Ancestry

/-!
# Recorded ends throughout a run

A transition that leaves the same memberships active may still write new ends, and the closure is
not recomputed then. So what is recorded about ancestors is exact throughout a run if and only if
each of these transitions leaves the widest walks as they were (`closureExact_run_iff`); it is if
these transitions set no new ends.
-/

namespace Courseware

/-- Actions that keep an active membership and write it down again. -/
def Action.rewritesActive : Action → Bool
  | .userCreatesLeaveRequest | .userCancelsLeaveRequest | .adminRefusesLeaveRequest => true
  | _ => false

theorem rewritesActive_of_nextState {action : Action} {current : MembershipState}
    {leaveRequested : Bool} (h : nextState action current = .apply .active leaveRequested)
    (hactive : current.isActive = true) : action.rewritesActive = true := by
  obtain ⟨old, requested⟩ := current
  obtain rfl : old = some .active := of_decide_eq_true hactive
  cases action <;> cases requested <;> simp_all [nextState, Action.rewritesActive]

namespace Store

open Network

variable {s s' : Store} {group : Group} {r : RelationRequest} {action : Action} {now : Timestamp}

theorem ClosureExact.insertGroup (hs : s.ClosureExact) (hcoherent : s.Coherent) {id : GroupId}
    {group : Group} (hinsert : s.insertGroup id group = .ok s') : s'.ClosureExact := by
  refine ⟨hs.toRecordsWalks.insertGroup hcoherent hinsert, fun a d row hrow => ?_⟩
  obtain ⟨-, hmemberships, hancestors⟩ := ancestors_insertGroup hs.toRecordsWalks hinsert
  have hnetwork : s'.activeNetwork = s.activeNetwork := by rw [activeNetwork, hmemberships]; rfl
  rw [hancestors, Table.get?_insert] at hrow
  rw [hnetwork]
  split at hrow
  · rename_i heq
    obtain ⟨rfl, rfl⟩ := Prod.mk.inj heq
    obtain rfl := Option.some.inj hrow
    exact Widest.self id
  · exact hs.expiry a d row hrow

theorem closureExact_empty : Store.empty.ClosureExact :=
  closureExact_iff.2 rfl

/-- With the same records, ends stay exact as long as the widest walks do. -/
theorem ClosureExact.of_widest (hs : s.ClosureExact) (hwalks : s'.RecordsWalks)
    (hancestors : s'.ancestors = s.ancestors)
    (hwidest : ∀ a d e, Widest s.activeNetwork a d e → Widest s'.activeNetwork a d e) :
    s'.ClosureExact := by
  refine ⟨hwalks, fun a d row hrow => hwidest a d _ ?_⟩
  rw [hancestors] at hrow
  exact hs.expiry a d row hrow

/-- With the same records, the widest walks are the same if ends are exact before and after. -/
theorem ClosureExact.widest_of_eq (hs : s.ClosureExact) (hs' : s'.ClosureExact)
    (hcoherent : s.Coherent) (hancestors : s'.ancestors = s.ancestors) {a d : GroupId} {e : Expiry}
    (hwide : Widest s.activeNetwork a d e) : Widest s'.activeNetwork a d e := by
  cases hgroup : s.groups.contains a with
  | false =>
    obtain ⟨rfl, rfl⟩ := hcoherent.walk_eq hwide.1 hgroup
    exact Widest.self a
  | true =>
    obtain ⟨row, hrow⟩ := Table.contains_iff.1 ((hs.contains_iff a d).2 ⟨hgroup, e, hwide.1⟩)
    rw [hwide.unique (hs.expiry a d row hrow)]
    rw [← hancestors] at hrow
    exact hs'.expiry a d row hrow

/-! ### Transitions that set no new ends -/

/-- Such an action is carried out as it was asked for. -/
theorem action_eq_of_rewritesActive {manages : Bool}
    (h : admittedAction group r manages now = .ok action)
    (hrewrites : action.rewritesActive = true ∨ r.action.rewritesActive = true) :
    action = r.action := by
  refine (admittedAction_eq_ok h).1.resolve_right ?_
  rintro ⟨hasked, hdone⟩
  rw [hasked, hdone] at hrewrites
  exact absurd hrewrites (by decide)

theorem activeNetwork_moveChild {child : GroupId} {result : TransitionResult}
    (hterms : action.rewritesActive = true → r.expiresAt = none)
    (h : s.moveChild group r action child now = .ok ((result, false), s')) :
    s'.activeNetwork = s.activeNetwork := by
  rcases moveChild_eq_ok h with
    ⟨-, -, rfl⟩ | ⟨standing, requested, approval, id, hnext, -, hput, hflip, -⟩
  · rfl
  · obtain ⟨-, -, rfl⟩ := putMembership_eq_ok hput
    have hstay : decide (standing = .active) =
        (MembershipState.ofMembership (s.memberships.get? (r.parent, child))).isActive := by
      by_contra hne
      exact absurd hflip (by simp [hne])
    refine Table.ext_get? fun k => Option.ext fun e => ?_
    rw [get?_activeNetwork, get?_activeNetwork, Table.get?_insert]
    split
    · rename_i heq
      subst heq
      rw [membershipAfter]
      cases hold : s.memberships.get? (r.parent, child) with
      | none =>
        have hno : standing ≠ .active := by
          rw [hold] at hstay
          exact of_decide_eq_false hstay
        simp [founded, hno]
      | some m =>
        have hiff : standing = .active ↔ m.standing = .active := by
          rw [hold] at hstay
          simpa [MembershipState.ofMembership, MembershipState.isActive] using hstay
        by_cases hactive : standing = .active
        · subst hactive
          have hm := hiff.1 rfl
          have hrewrites := rewritesActive_of_nextState hnext (by rw [← hstay]; simp)
          simp [renewed, hterms hrewrites, hm]
        · simp [renewed, hactive, mt hiff.2 hactive]
    · rfl

theorem activeNetwork_moveChildren {children : List GroupId} {results : List TransitionResult}
    (hterms : action.rewritesActive = true → r.expiresAt = none)
    (h : s.moveChildren group r action now children = .ok ((results, false), s')) :
    s'.activeNetwork = s.activeNetwork := by
  induction children generalizing s results with
  | nil =>
    simp only [moveChildren, Except.ok.injEq, Prod.mk.injEq] at h
    rw [h.2]
  | cons child rest ih =>
    obtain ⟨_, flipped, _, flippedLater, t, hone, hrest, hout⟩ := moveChildren_cons_eq_ok h
    obtain ⟨rfl, rfl⟩ : flipped = false ∧ flippedLater = false := by
      simpa using (Prod.mk.inj hout).2
    rw [ih hrest, activeNetwork_moveChild hterms hone]

theorem activeNetwork_request {outcome : TransitionOutcome}
    (hterms : r.action.rewritesActive = true → r.expiresAt = none)
    (hactive : ∀ k, s'.activeNetwork.contains k = s.activeNetwork.contains k)
    (h : s.request r now = .ok (outcome, s')) : s'.activeNetwork = s.activeNetwork := by
  obtain ⟨t, happly, hsettle⟩ := request_eq_ok h
  obtain ⟨gen, rs, rfl⟩ := settleClosure_frame hsettle
  obtain ⟨group, action, results, flipped, u, -, hadmitted, hmoves, hrest⟩ :=
    applyRequest_eq_ok happly
  have hnetwork : t.activeNetwork = u.activeNetwork := by
    rcases hrest with ⟨-, heq⟩ | ⟨-, -, rfl⟩
    · obtain rfl := eq_of_recomputeClosure heq
      rfl
    · rfl
  have hsame : ∀ k, u.activeNetwork.contains k = s.activeNetwork.contains k := fun k =>
    (congrArg (Table.contains · k) hnetwork.symm).trans (hactive k)
  obtain rfl : flipped = false := by
    cases flipped with
    | false => rfl
    | true =>
      obtain ⟨k, hne⟩ := (shifts_moveChildren hmoves).flipped_iff.1 rfl
      exact absurd (hsame k) hne
  exact hnetwork.trans (activeNetwork_moveChildren
    (fun hrewrites => hterms
      (action_eq_of_rewritesActive hadmitted (Or.inl hrewrites) ▸ hrewrites)) hmoves)

end Store

namespace Session

open Network Store

variable {s : Session} {step : Step}

/-- If the step is a transition after which the same memberships are active as before, it leaves the
widest walks as they were. -/
def KeepsEnds (s : Session) (step : Step) : Prop :=
  ∀ r, step = .call (.transition r) →
    (∀ k, (s.step step).committed.activeNetwork.contains k =
      s.committed.activeNetwork.contains k) →
    ∀ a d e, Widest s.committed.activeNetwork a d e →
      Widest (s.step step).committed.activeNetwork a d e

/-- If the step is a transition that keeps active memberships active, it sets no end. -/
def SetsNoEnds (step : Step) : Prop :=
  ∀ r, step = .call (.transition r) → r.action.rewritesActive = true → r.expiresAt = none

theorem closureExact_step (hs : s.Idle) (hcoherent : s.committed.Coherent)
    (hexact : s.committed.ClosureExact) (hkeeps : s.KeepsEnds step) :
    (s.step step).committed.ClosureExact := by
  rcases committed_step hs step with heq | ⟨call, reply, rfl, hrun⟩
  · rwa [heq]
  · have hwalks := hexact.toRecordsWalks.call hcoherent hrun
    rcases ancestors_call hrun with hclosure | ⟨hancestors, -, hmemberships⟩ |
      ⟨id, group, hinsert⟩ | ⟨r, rfl, hancestors, -, hactive⟩
    · exact closureExact_iff.2 hclosure
    · refine hexact.of_widest hwalks hancestors fun a d e hwide => ?_
      rwa [activeNetwork, hmemberships]
    · exact hexact.insertGroup hcoherent hinsert
    · exact hexact.of_widest hwalks hancestors (hkeeps r rfl hactive)

theorem keepsEnds_of_closureExact (hs : s.Idle) (hcoherent : s.committed.Coherent)
    (hexact : s.committed.ClosureExact) (hexact' : (s.step step).committed.ClosureExact) :
    s.KeepsEnds step := by
  rintro r rfl hactive a d e hwide
  rcases committed_step hs (.call (.transition r)) with heq | ⟨call, reply, hcall, hrun⟩
  · rwa [heq]
  · obtain rfl := Step.call.inj hcall
    obtain ⟨outcome, hrequest, -⟩ := Reply.onSuccess_eq_ok.1 hrun
    obtain ⟨-, ⟨⟨k, hne⟩, -⟩ | ⟨-, hancestors⟩⟩ := request_ancestors hrequest
    · exact absurd (hactive k) hne
    · exact hexact.widest_of_eq hexact' hcoherent hancestors hwide

theorem keepsEnds_of_setsNoEnds (hs : s.Idle) (hterms : SetsNoEnds step) : s.KeepsEnds step := by
  rintro r rfl hactive a d e hwide
  rcases committed_step hs (.call (.transition r)) with heq | ⟨call, reply, hcall, hrun⟩
  · rwa [heq]
  · obtain rfl := Step.call.inj hcall
    obtain ⟨outcome, hrequest, -⟩ := Reply.onSuccess_eq_ok.1 hrun
    rwa [activeNetwork_request (hterms r rfl) hactive hrequest]

theorem closureExact_take_iff (hs : s.Idle) (hcoherent : s.committed.Coherent)
    (hexact : s.committed.ClosureExact) (steps : List Step) :
    (∀ n, (s.run (steps.take n)).committed.ClosureExact) ↔ s.Along KeepsEnds steps := by
  induction steps generalizing s with
  | nil =>
    refine ⟨fun _ => trivial, fun _ n => ?_⟩
    rw [List.take_nil]
    exact hexact
  | cons step rest ih =>
    constructor
    · intro hall
      have hstep : (s.step step).committed.ClosureExact := hall 1
      exact ⟨keepsEnds_of_closureExact hs hcoherent hexact hstep,
        (ih (idle_step hs step) (coherent_step hs hcoherent step) hstep).1 fun n => hall (n + 1)⟩
    · rintro ⟨hkeeps, hrest⟩ n
      have hstep := closureExact_step hs hcoherent hexact hkeeps
      cases n with
      | zero => exact hexact
      | succ n =>
        exact (ih (idle_step hs step) (coherent_step hs hcoherent step) hstep).2 hrest n

/-- At every moment of a run there is a record for exactly the groups that walks of active
memberships connect. The recorded ends are the latest ends of these walks at every moment if and
only if every transition after which the same memberships are active leaves those ends alone. -/
theorem closureExact_run_iff (ids : IdSource) (clock : Timestamp) (policy : RetryPolicy)
    (steps : List Step) :
    (∀ n, ((start ids clock policy).run (steps.take n)).committed.RecordsWalks) ∧
      ((∀ n, ((start ids clock policy).run (steps.take n)).committed.ClosureExact) ↔
        (start ids clock policy).Along KeepsEnds steps) :=
  ⟨fun n => recordsWalks_run ids clock policy (steps.take n),
    closureExact_take_iff (idle_start ids clock policy) coherent_empty closureExact_empty steps⟩

theorem closureExact_of_setsNoEnds (hs : s.Idle) (hcoherent : s.committed.Coherent)
    (hexact : s.committed.ClosureExact) {steps : List Step}
    (hterms : ∀ step ∈ steps, SetsNoEnds step) : (s.run steps).committed.ClosureExact := by
  induction steps generalizing s with
  | nil => exact hexact
  | cons step rest ih =>
    exact ih (idle_step hs step) (coherent_step hs hcoherent step)
      (closureExact_step hs hcoherent hexact
        (keepsEnds_of_setsNoEnds hs (hterms step List.mem_cons_self)))
      fun later hlater => hterms later (List.mem_cons_of_mem _ hlater)

/-! ### A request to leave that sets an end -/

/-- A group with one member, who asks to leave with an end to the membership. -/
def staleEnd : List Step :=
  let plain : Group := ⟨"", .other, true, none, none, none⟩
  [ .call (.createGroup 1 plain),
    .call (.createGroup 2 plain),
    .call (.createRelation 1 2 .unset),
    .call (.transition ⟨1, [2], .userCreatesLeaveRequest, 2, none, some ⟨5000⟩, false⟩) ]

theorem staleEnd_not_closureExact :
    ¬ ((start (.ofList []) .zero .standard).run staleEnd).committed.ClosureExact := by
  rw [closureExact_iff]
  decide +kernel

end Session

end Courseware
