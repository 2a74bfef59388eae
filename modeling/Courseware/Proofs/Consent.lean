import Courseware.Proofs.Memberships

/-!
# A membership takes both sides

Who is a member of a group has asked for it or accepted an invitation, and a manager has invited or
let in; a manager who asks to join does both at once. Each standing tells which sides have agreed
(`Side.agreedIn`), and a side that had not agreed before has acted (`Side.takes_of_nextState`). So
between a time when nobody is or may become a member and a time when the membership is active, both
sides have acted (`both_act_run`).
-/

namespace Courseware

/-- Whether nothing is asked for and nothing is in force. -/
def Standing.isResting : Standing → Bool
  | .left | .invitationRefused | .requestRefused => true
  | .invitationSent | .requestSent | .active => false

/-- Those who have to agree before somebody is a member. -/
inductive Side where
  | manager | user

namespace Side

/-- Whether the side has agreed where a membership stands like this. -/
def agreedIn : Side → Standing → Bool
  | _, .active => true
  | manager, .invitationSent => true
  | user, .requestSent => true
  | _, _ => false

/-- Whether it is for the side to do this; a join request that is accepted at once is for both. -/
def takes : Side → Action → Bool
  | manager, action => action.isAdmin || decide (action = .userCreatesAcceptedJoinRequest)
  | user, action => !action.isAdmin

/-- A side has agreed by what it did or has done so before. -/
theorem takes_of_nextState (side : Side) {action : Action} {current : MembershipState}
    {standing : Standing} {leaveRequested : Bool}
    (h : nextState action current = .apply standing leaveRequested)
    (hagreed : side.agreedIn standing = true) :
    side.takes action = true ∨ current.standing.any side.agreedIn = true := by
  obtain ⟨old, requested⟩ := current
  cases action <;> rcases old with _ | ⟨_ | _⟩ <;> cases requested <;>
    simp only [nextState, Transition.apply.injEq, reduceCtorEq] at h <;> obtain ⟨rfl, -⟩ := h <;>
    cases side <;> simp_all [agreedIn, takes, Action.isAdmin]

theorem not_agreedIn_of_isResting (side : Side) {standing : Standing}
    (h : standing.isResting = true) : side.agreedIn standing = false := by
  cases side <;> cases standing <;> simp_all [Standing.isResting, agreedIn]

end Side

namespace Store

variable {s s' : Store} {side : Side} {parent child : GroupId} {now : Timestamp}

/-- Whether there is a membership to which the side has agreed. -/
def agreed (s : Store) (side : Side) (parent child : GroupId) : Bool :=
  (s.memberships.get? (parent, child)).any fun m => side.agreedIn m.standing

theorem agreed_congr {t : Store}
    (h : t.memberships.get? (parent, child) = s.memberships.get? (parent, child)) :
    t.agreed side parent child = s.agreed side parent child := by
  rw [agreed, h, agreed]

theorem KeepsMembership.agreed (hkeeps : KeepsMembership s s' parent child)
    (h : s'.agreed side parent child = true) : s.agreed side parent child = true := by
  obtain ⟨m, hm, hagreed⟩ := Option.any_eq_true .. |>.1 h
  rw [Store.agreed, (hkeeps m hm).1]
  exact hagreed

section Moves

variable {group : Group} {r : RelationRequest} {action : Action}

theorem agreed_moveChild {first : GroupId} {out : TransitionResult × Bool}
    (h : s.moveChild group r action first now = .ok (out, s'))
    (hagreed : s'.agreed side r.parent child = true) :
    side.takes action = true ∨ s.agreed side r.parent child = true := by
  by_cases hfirst : first = child
  · subst hfirst
    obtain ⟨result, flipped⟩ := out
    rcases moveChild_eq_ok h with ⟨-, -, rfl⟩ | ⟨standing, requested, approval, id, hnext, -, hput, -⟩
    · exact Or.inr hagreed
    · obtain ⟨-, -, rfl⟩ := putMembership_eq_ok hput
      rw [agreed, Table.get?_insert_self, Option.any_some, standing_membershipAfter] at hagreed
      refine (side.takes_of_nextState hnext hagreed).imp_right fun hbefore => ?_
      rw [agreed]
      cases hold : s.memberships.get? (r.parent, first) with
      | none =>
        rw [hold] at hbefore
        exact hbefore
      | some m =>
        rw [hold] at hbefore
        exact hbefore
  · rw [agreed_congr (get?_moveChild_of_ne (by simpa using hfirst) h)] at hagreed
    exact Or.inr hagreed

theorem agreed_moveChildren {children : List GroupId} {out : List TransitionResult × Bool}
    (h : s.moveChildren group r action now children = .ok (out, s'))
    (hagreed : s'.agreed side r.parent child = true) :
    side.takes action = true ∨ s.agreed side r.parent child = true :=
  moveChildren_keeps
    (P := fun t => t.agreed side r.parent child = true →
      side.takes action = true ∨ s.agreed side r.parent child = true)
    (fun _ _ _ _ _ hbefore hone hafter =>
      (agreed_moveChild hone hafter).elim Or.inl hbefore) Or.inr h hagreed

end Moves

theorem agreed_request {r : RelationRequest} {outcome : TransitionOutcome}
    (h : s.request r now = .ok (outcome, s')) (hagreed : s'.agreed side r.parent child = true) :
    (∃ group action, admittedAction group r (s.manages r.actor r.parent now) now = .ok action ∧
        side.takes action = true) ∨ s.agreed side r.parent child = true := by
  obtain ⟨group, action, out, t, -, hadmitted, hmoves, hmemberships⟩ := moves_of_request h
  have hsame : s'.agreed side r.parent child = t.agreed side r.parent child :=
    agreed_congr (by rw [hmemberships])
  rw [hsame] at hagreed
  exact (agreed_moveChildren hmoves hagreed).imp_left fun htakes =>
    ⟨group, action, hadmitted, htakes⟩

end Store

namespace Session

open Store

variable {s : Session} {step : Step} {side : Side} {parent child : GroupId}

/-- The step is a successful request about `child` in `parent` of the kind that it takes for a side
to agree: managers of the group administrate, or ask to join and are let in; users do whatever is not
administration. -/
def Acts (parent child : GroupId) (side : Side) (s : Session) (step : Step) : Prop :=
  ∃ r, s.Requests parent child step r ∧
    match side with
    | .manager => s.committed.manages r.actor parent s.clock = true ∧
        (r.action.isAdmin = true ∨ r.action.isJoinRequest = true)
    | .user => r.action.isAdmin = false

theorem acts_of_takes {r : RelationRequest} {group : Group} {action : Action}
    (hrequests : s.Requests parent child step r)
    (hadmitted : admittedAction group r (s.committed.manages r.actor r.parent s.clock) s.clock =
      .ok action) (htakes : side.takes action = true) : s.Acts parent child side step := by
  have hasked := (admittedAction_eq_ok hadmitted).1
  refine ⟨r, hrequests, ?_⟩
  cases side with
  | manager =>
    rw [Side.takes, Bool.or_eq_true, decide_eq_true_eq] at htakes
    refine ⟨hrequests.parent ▸ manages_of_admittedAction hadmitted htakes, ?_⟩
    rcases hasked with rfl | ⟨hjoin, -⟩
    · exact htakes.imp_right fun haccepted => by rw [haccepted]; rfl
    · exact Or.inr (by rw [hjoin]; rfl)
  | user =>
    rw [Side.takes, Bool.not_eq_true'] at htakes
    rcases hasked with rfl | ⟨hjoin, -⟩
    · exact htakes
    · rw [hjoin]
      rfl

theorem agreed_step (hs : s.Idle) (hcoherent : s.committed.Coherent)
    (hspares : s.Spares parent child step)
    (hagreed : (s.step step).committed.agreed side parent child = true) :
    s.committed.agreed side parent child = true ∨ s.Acts parent child side step := by
  rcases membership_step hs hcoherent hspares with hkeeps | ⟨r, outcome, hrequests, hrequest⟩
  · exact Or.inl (hkeeps.agreed hagreed)
  · rw [← hrequests.parent] at hagreed
    rcases agreed_request hrequest hagreed with ⟨group, action, hadmitted, htakes⟩ | hbefore
    · exact Or.inr (acts_of_takes hrequests hadmitted htakes)
    · exact Or.inl (hrequests.parent ▸ hbefore)

/-- A side that has agreed at the end of a run and had not before has acted in between. -/
theorem acts_of_agreed_run (hs : s.Idle) (hcoherent : s.committed.Coherent) {steps : List Step}
    (hspares : s.Along (Spares parent child) steps)
    (hbefore : s.committed.agreed side parent child = false)
    (hafter : (s.run steps).committed.agreed side parent child = true) :
    s.Sometime (Acts parent child side) steps := by
  have hacts := (run_history
    (I := fun acted s => s.committed.Coherent ∧
      (s.committed.agreed side parent child = true → acted))
    (p := Acts parent child side) (fun acted s step hs h hspares => ?_) hs False
    ⟨hcoherent, fun h => absurd h (by rw [hbefore]; simp)⟩ hspares).2 hafter
  · exact hacts.resolve_left id
  · obtain ⟨hcoherent, hacted⟩ := h
    exact ⟨coherent_step hs hcoherent step, fun hagreed =>
      (agreed_step hs hcoherent hspares hagreed).imp_left hacted⟩

/-- When a membership is active, then since any time when there was none or it was at rest, as it is
at the start of every run, a manager of the group has acted and the user has. It only matters that
the relation has not been made otherwise. -/
theorem both_act_run (ids : IdSource) (clock : Timestamp) (policy : RetryPolicy)
    {before after : List Step} {parent child : GroupId}
    (hspares : ((start ids clock policy).run before).Along (Spares parent child) after)
    (hrests : (((start ids clock policy).run before).membership? parent child).all
      (·.standing.isResting) = true)
    (hactive : (((start ids clock policy).run (before ++ after)).membership? parent child).any
      (·.isActive) = true) :
    ((start ids clock policy).run before).Sometime (Acts parent child .manager) after ∧
      ((start ids clock policy).run before).Sometime (Acts parent child .user) after := by
  have hs := idle_run (idle_start ids clock policy) before
  have hcoherent := coherent_run ids clock policy before
  rw [run_append] at hactive
  generalize (start ids clock policy).run before = s at *
  rw [membership?_of_idle hs] at hrests
  rw [membership?_of_idle (idle_run hs after)] at hactive
  have hacts : ∀ side, s.Sometime (Acts parent child side) after := by
    intro side
    refine acts_of_agreed_run hs hcoherent hspares ?_ ?_
    · rw [agreed, Option.any_eq_false]
      rw [Option.all_eq_true] at hrests
      exact fun m hm => side.not_agreedIn_of_isResting (hrests m hm)
    · obtain ⟨m, hm, hactive⟩ := Option.any_eq_true .. |>.1 hactive
      rw [agreed, hm, Option.any_some, of_decide_eq_true hactive]
      cases side <;> rfl
  exact ⟨hacts .manager, hacts .user⟩

/-- Somebody who was a member before and left. -/
def formerMember : List Step :=
  let plain : Group := ⟨"", .user, true, none, none, none⟩
  [ .call (.createGroup 1 { plain with kind := .classroom }),
    .call (.createGroup 2 plain),
    .call (.createGroup 3 plain),
    .call (.setManager 1 3),
    .call (.transition ⟨1, [2], .adminCreatesInvitation, 3, none, none, false⟩),
    .call (.transition ⟨1, [2], .userAcceptsInvitation, 2, none, none, false⟩),
    .call (.transition ⟨1, [2], .userLeavesGroup, 2, none, none, false⟩) ]

/-- The user asks to be a member again, and is invited without a look at this. -/
def crossedRequests : List Step :=
  [ .call (.transition ⟨1, [2], .userCreatesJoinRequest, 2, none, none, false⟩),
    .advance (.ofMillis 1000),
    .call (.transition ⟨1, [2], .adminCreatesInvitation, 3, none, none, false⟩) ]

theorem both_act_crossedRequests :
    ((start (.ofList []) .zero .standard).run formerMember).Along (Spares 1 2) crossedRequests ∧
      (((start (.ofList []) .zero .standard).run formerMember).membership? 1 2).map (·.standing) =
        some .left ∧
      (((start (.ofList []) .zero .standard).run (formerMember ++ crossedRequests)).membership?
        1 2).map (·.standing) = some .active ∧
      ((start (.ofList []) .zero .standard).run formerMember).Sometime (Acts 1 2 .manager)
        crossedRequests ∧
      ((start (.ofList []) .zero .standard).run formerMember).Sometime (Acts 1 2 .user)
        crossedRequests := by
  have hspares : ((start (.ofList []) .zero .standard).run formerMember).Along (Spares 1 2)
      crossedRequests := by decide +kernel
  refine ⟨hspares, by decide +kernel, by decide +kernel, ?_⟩
  exact both_act_run (.ofList []) .zero .standard hspares (by decide +kernel) (by decide +kernel)

end Session

end Courseware
