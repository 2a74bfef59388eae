import Courseware.Proofs.Acyclic
import Courseware.Proofs.Due
import Courseware.Proofs.Ends
import Courseware.Proofs.Memberships

/-!
# One team for an item

Whoever joins a team for an item must not be a member of another team for it. Members whose end has
come do not count, but their memberships stay active: a request to leave, its withdrawal or its
refusal may set a new end, and other teams are not looked up then. So nobody is in two teams for one
item at any time of a run if and only if no request revives a membership of somebody who has joined
another team in the meantime (`exclusive_run_iff`).
-/

namespace Courseware

/-- From an active membership these actions lead to an active one, if they do anything. -/
theorem standing_of_rewritesActive {action : Action} {current : MembershipState}
    {standing : Standing} {leaveRequested : Bool} (hrewrites : action.rewritesActive = true)
    (h : nextState action current = .apply standing leaveRequested) : standing = .active := by
  obtain ⟨old, requested⟩ := current
  cases action <;> rcases old with _ | ⟨_ | _⟩ <;> cases requested <;>
    simp_all [nextState, Action.rewritesActive]

namespace Store

variable {s s' t : Store} {now later : Timestamp} {team other parent child : GroupId}

/-- The item for which a group is a team, if it is one. -/
def teamItemOf (s : Store) (id : GroupId) : Option ItemId :=
  (s.groups.get? id).bind fun group => if group.kind = .team then group.teamItem else none

/-- Whether a group is a member of another: the membership is active, and its end has not come. -/
def isMember (s : Store) (parent child : GroupId) (now : Timestamp) : Bool :=
  (s.memberships.get? (parent, child)).any (·.isEffective now)

/-- Of the teams for the same item, a group is a member of this one at most. -/
def SoleTeam (s : Store) (team child : GroupId) (now : Timestamp) : Prop :=
  ∀ other item, s.teamItemOf team = some item → s.teamItemOf other = some item →
    s.isMember other child now = true → other = team

/-- Nobody is a member of two teams for the same item. -/
def Exclusive (s : Store) (now : Timestamp) : Prop :=
  ∀ team child, s.isMember team child now = true → s.SoleTeam team child now

theorem isMember_iff : s.isMember parent child now = true ↔
    ∃ m, s.memberships.get? (parent, child) = some m ∧ m.isActive = true ∧
      m.expiry.isPast now = false := by
  rw [isMember, Option.any_eq_true]
  simp [Membership.isEffective]

/-- Members were members before, unless something is written. -/
theorem isMember_of_later (hle : now ≤ later) (h : s.isMember parent child later = true) :
    s.isMember parent child now = true := by
  obtain ⟨m, hm, hactive, hend⟩ := isMember_iff.1 h
  exact isMember_iff.2 ⟨m, hm, hactive, Expiry.isPast_eq_false_of_le hle hend⟩

theorem Exclusive.of_later (hs : s.Exclusive now) (hle : now ≤ later) : s.Exclusive later :=
  fun team child hmember other item hteam hother hother' =>
    hs team child (isMember_of_later hle hmember) other item hteam hother
      (isMember_of_later hle hother')

theorem isMember_congr (h : s'.memberships.get? (parent, child) = s.memberships.get? (parent, child)) :
    s'.isMember parent child now = s.isMember parent child now := by
  rw [isMember, h, isMember]

theorem teamItemOf_congr (h : s'.groups = s.groups) (id : GroupId) :
    s'.teamItemOf id = s.teamItemOf id := by
  rw [teamItemOf, h, teamItemOf]

theorem SoleTeam.congr (h : s.SoleTeam team child now) (hgroups : s'.groups = s.groups)
    (hothers : ∀ other, other ≠ team →
      s'.memberships.get? (other, child) = s.memberships.get? (other, child)) :
    s'.SoleTeam team child now := by
  intro other item hteam hother hmember
  by_contra hne
  rw [teamItemOf_congr hgroups] at hteam hother
  rw [isMember_congr (hothers other hne)] at hmember
  exact hne (h other item hteam hother hmember)

theorem mem_teamMemberships {item : ItemId} :
    other ∈ s.teamMemberships child item team now ↔
      s.teamItemOf other = some item ∧ other ≠ team ∧ s.isMember other child now = true := by
  rw [teamMemberships, List.mem_map]
  simp only [List.mem_filter, Bool.and_eq_true, decide_eq_true_eq, teamItemOf]
  constructor
  · rintro ⟨⟨id, group⟩, ⟨hgroup, ⟨⟨hkind, hitem⟩, hne⟩, hmember⟩, rfl⟩
    rw [Table.mem_toList_iff.1 hgroup, Option.bind_some, if_pos hkind]
    exact ⟨hitem, hne, hmember⟩
  · rintro ⟨hitem, hne, hmember⟩
    obtain ⟨group, hgroup, hitem⟩ := Option.bind_eq_some_iff.1 hitem
    split at hitem
    · rename_i hkind
      exact ⟨(other, group), ⟨Table.mem_toList_iff.2 hgroup, ⟨⟨hkind, hitem⟩, hne⟩, hmember⟩, rfl⟩
    · simp at hitem

/-! ### Moves -/

section Moves

variable {group : Group} {r : RelationRequest} {action : Action}

theorem ensureNoOtherTeam_eq_ok {u : Unit} (hgroup : s.groups.get? r.parent = some group)
    (h : s.ensureNoOtherTeam group r child now = .ok u) : s.SoleTeam r.parent child now := by
  intro other item hteam hother hmember
  by_contra hne
  rw [teamItemOf, hgroup, Option.bind_some] at hteam
  split at hteam
  · rename_i hkind
    have hmem := mem_teamMemberships.2 ⟨hother, hne, hmember⟩
    rw [ensureNoOtherTeam, hkind, hteam] at h
    simp only at h
    split at h
    · simp at h
    · rename_i hnone
      rw [hnone] at hmem
      exact absurd hmem List.not_mem_nil
  · simp at hteam

/-- The membership is active although its end has come, and the request sets it an end to come. -/
structure Revives (r : RelationRequest) (action : Action) (m : Membership) (now : Timestamp) :
    Prop where
  active : m.isActive = true
  ended : m.expiry.isPast now = true
  rewrites : ∃ leaveRequested,
    nextState action (.ofMembership (some m)) = .apply .active leaveRequested
  later : ∃ date, r.expiresAt = some date ∧ now < date

theorem Revives.rewritesActive {m : Membership} (h : Revives r action m now) :
    action.rewritesActive = true := by
  obtain ⟨leaveRequested, hnext⟩ := h.rewrites
  refine rewritesActive_of_nextState hnext ?_
  simpa [MembershipState.ofMembership, MembershipState.isActive, Membership.isActive] using h.active

theorem isPast_date {date : Timestamp} : (Expiry.date date).isPast now = false ↔ now < date :=
  Expiry.isPast_eq_false_iff.trans Expiry.date_lt_date

theorem expiry_membershipAfter {standing : Standing} {leaveRequested : Bool} {role : Option String}
    {approval : Option Bool} {date : Timestamp} :
    (s.membershipAfter parent child standing leaveRequested ⟨role, some date, approval⟩ now).expiry =
      .date date := by
  rw [membershipAfter]
  split <;> rfl

/-- A child that is a member after its move was one before, or it joined and no other team was found,
or its membership was revived. -/
theorem isMember_moveChild {out : TransitionResult × Bool}
    (hgroup : s.groups.get? r.parent = some group)
    (h : s.moveChild group r action child now = .ok (out, s'))
    (hmember : s'.isMember r.parent child now = true) :
    s.isMember r.parent child now = true ∨ s.SoleTeam r.parent child now ∨
      ∃ m, s.memberships.get? (r.parent, child) = some m ∧ Revives r action m now := by
  obtain ⟨result, flipped⟩ := out
  rcases moveChild_eq_ok h with
    ⟨-, -, rfl⟩ | ⟨standing, requested, approval, id, hnext, hguards, hput, -⟩
  · exact Or.inl hmember
  · obtain ⟨-, -, rfl⟩ := putMembership_eq_ok hput
    obtain ⟨m', hm', hactive, hend⟩ := isMember_iff.1 hmember
    obtain rfl := Option.some.inj ((Table.get?_insert_self _ _ _).symm.trans hm')
    rw [Membership.isActive, standing_membershipAfter, decide_eq_true_eq] at hactive
    subst hactive
    cases hold : s.memberships.get? (r.parent, child) with
    | none =>
      refine Or.inr (Or.inl (ensureNoOtherTeam_eq_ok hgroup (hguards rfl ?_).1))
      rw [hold]
      rfl
    | some m =>
      rw [hold] at hnext hguards
      by_cases hbefore : m.standing = .active
      · have hactive : m.isActive = true := decide_eq_true hbefore
        by_cases hpast : m.expiry.isPast now = true
        · refine Or.inr (Or.inr ⟨m, rfl, hactive, hpast, ⟨requested, hnext⟩, ?_⟩)
          cases hdate : r.expiresAt with
          | none =>
            rw [membershipAfter, hold] at hend
            simp only [renewed, hdate, hbefore, ne_eq, not_true_eq_false, and_false,
              if_false] at hend
            rw [hend] at hpast
            exact absurd hpast (by simp)
          | some date =>
            rw [hdate, expiry_membershipAfter] at hend
            exact ⟨date, rfl, isPast_date.1 hend⟩
        · exact Or.inl (isMember_iff.2 ⟨m, hold, hactive, by simpa using hpast⟩)
      · refine Or.inr (Or.inl (ensureNoOtherTeam_eq_ok hgroup (hguards rfl ?_).1))
        simpa [MembershipState.ofMembership, MembershipState.isActive] using hbefore

/-- What such an action writes down has the new end. -/
theorem isMember_of_rewritesActive {out : TransitionResult × Bool} {date : Timestamp}
    (hrewrites : action.rewritesActive = true) (hdate : r.expiresAt = some date)
    (hlater : now < date) (h : s.moveChild group r action child now = .ok (out, s'))
    (hbefore : s.isMember r.parent child now = true ∨ ∃ standing requested,
      nextState action (.ofMembership (s.memberships.get? (r.parent, child))) =
        .apply standing requested) : s'.isMember r.parent child now = true := by
  obtain ⟨result, flipped⟩ := out
  rcases moveChild_eq_ok h with
    ⟨hnot, -, rfl⟩ | ⟨standing, requested, approval, id, hnext, -, hput, -⟩
  · refine hbefore.resolve_right ?_
    rintro ⟨standing, requested, hnext⟩
    exact hnot standing requested hnext
  · obtain ⟨-, -, rfl⟩ := putMembership_eq_ok hput
    obtain rfl := standing_of_rewritesActive hrewrites hnext
    refine isMember_iff.2 ⟨_, Table.get?_insert_self _ _ _, ?_, ?_⟩
    · rw [Membership.isActive, standing_membershipAfter]
      rfl
    · rw [hdate, expiry_membershipAfter]
      exact isPast_date.2 hlater

variable {children : List GroupId} {out : List TransitionResult × Bool}

theorem isMember_moveChildren (hgroup : s.groups.get? r.parent = some group)
    (h : s.moveChildren group r action now children = .ok (out, s'))
    (hmember : s'.isMember r.parent child now = true) :
    s.isMember r.parent child now = true ∨ s.SoleTeam r.parent child now ∨
      child ∈ children ∧
        ∃ m, s.memberships.get? (r.parent, child) = some m ∧ Revives r action m now := by
  induction children generalizing s out with
  | nil =>
    simp only [moveChildren, Except.ok.injEq, Prod.mk.injEq] at h
    exact Or.inl (h.2 ▸ hmember)
  | cons first rest ih =>
    obtain ⟨result, flipped, _, _, t, hone, hrest, -⟩ := moveChildren_cons_eq_ok h
    obtain ⟨⟨ms, n, hframe⟩, -⟩ := rejoins_moveChild hone
    have hgroups : t.groups = s.groups := by rw [hframe]
    have hothers : ∀ other, other ≠ r.parent →
        s.memberships.get? (other, child) = t.memberships.get? (other, child) := by
      intro other hne
      refine (get?_moveChild_of_ne (fun heq => ?_) hone).symm
      exact hne (Prod.mk.inj heq).1.symm
    have hlater := ih (hgroups ▸ hgroup) hrest
    by_cases hfirst : first = child
    · subst hfirst
      rcases hlater with hstays | hsole | ⟨-, m, hm, hrevives⟩
      · refine (isMember_moveChild hgroup hone hstays).imp_right (Or.imp_right ?_)
        exact fun hrevived => ⟨List.mem_cons_self, hrevived⟩
      · exact Or.inr (Or.inl (hsole.congr hgroups.symm hothers))
      · -- What the first move wrote down is not ended, so it wrote nothing.
        rcases moveChild_eq_ok hone with
          ⟨-, -, rfl⟩ | ⟨standing, requested, approval, id, -, -, hput, -⟩
        · exact Or.inr (Or.inr ⟨List.mem_cons_self, m, hm, hrevives⟩)
        · obtain ⟨-, -, rfl⟩ := putMembership_eq_ok hput
          obtain ⟨date, hdate, hlater⟩ := hrevives.later
          obtain rfl := Option.some.inj ((Table.get?_insert_self _ _ _).symm.trans hm)
          have hended := hrevives.ended
          rw [hdate, expiry_membershipAfter, isPast_date.2 hlater] at hended
          exact absurd hended (by simp)
    · have hkept : t.memberships.get? (r.parent, child) = s.memberships.get? (r.parent, child) :=
        get?_moveChild_of_ne (by simpa using hfirst) hone
      rw [isMember_congr hkept, hkept] at hlater
      rcases hlater with hstays | hsole | ⟨hmem, hrevived⟩
      · exact Or.inl hstays
      · exact Or.inr (Or.inl (hsole.congr hgroups.symm hothers))
      · exact Or.inr (Or.inr ⟨List.mem_cons_of_mem _ hmem, hrevived⟩)

theorem isMember_moveChildren_of_rewritesActive {date : Timestamp}
    (hrewrites : action.rewritesActive = true) (hdate : r.expiresAt = some date)
    (hlater : now < date) (h : s.moveChildren group r action now children = .ok (out, s'))
    (hbefore : s.isMember r.parent child now = true ∨ child ∈ children ∧ ∃ standing requested,
      nextState action (.ofMembership (s.memberships.get? (r.parent, child))) =
        .apply standing requested) : s'.isMember r.parent child now = true := by
  induction children generalizing s out with
  | nil =>
    simp only [moveChildren, Except.ok.injEq, Prod.mk.injEq] at h
    exact h.2 ▸ hbefore.resolve_right fun hmem => absurd hmem.1 List.not_mem_nil
  | cons first rest ih =>
    obtain ⟨_, _, _, _, t, hone, hrest, -⟩ := moveChildren_cons_eq_ok h
    refine ih hrest ?_
    by_cases hfirst : first = child
    · subst hfirst
      exact Or.inl (isMember_of_rewritesActive hrewrites hdate hlater hone
        (hbefore.imp_right And.right))
    · have hkept : t.memberships.get? (r.parent, child) = s.memberships.get? (r.parent, child) :=
        get?_moveChild_of_ne (by simpa using hfirst) hone
      rw [isMember_congr hkept, hkept]
      refine hbefore.imp_right fun hmem => ⟨?_, hmem.2⟩
      exact (List.mem_cons.1 hmem.1).resolve_left (Ne.symm hfirst)

end Moves

/-! ### Requests -/

/-- The request revives the membership of somebody who is a member of another team for the item. -/
def RevivesSecond (s : Store) (r : RelationRequest) (now : Timestamp) : Prop :=
  ∃ child ∈ r.children, (∃ m, s.memberships.get? (r.parent, child) = some m ∧
    Revives r r.action m now) ∧ ¬ s.SoleTeam r.parent child now

/-- A request leaves nobody in two teams for an item if and only if it does not revive a second
membership. -/
theorem exclusive_request_iff (hs : s.Exclusive now) {r : RelationRequest}
    {outcome : TransitionOutcome} (h : s.request r now = .ok (outcome, s')) :
    s'.Exclusive now ↔ ¬ s.RevivesSecond r now := by
  have hgroups := groups_request h
  have hothers : ∀ other child, other ≠ r.parent →
      s'.memberships.get? (other, child) = s.memberships.get? (other, child) := by
    intro other child hne
    refine get?_request_of_ne (fun c _ heq => ?_) h
    exact hne (Prod.mk.inj heq).1.symm
  obtain ⟨group, action, out, t, hgroup, hadmitted, hmoves, hmemberships⟩ := moves_of_request h
  have hmember : ∀ child, s'.isMember r.parent child now = t.isMember r.parent child now :=
    fun child => isMember_congr (by rw [hmemberships])
  constructor
  · rintro hafter ⟨child, hchild, ⟨m, hm, hrevives⟩, hsecond⟩
    obtain ⟨leaveRequested, hnext⟩ := hrevives.rewrites
    obtain ⟨date, hdate, hlater⟩ := hrevives.later
    have hrewrites := hrevives.rewritesActive
    obtain rfl := action_eq_of_rewritesActive hadmitted (Or.inr hrewrites)
    have hrevived : s'.isMember r.parent child now = true := by
      rw [hmember]
      refine isMember_moveChildren_of_rewritesActive hrewrites hdate hlater hmoves
        (Or.inr ⟨hchild, .active, leaveRequested, ?_⟩)
      rw [hm]
      exact hnext
    exact hsecond ((hafter r.parent child hrevived).congr hgroups.symm
      fun other hne => (hothers other child hne).symm)
  · intro hno team child hteam
    by_cases hparent : team = r.parent
    · subst hparent
      rw [hmember] at hteam
      have hsole : s.SoleTeam r.parent child now := by
        rcases isMember_moveChildren hgroup hmoves hteam with
          hbefore | hsole | ⟨hchild, m, hm, hrevives⟩
        · exact hs r.parent child hbefore
        · exact hsole
        · by_contra hsecond
          have haction := action_eq_of_rewritesActive hadmitted (Or.inl hrevives.rewritesActive)
          exact hno ⟨child, hchild, ⟨m, hm, haction ▸ hrevives⟩, hsecond⟩
      exact hsole.congr hgroups fun other hne => hothers other child hne
    · intro other item hitem hother hmember'
      rw [teamItemOf_congr hgroups] at hitem hother
      rw [isMember_congr (hothers team child hparent)] at hteam
      by_cases hsecond : other = r.parent
      · subst hsecond
        rw [hmember] at hmember'
        rcases isMember_moveChildren hgroup hmoves hmember' with
          hbefore | hsole | ⟨hchild, m, hm, hrevives⟩
        · exact hs team child hteam _ item hitem hother hbefore
        · exact (hsole team item hother hitem hteam).symm
        · by_contra hne
          have haction := action_eq_of_rewritesActive hadmitted (Or.inl hrevives.rewritesActive)
          refine hno ⟨child, hchild, ⟨m, hm, haction ▸ hrevives⟩, fun hsole => hne ?_⟩
          exact (hsole team item hother hitem hteam).symm
      · rw [isMember_congr (hothers other child hsecond)] at hmember'
        exact hs team child hteam other item hitem hother hmember'

/-! ### Other calls -/

/-- Whoever is in a team for an item was in it before. -/
def KeepsTeams (s s' : Store) : Prop :=
  ∀ team child m item, s'.memberships.get? (team, child) = some m → s'.teamItemOf team = some item →
    s.memberships.get? (team, child) = some m ∧ s.teamItemOf team = some item

theorem Exclusive.keepsTeams (hs : s.Exclusive now) (h : KeepsTeams s s') : s'.Exclusive now := by
  intro team child hteam other item hitem hother hmember
  obtain ⟨m, hm, hactive, hend⟩ := isMember_iff.1 hteam
  obtain ⟨hm, hitem⟩ := h team child m item hm hitem
  obtain ⟨m', hm', hactive', hend'⟩ := isMember_iff.1 hmember
  obtain ⟨hm', hother⟩ := h other child m' item hm' hother
  exact hs team child (isMember_iff.2 ⟨m, hm, hactive, hend⟩) other item hitem hother
    (isMember_iff.2 ⟨m', hm', hactive', hend'⟩)

theorem keepsTeams_call (hs : s.Coherent) {policy : RetryPolicy} {call : Call} {ids : IdSource}
    {reply : Reply} (hspares : ∀ p ∈ call.madeRelations, s.teamItemOf p.1 = none)
    (hrun : (Call.run policy now call ids s).1 = .ok (reply, s')) :
    KeepsTeams s s' ∨ ∃ r, call = .transition r := by
  by_cases hrequest : ∃ r, call = .transition r
  · exact Or.inr hrequest
  refine Or.inl fun team child m item hm hitem => ?_
  by_cases hmade : (team, child) ∈ call.madeRelations
  · rw [teamItemOf_congr (groups_of_madeRelations hmade hrun), hspares _ hmade] at hitem
    exact absurd hitem (by simp)
  · rcases keepsMembership_call hs hmade hrun with hkeeps | ⟨r, _, rfl, -⟩
    · obtain ⟨hm, hgroups⟩ := hkeeps m hm
      obtain ⟨group, hgroup, hitem⟩ := Option.bind_eq_some_iff.1 hitem
      refine ⟨hm, ?_⟩
      rw [teamItemOf, hgroups group hgroup]
      exact hitem
    · exact absurd ⟨r, rfl⟩ hrequest

end Store

namespace Session

open Store

variable {s : Session} {step : Step}

/-- The clock does not go back, and teams for an item get their members by requests. -/
def TeamsByRequest (s : Session) : Step → Prop
  | .call call => ∀ p ∈ call.madeRelations, s.committed.teamItemOf p.1 = none
  | .advance span => s.clock ≤ s.clock.advance span
  | .setClock time => s.clock ≤ time

/-- If the step is a successful request, it revives no second membership. -/
def RevivesNoSecond (s : Session) (step : Step) : Prop :=
  ∀ r, step = .call (.transition r) → (s.perform (.transition r)).1.isOk = true →
    ¬ s.committed.RevivesSecond r s.clock

theorem exclusive_step_iff (hs : s.Idle) (hcoherent : s.committed.Coherent)
    (hexclusive : s.committed.Exclusive s.clock) (hteams : s.TeamsByRequest step) :
    (s.step step).committed.Exclusive (s.step step).clock ↔ s.RevivesNoSecond step := by
  cases step with
  | advance span => exact ⟨fun _ r hr => by simp at hr, fun _ => hexclusive.of_later hteams⟩
  | setClock time => exact ⟨fun _ r hr => by simp at hr, fun _ => hexclusive.of_later hteams⟩
  | call call =>
    rw [clock_step_call hs]
    cases hout : s.outcomeOf call with
    | error fault =>
      have herror := (perform_eq_error hs).2 hout
      rw [Session.step, (perform_error hs herror).2]
      refine ⟨fun _ r hr hok => ?_, fun _ => hexclusive⟩
      obtain rfl := Step.call.inj hr
      rw [herror] at hok
      exact absurd hok (by simp [Except.isOk, Except.toBool])
    | ok p =>
      obtain ⟨reply, store⟩ := p
      obtain ⟨hreply, hcommitted⟩ := perform_of_outcome hs hout
      rw [Session.step, hcommitted]
      rcases keepsTeams_call hcoherent hteams hout with hkeeps | ⟨r, rfl⟩
      · refine ⟨fun _ r hr _ => ?_, fun _ => hexclusive.keepsTeams hkeeps⟩
        obtain rfl := Step.call.inj hr
        obtain ⟨outcome, hrequest, -⟩ := Reply.onSuccess_eq_ok.1 hout
        exact (exclusive_request_iff hexclusive hrequest).1 (hexclusive.keepsTeams hkeeps)
      · obtain ⟨outcome, hrequest, -⟩ := Reply.onSuccess_eq_ok.1 hout
        rw [exclusive_request_iff hexclusive hrequest]
        constructor
        · intro hno r' hr' _
          obtain rfl := Call.transition.inj (Step.call.inj hr')
          exact hno
        · intro h
          exact h r rfl (by rw [hreply]; rfl)

theorem exclusive_take_iff (hs : s.Idle) (hcoherent : s.committed.Coherent)
    (hexclusive : s.committed.Exclusive s.clock) {steps : List Step}
    (hteams : s.Along TeamsByRequest steps) :
    (∀ n, (s.run (steps.take n)).committed.Exclusive (s.run (steps.take n)).clock) ↔
      s.Along RevivesNoSecond steps := by
  induction steps generalizing s with
  | nil =>
    refine ⟨fun _ => trivial, fun _ n => ?_⟩
    rw [List.take_nil]
    exact hexclusive
  | cons step rest ih =>
    obtain ⟨hstep, hrest⟩ := hteams
    rw [Along, ← exclusive_step_iff hs hcoherent hexclusive hstep]
    constructor
    · intro hall
      have hfirst := hall 1
      exact ⟨hfirst, (ih (idle_step hs step) (coherent_step hs hcoherent step) hfirst hrest).1
        fun n => hall (n + 1)⟩
    · rintro ⟨hfirst, halong⟩ n
      cases n with
      | zero => exact hexclusive
      | succ n =>
        exact (ih (idle_step hs step) (coherent_step hs hcoherent step) hfirst hrest).2 halong n

theorem exclusive_start (ids : IdSource) (clock : Timestamp) (policy : RetryPolicy) :
    (start ids clock policy).committed.Exclusive clock :=
  fun _ _ hmember => absurd hmember (by simp [start, isMember, empty])

/-- In a run in which the clock does not go back and teams for an item get their members by requests
alone, nobody is ever a member of two teams for one item, then or at a later time, if and only if no
successful request sets a new end to the ended membership of somebody who is in another team. -/
theorem exclusive_run_iff (ids : IdSource) (clock : Timestamp) (policy : RetryPolicy)
    {steps : List Step} (hteams : (start ids clock policy).Along TeamsByRequest steps) :
    (∀ n later, ((start ids clock policy).run (steps.take n)).clock ≤ later →
        ((start ids clock policy).run (steps.take n)).committed.Exclusive later) ↔
      (start ids clock policy).Along RevivesNoSecond steps := by
  rw [← exclusive_take_iff (idle_start ids clock policy) coherent_empty
    (exclusive_start ids clock policy) hteams]
  exact ⟨fun h n => h n _ le_rfl, fun h n later hlater => (h n).of_later hlater⟩

theorem revivesNoSecond_of_setsNoEnds (hterms : SetsNoEnds step) : s.RevivesNoSecond step := by
  rintro r rfl - ⟨child, -, ⟨m, -, hrevives⟩, -⟩
  obtain ⟨date, hdate, -⟩ := hrevives.later
  rw [hterms r rfl hrevives.rewritesActive] at hdate
  simp at hdate

instance decidableTeamsByRequest (s : Session) : ∀ step, Decidable (s.TeamsByRequest step)
  | .call call =>
    inferInstanceAs (Decidable (∀ p ∈ call.madeRelations, s.committed.teamItemOf p.1 = none))
  | .advance span => inferInstanceAs (Decidable (s.clock ≤ s.clock.advance span))
  | .setClock time => inferInstanceAs (Decidable (s.clock ≤ time))

/-- Somebody joins a team, and after the end of that membership another one for the same item. -/
def secondTeam : List Step :=
  let plain : Group := ⟨"", .user, true, none, none, none⟩
  [ .call (.createGroup 1 { plain with kind := .team, teamItem := some 50 }),
    .call (.createGroup 2 { plain with kind := .team, teamItem := some 50 }),
    .call (.createGroup 3 plain),
    .call (.createGroup 4 plain),
    .call (.setManager 1 4),
    .call (.setManager 2 4),
    .call (.transition ⟨1, [3], .adminCreatesInvitation, 4, none, none, false⟩),
    .call (.transition ⟨1, [3], .userAcceptsInvitation, 3, none, some ⟨1000⟩, false⟩),
    .setClock ⟨1000⟩,
    .call (.transition ⟨2, [3], .adminCreatesInvitation, 4, none, none, false⟩),
    .call (.transition ⟨2, [3], .userAcceptsInvitation, 3, none, none, false⟩) ]

theorem exclusive_secondTeam :
    ((start (.ofList []) .zero .standard).run secondTeam).committed.isMember 2 3 ⟨1000⟩ = true ∧
      ((start (.ofList []) .zero .standard).run secondTeam).committed.Exclusive ⟨1000⟩ := by
  have hteams : (start (.ofList []) .zero .standard).Along TeamsByRequest secondTeam := by
    decide +kernel
  have hterms : ∀ step ∈ secondTeam, SetsNoEnds step := by
    rintro step hstep r rfl hrewrites
    simp only [secondTeam, List.mem_cons, List.not_mem_nil, reduceCtorEq, or_false, false_or,
      Step.call.injEq, Call.transition.injEq] at hstep
    rcases hstep with rfl | rfl | rfl | rfl <;> simp [Action.rewritesActive] at hrewrites
  refine ⟨by decide +kernel, ?_⟩
  exact (exclusive_run_iff (.ofList []) .zero .standard hteams).2
    (along_of_forall (fun step hstep _ => revivesNoSecond_of_setsNoEnds (hterms step hstep)) _)
    11 ⟨1000⟩ (by decide +kernel)

/-- The first team has not been left: with a new end, the membership in it is back. -/
theorem not_exclusive_secondTeam :
    (start (.ofList []) .zero .standard).Along TeamsByRequest (secondTeam ++
        [.call (.transition ⟨1, [3], .userCreatesLeaveRequest, 3, none, some ⟨5000⟩, false⟩)]) ∧
      ¬ ((start (.ofList []) .zero .standard).run (secondTeam ++
        [.call (.transition ⟨1, [3], .userCreatesLeaveRequest, 3, none, some ⟨5000⟩, false⟩)])
        ).committed.Exclusive ⟨1000⟩ := by
  refine ⟨by decide +kernel, fun hexclusive => ?_⟩
  have hone := hexclusive 2 3 (by decide +kernel) 1 50 (by decide +kernel) (by decide +kernel)
    (by decide +kernel)
  exact absurd hone (by decide)

end Session

end Courseware
