import Courseware.Proofs.Integrity

/-!
# The recorded ancestors throughout a run

Every call that writes a membership recomputes the closure, except a transition after which the same
memberships are active as before. So at every moment of a run there is a record for exactly those
groups that walks of active memberships connect (`recordsWalks_run`).
-/

namespace Courseware

/-- Actions that end active memberships. All others begin some or leave them be. -/
def Action.endsMembership : Action → Bool
  | .userLeavesGroup | .adminRemovesMember | .adminAcceptsLeaveRequest => true
  | _ => false

/-- An action that turns memberships active never ends others, and conversely. -/
theorem isActive_of_nextState {action : Action} {current : MembershipState} {standing : Standing}
    {leaveRequested : Bool} (h : nextState action current = .apply standing leaveRequested)
    (hflip : decide (standing = .active) ≠ current.isActive) :
    current.isActive = action.endsMembership := by
  obtain ⟨old, requested⟩ := current
  cases action <;> rcases old with _ | ⟨_ | _⟩ <;> cases requested <;>
    simp_all [nextState, MembershipState.isActive, Action.endsMembership]

namespace Store

open Network

/-! ### Which memberships are active after a transition -/

theorem contains_activeNetwork_eq (s : Store) (k : GroupId × GroupId) :
    s.activeNetwork.contains k =
      (MembershipState.ofMembership (s.memberships.get? k)).isActive := by
  rw [Bool.eq_iff_iff, contains_activeNetwork]
  cases s.memberships.get? k with
  | none => simp [MembershipState.ofMembership, MembershipState.absent, MembershipState.isActive]
  | some m => simp [MembershipState.ofMembership, MembershipState.isActive]

/-- All memberships that start or stop being active do so in the same direction, and `flipped` tells
whether there are any. -/
structure Shifts (ending flipped : Bool) (s t : Store) : Prop where
  flipped_iff : flipped = true ↔ ∃ k, t.activeNetwork.contains k ≠ s.activeNetwork.contains k
  direction : ∀ k, t.activeNetwork.contains k ≠ s.activeNetwork.contains k →
    s.activeNetwork.contains k = ending

theorem Shifts.refl (ending : Bool) (s : Store) : Shifts ending false s s :=
  ⟨by simp, fun k hk => absurd rfl hk⟩

theorem Shifts.trans {ending flipped flippedLater : Bool} {s t u : Store}
    (hst : Shifts ending flipped s t) (htu : Shifts ending flippedLater t u) :
    Shifts ending (flipped || flippedLater) s u := by
  -- A membership that moved once has left the side from which it can move again.
  have hkey : ∀ k, u.activeNetwork.contains k ≠ s.activeNetwork.contains k ↔
      t.activeNetwork.contains k ≠ s.activeNetwork.contains k ∨
        u.activeNetwork.contains k ≠ t.activeNetwork.contains k := by
    intro k
    have hs := hst.direction k
    have ht := htu.direction k
    revert hs ht
    cases s.activeNetwork.contains k <;> cases t.activeNetwork.contains k <;>
      cases u.activeNetwork.contains k <;> cases ending <;> simp
  constructor
  · rw [Bool.or_eq_true, hst.flipped_iff, htu.flipped_iff, ← exists_or]
    exact exists_congr fun k => (hkey k).symm
  · intro k hk
    by_cases hfirst : t.activeNetwork.contains k = s.activeNetwork.contains k
    · rw [← hfirst]
      exact htu.direction k (((hkey k).1 hk).resolve_left fun h => h hfirst)
    · exact hst.direction k hfirst

variable {s s' : Store} {group : Group} {r : RelationRequest} {action : Action} {now : Timestamp}

theorem shifts_moveChild {child : GroupId} {result : TransitionResult} {flipped : Bool}
    (h : s.moveChild group r action child now = .ok ((result, flipped), s')) :
    Shifts action.endsMembership flipped s s' := by
  rcases moveChild_eq_ok h with
    ⟨-, rfl, rfl⟩ | ⟨standing, requested, approval, id, hnext, -, hput, hflip, -⟩
  · exact .refl _ s'
  · obtain ⟨-, -, rfl⟩ := putMembership_eq_ok hput
    have hsame : ∀ k, k ≠ (r.parent, child) →
        (s.memberships.insert (r.parent, child) (s.membershipAfter r.parent child standing requested
          ⟨r.role, r.expiresAt, approval⟩ now)).get? k = s.memberships.get? k := by
      intro k hk
      rw [Table.get?_insert, if_neg (Ne.symm hk)]
    have hself : (MembershipState.ofMembership ((s.memberships.insert (r.parent, child)
        (s.membershipAfter r.parent child standing requested ⟨r.role, r.expiresAt, approval⟩
          now)).get? (r.parent, child))).isActive = decide (standing = .active) := by
      rw [Table.get?_insert_self, MembershipState.ofMembership, MembershipState.isActive,
        standing_membershipAfter]
      simp
    constructor
    · rw [hflip, decide_eq_true_eq]
      constructor
      · intro hne
        refine ⟨(r.parent, child), ?_⟩
        rw [contains_activeNetwork_eq, contains_activeNetwork_eq, hself]
        exact hne
      · rintro ⟨k, hne⟩
        rw [contains_activeNetwork_eq, contains_activeNetwork_eq] at hne
        by_cases hk : k = (r.parent, child)
        · subst hk
          rwa [hself] at hne
        · exact absurd (by rw [hsame k hk]) hne
    · intro k hne
      rw [contains_activeNetwork_eq, contains_activeNetwork_eq] at hne
      rw [contains_activeNetwork_eq]
      by_cases hk : k = (r.parent, child)
      · subst hk
        rw [hself] at hne
        exact isActive_of_nextState hnext hne
      · exact absurd (by rw [hsame k hk]) hne

theorem shifts_moveChildren {children : List GroupId} {results : List TransitionResult}
    {flipped : Bool} (h : s.moveChildren group r action now children = .ok ((results, flipped), s')) :
    Shifts action.endsMembership flipped s s' := by
  induction children generalizing s results flipped with
  | nil =>
    simp only [moveChildren, Except.ok.injEq, Prod.mk.injEq] at h
    obtain ⟨⟨-, rfl⟩, rfl⟩ := h
    exact .refl _ s
  | cons child rest ih =>
    obtain ⟨_, _, _, _, t, hone, hrest, hout⟩ := moveChildren_cons_eq_ok h
    obtain ⟨-, rfl⟩ := Prod.mk.inj hout
    exact (shifts_moveChild hone).trans (ih hrest)

/-- A transition recomputes the closure exactly if different memberships are active after it. -/
theorem request_ancestors {outcome : TransitionOutcome}
    (h : s.request r now = .ok (outcome, s')) :
    s'.groups = s.groups ∧
      (((∃ k, s'.activeNetwork.contains k ≠ s.activeNetwork.contains k) ∧
          s'.ancestors = s'.closure) ∨
        ((∀ k, s'.activeNetwork.contains k = s.activeNetwork.contains k) ∧
          s'.ancestors = s.ancestors)) := by
  obtain ⟨t, happly, hsettle⟩ := request_eq_ok h
  obtain ⟨gen, rs, rfl⟩ := settleClosure_frame hsettle
  obtain ⟨group, action, results, flipped, u, -, -, hmoves, hrest⟩ := applyRequest_eq_ok happly
  obtain ⟨ms, n, hu⟩ := (rejoins_moveChildren hmoves).frame
  have hshift := shifts_moveChildren hmoves
  rcases hrest with ⟨rfl, heq⟩ | ⟨rfl, -, rfl⟩
  · obtain rfl := eq_of_recomputeClosure heq
    exact ⟨by rw [hu], Or.inl ⟨hshift.flipped_iff.1 rfl, rfl⟩⟩
  · refine ⟨by rw [hu], Or.inr ⟨fun k => ?_, by rw [hu]⟩⟩
    by_contra hne
    exact absurd (hshift.flipped_iff.2 ⟨k, hne⟩) (by simp)

theorem Reclosed.settleClosure_ancestors {change : ClosureChange} {u : Store}
    (hreclosed : Reclosed change s u) (hsettle : u.settleClosure change now = .ok s') :
    s'.ancestors = s'.closure := by
  obtain ⟨v, -, heq⟩ := hreclosed
  obtain ⟨gen, rs, rfl⟩ := settleClosure_frame hsettle
  obtain rfl := eq_of_recomputeClosure heq
  rfl

/-- After a call the closure was recomputed, or everything that it depends on is as before, or a
group was added, or a transition left the same memberships active. -/
theorem ancestors_call {policy : RetryPolicy} {call : Call} {ids : IdSource} {reply : Reply}
    (hrun : (Call.run policy now call ids s).1 = .ok (reply, s')) :
    s'.ancestors = s'.closure ∨
      (s'.ancestors = s.ancestors ∧ s'.groups = s.groups ∧ s'.memberships = s.memberships) ∨
      (∃ id group, s.insertGroup id group = .ok s') ∨
      (∃ r, call = .transition r ∧ s'.ancestors = s.ancestors ∧ s'.groups = s.groups ∧
        ∀ k, s'.activeNetwork.contains k = s.activeNetwork.contains k) := by
  cases Effect.of_run hrun with
  | nothing hsame => exact Or.inr (Or.inl (by rw [hsame]; exact ⟨rfl, rfl, rfl⟩))
  | insertGroup hinsert => exact Or.inr (Or.inr (Or.inl ⟨_, _, hinsert⟩))
  | reclose _ hreclosed hsettle => exact Or.inl (hreclosed.settleClosure_ancestors hsettle)
  | resettle hsettle =>
    obtain ⟨gen, rs, rfl⟩ := settleClosure_frame hsettle
    exact Or.inr (Or.inl ⟨rfl, rfl, rfl⟩)
  | deleteOrphans hdelete hdeleted hsettle =>
    obtain ⟨gen, rs, rfl⟩ := settleClosure_frame hsettle
    rcases deleteRelation_eq_ok hdelete with ⟨-, rfl, -⟩ | ⟨-, hnone⟩ | ⟨-, -, rfl, -⟩
    · exact absurd rfl hdeleted
    · exact absurd hnone hdeleted
    · exact Or.inl (closed_recomputeClosure _)
  | transition hrequest =>
    obtain ⟨hgroups, ⟨-, hclosure⟩ | ⟨hactive, hancestors⟩⟩ := request_ancestors hrequest
    · exact Or.inl hclosure
    · exact Or.inr (Or.inr (Or.inr ⟨_, rfl, hancestors, hgroups, hactive⟩))
  | appoint _ _ happointed => exact Or.inr (Or.inl (by rw [happointed]; exact ⟨rfl, rfl, rfl⟩))
  | insertItem hinsert =>
    obtain ⟨-, rfl⟩ := insertItem_eq_ok hinsert
    exact Or.inr (Or.inl ⟨rfl, rfl, rfl⟩)
  | link _ _ _ hsettle | unlink hsettle | grant _ _ hsettle | revoke hsettle =>
    obtain ⟨gen, rs, rfl⟩ := settlePairs_frame hsettle
    exact Or.inr (Or.inl ⟨rfl, rfl, rfl⟩)
  | sweep hsweep =>
    obtain ⟨gen, rs, rfl⟩ := sweep_frame hsweep
    exact Or.inr (Or.inl ⟨rfl, rfl, rfl⟩)
  | work hwork =>
    obtain ⟨_, _, _, _, rfl⟩ := hwork.onlyWork
    exact Or.inr (Or.inl ⟨rfl, rfl, rfl⟩)

/-! ### Adding a group -/

/-- Nobody is a member of a group that is not stored, or has it as a member. -/
theorem Coherent.walk_eq (h : s.Coherent) {a d : GroupId} {e : Expiry}
    (hwalk : Walk s.activeNetwork a d e) (hno : s.groups.contains a = false) :
    a = d ∧ e = .never := by
  induction hwalk with
  | stay => exact ⟨rfl, rfl⟩
  | step _ hlink ih =>
    obtain ⟨rfl, -⟩ := ih
    obtain ⟨m, hm, -⟩ := get?_activeNetwork.1 hlink
    rw [(h.memberships _ (Table.contains_of_get? hm)).1] at hno
    exact absurd hno (by simp)

/-- A group that is added is recorded as its own ancestor. -/
theorem ancestors_insertGroup {id : GroupId} {group : Group} (hs : s.RecordsWalks)
    (hinsert : s.insertGroup id group = .ok s') :
    s'.groups = s.groups.insert id group ∧ s'.memberships = s.memberships ∧
      s'.ancestors = s.ancestors.insert (id, id) ⟨true, .never⟩ := by
  obtain ⟨hnew, rfl⟩ := insertGroup_eq_ok hinsert
  have hself : s.ancestors.contains (id, id) = false := by
    rw [← Bool.not_eq_true, hs.contains_iff, hnew]
    simp
  simp [hself]

theorem RecordsWalks.insertGroup (hs : s.RecordsWalks) (hcoherent : s.Coherent) {id : GroupId}
    {group : Group} (hinsert : s.insertGroup id group = .ok s') : s'.RecordsWalks := by
  obtain ⟨hgroups, hmemberships, hancestors⟩ := ancestors_insertGroup hs hinsert
  obtain ⟨hnew, -⟩ := insertGroup_eq_ok hinsert
  have hnetwork : s'.activeNetwork = s.activeNetwork := by rw [activeNetwork, hmemberships]; rfl
  constructor
  · intro a d
    rw [hancestors, hgroups, hnetwork, Table.contains_insert, Table.contains_insert,
      Bool.or_eq_true, Bool.or_eq_true, hs.contains_iff, decide_eq_true_eq, decide_eq_true_eq,
      Prod.mk.injEq]
    constructor
    · rintro (⟨rfl, rfl⟩ | ⟨hgroup, hwalk⟩)
      · exact ⟨Or.inl rfl, .never, Walk.stay id⟩
      · exact ⟨Or.inr hgroup, hwalk⟩
    · rintro ⟨rfl | hgroup, e, hwalk⟩
      · exact Or.inl ⟨rfl, (hcoherent.walk_eq hwalk hnew).1⟩
      · exact Or.inr ⟨hgroup, e, hwalk⟩
  · intro a d row hrow
    rw [hancestors, Table.get?_insert] at hrow
    split at hrow
    · rename_i heq
      obtain ⟨rfl, rfl⟩ := Prod.mk.inj heq
      obtain rfl := Option.some.inj hrow
      simp
    · exact hs.isSelf_iff a d row hrow

/-! ### Records throughout a run -/

theorem RecordsWalks.congr (hs : s.RecordsWalks) (hancestors : s'.ancestors = s.ancestors)
    (hgroups : s'.groups = s.groups)
    (hactive : ∀ k, s'.activeNetwork.contains k = s.activeNetwork.contains k) :
    s'.RecordsWalks := by
  constructor
  · intro a d
    rw [hancestors, hgroups, exists_walk_congr hactive, hs.contains_iff]
  · intro a d row hrow
    rw [hancestors] at hrow
    exact hs.isSelf_iff a d row hrow

theorem RecordsWalks.call (hs : s.RecordsWalks) (hcoherent : s.Coherent) {policy : RetryPolicy}
    {call : Call} {ids : IdSource} {reply : Reply}
    (hrun : (Call.run policy now call ids s).1 = .ok (reply, s')) : s'.RecordsWalks := by
  rcases ancestors_call hrun with hclosure | ⟨hancestors, hgroups, hmemberships⟩ |
    ⟨id, group, hinsert⟩ | ⟨r, -, hancestors, hgroups, hactive⟩
  · exact recordsWalks_of_eq_closure hclosure
  · exact hs.congr hancestors hgroups fun k => by
      rw [contains_activeNetwork_eq, contains_activeNetwork_eq, hmemberships]
  · exact hs.insertGroup hcoherent hinsert
  · exact hs.congr hancestors hgroups hactive

theorem recordsWalks_empty : Store.empty.RecordsWalks :=
  recordsWalks_of_eq_closure rfl

theorem recordsWalks_run (ids : IdSource) (clock : Timestamp) (policy : RetryPolicy)
    (steps : List Session.Step) :
    ((Session.start ids clock policy).run steps).committed.RecordsWalks := by
  refine (Session.committed_run (P := fun s => s.Coherent ∧ s.RecordsWalks)
    ⟨coherent_empty, recordsWalks_empty⟩ ?_ ids clock policy steps).2
  intro policy now call ids s reply s' ⟨hcoherent, hs⟩ hrun
  exact ⟨hcoherent.call hrun, hs.call hcoherent hrun⟩

end Store

end Courseware
