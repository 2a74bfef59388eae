import Courseware.Proofs.Integrity

/-!
# Memberships in the course of a run

A relation can be made whatever its standing. Apart from that, a membership that is there after a
call was there before as it is, in the same group, unless the call was a request about it
(`keepsMembership_call`). So what is known of a membership has come about by requests
(`membership_step`).
-/

namespace Courseware

namespace Store

variable {s s' t : Store} {parent child : GroupId} {now : Timestamp}

/-- If there is a membership now, it was there before as it is, in the same group. -/
def KeepsMembership (s s' : Store) (parent child : GroupId) : Prop :=
  ∀ m, s'.memberships.get? (parent, child) = some m →
    s.memberships.get? (parent, child) = some m ∧
      ∀ group, s'.groups.get? parent = some group → s.groups.get? parent = some group

theorem keepsMembership_of_same (hgroups : s'.groups = s.groups)
    (hm : s'.memberships.get? (parent, child) = s.memberships.get? (parent, child)) :
    KeepsMembership s s' parent child := by
  intro m hafter
  rw [hm] at hafter
  exact ⟨hafter, fun group hgroup => by rwa [hgroups] at hgroup⟩

theorem KeepsMembership.trans (hst : KeepsMembership s t parent child)
    (htu : KeepsMembership t s' parent child) : KeepsMembership s s' parent child := by
  intro m hm
  obtain ⟨hm, hlater⟩ := htu m hm
  obtain ⟨hm, hfirst⟩ := hst m hm
  exact ⟨hm, fun group hgroup => hfirst group (hlater group hgroup)⟩

theorem keepsMembership_putMembership {other member : GroupId} {standing : Standing}
    {leaveRequested : Bool} {terms : MembershipTerms} {id : EdgeId}
    (hne : (other, member) ≠ (parent, child))
    (h : s.putMembership other member standing leaveRequested terms now = .ok (id, s')) :
    KeepsMembership s s' parent child := by
  obtain ⟨-, -, rfl⟩ := putMembership_eq_ok h
  refine keepsMembership_of_same rfl ?_
  rw [Table.get?_insert, if_neg hne]

theorem keepsMembership_relate {other member : GroupId} {terms : MembershipTerms}
    {change : ClosureChange} (hne : (other, member) ≠ (parent, child))
    (h : s.relate other member terms now = .ok (change, s')) :
    KeepsMembership s s' parent child := by
  obtain ⟨t, hcreate, hsettle⟩ := relate_eq_ok h
  obtain ⟨gen, rs, rfl⟩ := settleClosure_frame hsettle
  obtain ⟨-, id, u, hput, hclosure⟩ := createRelation_eq_ok hcreate
  obtain rfl := congrArg Prod.snd hclosure
  have hdeleted : KeepsMembership s (s.deleteMembership other member).2 parent child := by
    refine keepsMembership_of_same rfl ?_
    rw [deleteMembership, Table.get?_erase, if_neg hne]
  have hput : KeepsMembership (s.deleteMembership other member).2 u parent child :=
    keepsMembership_putMembership hne hput
  exact (hdeleted.trans hput).trans (keepsMembership_of_same rfl rfl)

theorem keepsMembership_activateAll {pairs : List (GroupId × GroupId)}
    (hspares : (parent, child) ∉ pairs) (h : s.activateAll now pairs = .ok s') :
    KeepsMembership s s' parent child := by
  induction pairs generalizing s with
  | nil =>
    rw [activateAll, Except.ok.injEq] at h
    exact keepsMembership_of_same (by rw [h]) (by rw [h])
  | cons pair rest ih =>
    rw [activateAll] at h
    obtain ⟨⟨id, t⟩, hput, h⟩ := bind_eq_ok.1 h
    rw [List.mem_cons, not_or] at hspares
    exact (keepsMembership_putMembership (Ne.symm hspares.1) hput).trans (ih hspares.2 h)

theorem keepsMembership_relateAll {pairs : List (GroupId × GroupId)} {change : ClosureChange}
    (hspares : (parent, child) ∉ pairs) (h : s.relateAll pairs now = .ok (change, s')) :
    KeepsMembership s s' parent child := by
  obtain ⟨t, hcreate, hsettle⟩ := relateAll_eq_ok h
  obtain ⟨gen, rs, rfl⟩ := settleClosure_frame hsettle
  rw [createRelations] at hcreate
  obtain ⟨u, hall, hclosure⟩ := bind_eq_ok.1 hcreate
  obtain rfl := congrArg Prod.snd (Except.ok.inj hclosure)
  have hall : KeepsMembership s u parent child :=
    keepsMembership_activateAll hspares (Fault.lift_eq_ok.1 hall)
  exact hall.trans (keepsMembership_of_same rfl rfl)

theorem keepsMembership_unrelate {other member : GroupId} {allowOrphans : Bool}
    {deletion : RelationDeletion}
    (h : s.unrelate other member allowOrphans now = .ok (deletion, s')) :
    KeepsMembership s s' parent child := by
  obtain ⟨hmemberships, hgroups⟩ := unrelate_kept h
  exact fun m hm => ⟨hmemberships _ m hm, hgroups parent⟩

/-- A new group has no members yet. -/
theorem keepsMembership_insertGroup (hs : s.Coherent) {id : GroupId} {group : Group}
    (h : s.insertGroup id group = .ok s') : KeepsMembership s s' parent child := by
  obtain ⟨hnew, rfl⟩ := insertGroup_eq_ok h
  intro m hm
  have hstored := (hs.memberships _ (Table.contains_of_get? hm)).1
  refine ⟨hm, fun known hknown => ?_⟩
  rwa [Table.get?_insert_of_contains group hnew hstored] at hknown

theorem keepsMembership_request {r : RelationRequest} {outcome : TransitionOutcome}
    (hne : ¬ (r.parent = parent ∧ child ∈ r.children))
    (h : s.request r now = .ok (outcome, s')) : KeepsMembership s s' parent child := by
  refine keepsMembership_of_same (groups_request h) (get?_request_of_ne (fun c hc heq => ?_) h)
  obtain ⟨rfl, rfl⟩ := Prod.mk.inj heq
  exact hne ⟨rfl, hc⟩

/-- Calls that make relations leave the groups alone. -/
theorem groups_of_madeRelations {policy : RetryPolicy} {call : Call} {ids : IdSource}
    {reply : Reply} (hmade : (parent, child) ∈ call.madeRelations)
    (hrun : (Call.run policy now call ids s).1 = .ok (reply, s')) : s'.groups = s.groups := by
  cases call with
  | createRelation other member terms =>
    obtain ⟨change, hrelate, -⟩ := Reply.onSuccess_eq_ok.1 hrun
    obtain ⟨t, hcreate, hsettle⟩ := relate_eq_ok hrelate
    obtain ⟨gen, rs, rfl⟩ := settleClosure_frame hsettle
    exact (reclosed_createRelation hcreate).groups_eq
  | createRelations pairs =>
    obtain ⟨change, hrelate, -⟩ := Reply.onSuccess_eq_ok.1 hrun
    obtain ⟨t, hcreate, hsettle⟩ := relateAll_eq_ok hrelate
    obtain ⟨gen, rs, rfl⟩ := settleClosure_frame hsettle
    exact (createRelations_eq_ok hcreate).groups_eq
  | _ => simp [Call.madeRelations] at hmade

/-- What is left of a membership after a call that does not make it, is as it was, unless the call
was a request about it. -/
theorem keepsMembership_call (hs : s.Coherent) {policy : RetryPolicy} {call : Call}
    {ids : IdSource} {reply : Reply} (hspares : (parent, child) ∉ call.madeRelations)
    (hrun : (Call.run policy now call ids s).1 = .ok (reply, s')) :
    KeepsMembership s s' parent child ∨ ∃ r outcome, call = .transition r ∧ r.parent = parent ∧
      child ∈ r.children ∧ s.request r now = .ok (outcome, s') := by
  by_cases hrejoins : call.rejoins = true
  · left
    cases call with
    | createRelation other member terms =>
      obtain ⟨change, hrelate, -⟩ := Reply.onSuccess_eq_ok.1 hrun
      exact keepsMembership_relate (by simpa [Call.madeRelations, eq_comm] using hspares) hrelate
    | createRelations pairs =>
      obtain ⟨change, hrelate, -⟩ := Reply.onSuccess_eq_ok.1 hrun
      exact keepsMembership_relateAll hspares hrelate
    | deleteRelation other member allowOrphans =>
      obtain ⟨deletion, hunrelate, -⟩ := Reply.onSuccess_eq_ok.1 hrun
      exact keepsMembership_unrelate hunrelate
    | _ => simp [Call.rejoins] at hrejoins
  · cases Effect.of_run hrun with
    | nothing hsame => exact Or.inl (keepsMembership_of_same (by rw [hsame]) (by rw [hsame]))
    | insertGroup hinsert => exact Or.inl (keepsMembership_insertGroup hs hinsert)
    | reclose hcall => exact absurd hcall hrejoins
    | resettle hsettle =>
      obtain ⟨gen, rs, rfl⟩ := settleClosure_frame hsettle
      exact Or.inl (keepsMembership_of_same rfl rfl)
    | deleteOrphans => simp [Call.rejoins] at hrejoins
    | @transition r outcome hrequest =>
      by_cases hnamed : r.parent = parent ∧ child ∈ r.children
      · exact Or.inr ⟨r, outcome, rfl, hnamed.1, hnamed.2, hrequest⟩
      · exact Or.inl (keepsMembership_request hnamed hrequest)
    | appoint _ _ happointed =>
      exact Or.inl (keepsMembership_of_same (by rw [happointed]) (by rw [happointed]))
    | insertItem hinsert =>
      obtain ⟨-, rfl⟩ := insertItem_eq_ok hinsert
      exact Or.inl (keepsMembership_of_same rfl rfl)
    | link _ _ _ hsettle | unlink hsettle | grant _ _ hsettle | revoke hsettle =>
      obtain ⟨gen, rs, rfl⟩ := settlePairs_frame hsettle
      exact Or.inl (keepsMembership_of_same rfl rfl)
    | sweep hsweep =>
      obtain ⟨gen, rs, rfl⟩ := sweep_frame hsweep
      exact Or.inl (keepsMembership_of_same rfl rfl)
    | work hwork =>
      obtain ⟨_, _, _, _, rfl⟩ := hwork.onlyWork
      exact Or.inl (keepsMembership_of_same rfl rfl)

end Store

namespace Session

open Store

variable {s : Session} {step : Step} {parent child : GroupId}

/-- No successful call makes `child` a member of `parent` whatever the standing was. -/
def Spares (parent child : GroupId) (s : Session) : Step → Prop
  | .call call => (s.perform call).1.isOk = true → (parent, child) ∉ call.madeRelations
  | _ => True

instance decidableSpares (parent child : GroupId) (s : Session) :
    ∀ step, Decidable (s.Spares parent child step)
  | .call call =>
    inferInstanceAs (Decidable ((s.perform call).1.isOk = true → (parent, child) ∉ call.madeRelations))
  | .advance _ => isTrue trivial
  | .setClock _ => isTrue trivial

/-- The step is a successful request about `child` in `parent`. -/
structure Requests (parent child : GroupId) (s : Session) (step : Step) (r : RelationRequest) :
    Prop where
  step : step = .call (.transition r)
  parent : r.parent = parent
  child : child ∈ r.children
  succeeds : (s.perform (.transition r)).1.isOk = true

/-- What is left of a membership after a step that does not make it, is as it was, unless the step
was a request about it. -/
theorem membership_step (hs : s.Idle) (hcoherent : s.committed.Coherent)
    (hspares : s.Spares parent child step) :
    KeepsMembership s.committed (s.step step).committed parent child ∨
      ∃ r outcome, s.Requests parent child step r ∧
        s.committed.request r s.clock = .ok (outcome, (s.step step).committed) := by
  rcases committed_step hs step with heq | ⟨call, reply, rfl, hrun⟩
  · exact Or.inl (keepsMembership_of_same (by rw [heq]) (by rw [heq]))
  · have hok : (s.perform call).1.isOk = true := by
      rw [(perform_of_outcome hs hrun).1]
      rfl
    rcases keepsMembership_call hcoherent (hspares hok) hrun with
      hkeeps | ⟨r, outcome, rfl, hparent, hchild, hrequest⟩
    · exact Or.inl hkeeps
    · exact Or.inr ⟨r, outcome, ⟨rfl, hparent, hchild, hok⟩, hrequest⟩

end Session

end Courseware
