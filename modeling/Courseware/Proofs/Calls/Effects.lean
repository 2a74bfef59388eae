import Courseware.Proofs.Calls.Results

/-!
# What a successful call did

There is one case for each way in which calls change a store, and `Effect.of_run` says that there
are no others. What every call keeps is proved from these cases, without a look at the calls.
-/

namespace Courseware

/-- Whether it makes or breaks relations whatever their standing. -/
def Call.rejoins : Call → Bool
  | .createRelation .. | .createRelations .. | .deleteRelation .. => true
  | _ => false

/-- The relations that the call makes, whatever their standing was. -/
def Call.madeRelations : Call → List (GroupId × GroupId)
  | .createRelation parent child _ => [(parent, child)]
  | .createRelations pairs => pairs
  | _ => []

namespace Store

theorem Worked.of_run {s s' : Store} {policy : RetryPolicy} {now : Timestamp} {call : Call}
    {ids : IdSource} {reply : Reply} (harea : call.area = .results)
    (hrun : (Call.run policy now call ids s).1 = .ok (reply, s')) : Worked now s s' call := by
  cases call with
  | createAttempt participant rootItem parent =>
    obtain ⟨id, hstart, -⟩ := Reply.onSuccess_eq_ok.1 hrun
    obtain ⟨-, t, hinsert, hrest⟩ := startAttempt_eq_ok hstart
    rcases hrest with ⟨-, rfl⟩ | ⟨item, created, u, outcome, rfl, hresult, hsettle⟩
    · exact .start hinsert
    · exact .startOn hinsert hresult hsettle
  | submitAnswer key author text =>
    obtain ⟨id, hsubmit, -⟩ := Reply.onSuccess_eq_ok.1 hrun
    obtain ⟨t, outcome, hadd, hsettle⟩ := submitAnswer_eq_ok hsubmit
    exact .answer hadd hsettle
  | recordGrade event =>
    obtain ⟨status, hrecord, -⟩ := Reply.onSuccess_eq_ok.1 hrun
    rcases recordGrade_eq_ok hrecord with ⟨id, answer, hanswer, hresult, hgrade⟩ |
      ⟨id, t, hadd, hgrade⟩
    · exact .grade hanswer hresult hgrade
    · exact .gradeNew hadd hgrade
  | setEditRule key rule =>
    obtain ⟨-, outcome, hsettle⟩ := changeEditRule_eq_ok (Reply.doneOnSuccess_eq_ok.1 hrun).1
    exact .correct hsettle
  | propagateResults =>
    obtain ⟨outcome, hsettle, -⟩ := Reply.onSuccess_eq_ok.1 hrun
    exact .settle hsettle
  | _ => exact absurd harea (by simp [Call.area])

inductive Effect (now : Timestamp) (s s' : Store) : Call → Reply → Prop where
  /-- What was to be added was there, or what was to be removed was not. -/
  | nothing {call : Call} {reply : Reply} (hsame : s' = s) : Effect now s s' call reply
  | insertGroup {id : GroupId} {group : Group} {reply : Reply}
      (hinsert : s.insertGroup id group = .ok s') : Effect now s s' (.createGroup id group) reply
  | reclose {call : Call} {reply : Reply} {change : ClosureChange} {t : Store}
      (hcall : call.rejoins = true) (hreclosed : Reclosed change s t)
      (hsettle : t.settleClosure change now = .ok s') :
      Effect now s s' call reply
  /-- A relation to be deleted was not there, and yet the results were settled. -/
  | resettle {call : Call} {reply : Reply} (hsettle : s.settleClosure .none now = .ok s') :
      Effect now s s' call reply
  | deleteOrphans {parent child : GroupId} {allowOrphans : Bool} {deletion : RelationDeletion}
      {t : Store} (hdelete : s.deleteRelation parent child allowOrphans = .ok (deletion, t))
      (hdeleted : deletion.deletedGroups ≠ [])
      (hsettle : t.settleClosure deletion.closure now = .ok s') :
      Effect now s s' (.deleteRelation parent child allowOrphans) (.deletion deletion)
  | transition {r : RelationRequest} {outcome : TransitionOutcome}
      (hrequest : s.request r now = .ok (outcome, s')) :
      Effect now s s' (.transition r) (.transition outcome)
  | appoint {call : Call} {reply : Reply} {group manager : GroupId}
      (hgroup : s.groups.contains group = true) (hmanager : s.groups.contains manager = true)
      (happointed : s' = { s with managers := s.managers.add (group, manager) }) :
      Effect now s s' call reply
  | insertItem {call : Call} {reply : Reply} {id : ItemId} {item : Item}
      (hinsert : s.insertItem id item = .ok s') : Effect now s s' call reply
  | link {reply : Reply} {parent child : ItemId} {link : Link} {outcome : PermissionOutcome}
      (hparent : s.items.contains parent = true)
      (hchild : s.items.contains child = true) (hreach : s.linkNetwork.reaches child parent = false)
      (hsettle : ((s.withLink parent child link).markItemResults child .toBePropagated).2.settlePairs
        ((s.withLink parent child link).pairsForLink parent child) now = .ok (outcome, s')) :
      Effect now s s' (.createLink parent child link) reply
  | unlink {call : Call} {reply : Reply} {parent child : ItemId} {outcome : PermissionOutcome}
      (hsettle : ((s.withoutLink parent child).markItemResults parent .toBeRecomputed).2.settlePairs
        (s.pairsForLink parent child) now = .ok (outcome, s')) : Effect now s s' call reply
  | grant {call : Call} {reply : Reply} {group : GroupId} {item : ItemId} {giver : GroupId}
      {grant : Grant} {outcome : PermissionOutcome} (hgroup : s.groups.contains group = true)
      (hitem : s.items.contains item = true)
      (hsettle : { s with grants := s.grants.insert (group, item, giver) grant }.settlePairs
        (s.pairsForGrant group item) now = .ok (outcome, s')) : Effect now s s' call reply
  | revoke {call : Call} {reply : Reply} {group : GroupId} {item : ItemId} {giver : GroupId}
      {outcome : PermissionOutcome}
      (hsettle : { s with grants := s.grants.erase (group, item, giver) }.settlePairs
        (s.pairsForGrant group item) now = .ok (outcome, s')) : Effect now s s' call reply
  | sweep {call : Call} {reply : Reply} {outcome : PermissionOutcome}
      (hsweep : s.sweep now = .ok (outcome, s')) : Effect now s s' call reply
  | work {call : Call} {reply : Reply} (hwork : Worked now s s' call) : Effect now s s' call reply

theorem Effect.of_run {s s' : Store} {policy : RetryPolicy} {now : Timestamp} {call : Call}
    {ids : IdSource} {reply : Reply}
    (hrun : (Call.run policy now call ids s).1 = .ok (reply, s')) : Effect now s s' call reply := by
  cases call with
  | createGroup id group =>
    exact .insertGroup (Fault.lift_eq_ok.1 (Reply.doneOnSuccess_eq_ok.1 hrun).1)
  | createRelation parent child terms =>
    obtain ⟨change, hrelate, -⟩ := Reply.onSuccess_eq_ok.1 hrun
    obtain ⟨t, hcreate, hsettle⟩ := relate_eq_ok hrelate
    exact .reclose rfl (reclosed_createRelation hcreate) hsettle
  | createRelations pairs =>
    obtain ⟨change, hrelate, -⟩ := Reply.onSuccess_eq_ok.1 hrun
    obtain ⟨t, hcreate, hsettle⟩ := relateAll_eq_ok hrelate
    exact .reclose rfl (createRelations_eq_ok hcreate) hsettle
  | deleteRelation parent child allowOrphans =>
    obtain ⟨deletion, hunrelate, hreply⟩ := Reply.onSuccess_eq_ok.1 hrun
    obtain ⟨t, hdelete, hsettle⟩ := unrelate_eq_ok hunrelate
    subst hreply
    rcases deleteRelation_eq_ok hdelete with ⟨-, rfl, rfl⟩ | ⟨hremoved, -⟩ | ⟨hdeleted, -⟩
    · exact .resettle hsettle
    · exact .reclose rfl (reclosed_deleteMembership hremoved) hsettle
    · exact .deleteOrphans hdelete hdeleted hsettle
  | transition r =>
    obtain ⟨outcome, hrequest, hreply⟩ := Reply.onSuccess_eq_ok.1 hrun
    subst hreply
    exact .transition hrequest
  | setManager group manager =>
    obtain ⟨new, happoint, -⟩ := Reply.onSuccess_eq_ok.1 hrun
    rcases appoint_eq_ok happoint with hsame | ⟨hgroup, hmanager, happointed⟩
    · exact .nothing hsame
    · exact .appoint hgroup hmanager happointed
  | createItem id item =>
    exact .insertItem (Fault.lift_eq_ok.1 (Reply.doneOnSuccess_eq_ok.1 hrun).1)
  | createLink parent child link =>
    obtain ⟨hparent, hchild, hreach, outcome, hsettle⟩ :=
      createLink_eq_ok (Reply.doneOnSuccess_eq_ok.1 hrun).1
    exact .link hparent hchild hreach hsettle
  | deleteLink parent child =>
    obtain ⟨found, hremove, -⟩ := Reply.onSuccess_eq_ok.1 hrun
    rcases removeLink_eq_ok hremove with hsame | ⟨outcome, hsettle⟩
    · exact .nothing hsame
    · exact .unlink hsettle
  | grant group item giver levels =>
    obtain ⟨outcome, hgive, -⟩ := Reply.onSuccess_eq_ok.1 hrun
    obtain ⟨hgroup, hitem, hsettle⟩ := giveGrant_eq_ok hgive
    exact .grant hgroup hitem hsettle
  | revoke group item giver =>
    obtain ⟨outcome, hrevoke, -⟩ := Reply.onSuccess_eq_ok.1 hrun
    rcases revokeGrant_eq_ok hrevoke with hsame | hsettle
    · exact .nothing hsame
    · exact .revoke hsettle
  | sweep =>
    rw [Call.run_sweep] at hrun
    obtain ⟨outcome, hsweep, -⟩ := Reply.onSuccess_eq_ok.1 hrun
    exact .sweep hsweep
  | createAttempt | submitAnswer | recordGrade | setEditRule | propagateResults =>
    exact .work (.of_run rfl hrun)

/-- Only a change of groups reports a deletion. -/
theorem area_of_deletion {s s' : Store} {policy : RetryPolicy} {now : Timestamp} {call : Call}
    {ids : IdSource} {deletion : RelationDeletion}
    (hrun : (Call.run policy now call ids s).1 = .ok (.deletion deletion, s')) :
    call.area = .groups := by
  cases call with
  | createGroup | createRelation | createRelations | deleteRelation | transition | setManager => rfl
  | createItem | createLink | setEditRule =>
    obtain ⟨-, hreply⟩ := Reply.doneOnSuccess_eq_ok.1 hrun
    simp at hreply
  | sweep =>
    rw [Call.run_sweep] at hrun
    obtain ⟨_, -, hreply⟩ := Reply.onSuccess_eq_ok.1 hrun
    simp at hreply
  | deleteLink | grant | revoke | createAttempt | submitAnswer | recordGrade | propagateResults =>
    obtain ⟨_, -, hreply⟩ := Reply.onSuccess_eq_ok.1 hrun
    simp at hreply

end Store

end Courseware
