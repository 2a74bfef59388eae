import Courseware.Proofs.Ancestry

/-!
# The hierarchy of groups has no cycle

A relation is refused if the recorded ancestors tell that it would close a cycle. They are recorded
from walks of active memberships, and the moves of one request leave the walks to its group as they
were, since whoever they make a member becomes one of that same group. So the records are right
about these walks also in the midst of a request, when they were not recomputed yet, and no cycle
ever comes about (`GroupsAcyclic.call`).
-/

namespace Courseware

namespace Store

open Network

variable {s s' t : Store} {now : Timestamp}

/-! ### Cycles -/

/-- No active membership leads back to where a walk came from, be it ended or not. -/
def GroupsAcyclic (s : Store) : Prop :=
  ∀ parent child e, s.activeNetwork.contains (parent, child) = true →
    ¬ Walk s.activeNetwork child parent e

theorem walk_of_contains (h : ∀ k, t.activeNetwork.contains k = true →
      s.activeNetwork.contains k = true) {a b : GroupId} {e : Expiry}
    (hwalk : Walk t.activeNetwork a b e) : ∃ e', Walk s.activeNetwork a b e' := by
  apply hwalk.mono
  intro k d hk
  exact Table.contains_iff.1 (h k (Table.contains_of_get? hk))

theorem GroupsAcyclic.mono (hs : s.GroupsAcyclic) (h : ∀ k, t.activeNetwork.contains k = true →
      s.activeNetwork.contains k = true) : t.GroupsAcyclic := by
  intro parent child e hlink hwalk
  obtain ⟨e', hwalk'⟩ := walk_of_contains h hwalk
  exact hs parent child e' (h _ hlink) hwalk'

/-- A new member of a group from which no walk leads to the group closes no cycle. -/
theorem GroupsAcyclic.activate (hs : s.GroupsAcyclic) {parent child : GroupId}
    (h : ∀ k, t.activeNetwork.contains k = true →
      s.activeNetwork.contains k = true ∨ k = (parent, child))
    (hno : ∀ e, ¬ Walk s.activeNetwork child parent e) : t.GroupsAcyclic := by
  have hcross : ∀ a b e, Walk t.activeNetwork a b e → (∃ e, Walk s.activeNetwork a b e) ∨
      ((∃ e, Walk s.activeNetwork a parent e) ∧ ∃ e, Walk s.activeNetwork child b e) := by
    intro a b e hwalk
    have hinsert : ∀ k d, t.activeNetwork.get? k = some d →
        ∃ d', (s.activeNetwork.insert (parent, child) .never).get? k = some d' := by
      intro k d hk
      rw [← Table.contains_iff, Table.contains_insert, Bool.or_eq_true, decide_eq_true_eq]
      exact (h k (Table.contains_of_get? hk)).symm.imp_left Eq.symm
    obtain ⟨e', hwalk'⟩ := hwalk.mono hinsert
    exact hwalk'.of_insert
  intro a b e hlink hwalk
  rcases h _ hlink with hold | hnew
  · rcases hcross b a e hwalk with ⟨e', hback⟩ | ⟨⟨d, hup⟩, d', hdown⟩
    · exact hs a b e' hold hback
    · obtain ⟨f, hf⟩ := Table.contains_iff.1 hold
      obtain ⟨m, hclosed⟩ := (Walk.step hdown hf).trans hup
      exact hno m hclosed
  · obtain ⟨rfl, rfl⟩ := Prod.mk.inj hnew
    rcases hcross b a e hwalk with ⟨e', hup⟩ | ⟨⟨e', hup⟩, -⟩ <;> exact hno e' hup

/-! ### What is recorded about the ancestors of one group -/

/-- It is recorded from which groups walks lead to this one. -/
def KnowsAbove (s : Store) (parent : GroupId) : Prop :=
  ∀ a, s.isAncestor a parent = true ↔ ∃ e, Walk s.activeNetwork a parent e

theorem RecordsWalks.knowsAbove (hs : s.RecordsWalks) (hcoherent : s.Coherent) {parent : GroupId}
    (hparent : s.groups.contains parent = true) : s.KnowsAbove parent := by
  intro a
  rw [isAncestor, hs.contains_iff]
  refine ⟨And.right, fun hwalk => ⟨?_, hwalk⟩⟩
  obtain ⟨e, hwalk⟩ := hwalk
  by_contra hno
  obtain ⟨rfl, -⟩ := hcoherent.walk_eq hwalk (by simpa using hno)
  exact hno hparent

/-- A walk to a group does not pass a membership in this group, or did not need to. -/
theorem walk_to_parent {parent a : GroupId} (h : ∀ k, t.activeNetwork.contains k = true →
      s.activeNetwork.contains k = true ∨ k.1 = parent)
    {e : Expiry} (hwalk : Walk t.activeNetwork a parent e) :
    ∃ e', Walk s.activeNetwork a parent e' := by
  have key : ∀ b e, Walk t.activeNetwork a b e →
      (∃ e', Walk s.activeNetwork a parent e') ∨ ∃ e', Walk s.activeNetwork a b e' := by
    intro b e hwalk
    induction hwalk with
    | stay => exact Or.inr ⟨_, Walk.stay a⟩
    | step _ hlink ih =>
      rcases ih with hfound | ⟨e', hwalk'⟩
      · exact Or.inl hfound
      · rcases h _ (Table.contains_of_get? hlink) with hold | rfl
        · obtain ⟨d, hd⟩ := Table.contains_iff.1 hold
          exact Or.inr ⟨_, Walk.step hwalk' hd⟩
        · exact Or.inl ⟨e', hwalk'⟩
  exact (key parent e hwalk).elim id id

/-- A new membership would close a cycle. -/
def ClosesCycle (s : Store) (parent child : GroupId) : Prop :=
  parent = child ∨ ∃ e, Walk s.activeNetwork child parent e

/-- A relation is refused exactly if it would close a cycle. -/
theorem KnowsAbove.ensureNoCycle_eq_error {parent : GroupId} (hs : s.KnowsAbove parent)
    {child : GroupId} {fault : Fault} :
    s.ensureNoCycle parent child = .error fault ↔
      fault = .relationCycle parent child ∧ s.ClosesCycle parent child := by
  rw [ensureNoCycle, ClosesCycle, ← hs child]
  exact ite_error_eq_error

theorem KnowsAbove.not_walk {parent : GroupId} (hs : s.KnowsAbove parent) {child : GroupId}
    {u : Unit} (h : s.ensureNoCycle parent child = .ok u) (e : Expiry) :
    ¬ Walk s.activeNetwork child parent e := by
  intro hwalk
  have hfault := hs.ensureNoCycle_eq_error.2 ⟨rfl, Or.inr ⟨e, hwalk⟩⟩
  rw [h] at hfault
  simp at hfault

/-! ### Moves -/

section Moves

variable {group : Group} {r : RelationRequest} {action : Action} {child : GroupId}

/-- Moving a child may make it a member of the group. -/
theorem contains_activeNetwork_moveChild {out : TransitionResult × Bool}
    (h : s.moveChild group r action child now = .ok (out, s')) (k : GroupId × GroupId)
    (hk : s'.activeNetwork.contains k = true) :
    s.activeNetwork.contains k = true ∨ k = (r.parent, child) := by
  by_cases hne : (r.parent, child) = k
  · exact Or.inr hne.symm
  · rw [contains_activeNetwork_eq, get?_moveChild_of_ne hne h] at hk
    rw [contains_activeNetwork_eq]
    exact Or.inl hk

/-- Actions that do not end memberships leave the walks to the group as they were. -/
theorem KnowsAbove.moveChild {out : TransitionResult × Bool} (hs : s.KnowsAbove r.parent)
    (hkeeps : action.endsMembership = false)
    (h : s.moveChild group r action child now = .ok (out, s')) : s'.KnowsAbove r.parent := by
  obtain ⟨result, flipped⟩ := out
  have hancestors : s'.ancestors = s.ancestors := by
    obtain ⟨ms, n, rfl⟩ := (rejoins_moveChild h).frame
    rfl
  have hnew : ∀ k, s'.activeNetwork.contains k = true →
      s.activeNetwork.contains k = true ∨ k.1 = r.parent := by
    intro k hk
    exact (contains_activeNetwork_moveChild h k hk).imp_right fun heq => by rw [heq]
  have hold : ∀ k, s.activeNetwork.contains k = true → s'.activeNetwork.contains k = true := by
    intro k hk
    by_contra hne
    have hended := (shifts_moveChild h).direction k fun heq => hne (heq.trans hk)
    rw [hk, hkeeps] at hended
    simp at hended
  intro a
  rw [isAncestor, hancestors, ← isAncestor, hs a]
  constructor
  · intro hwalk
    obtain ⟨e, hwalk⟩ := hwalk
    exact walk_of_contains hold hwalk
  · intro hwalk
    obtain ⟨e, hwalk⟩ := hwalk
    exact walk_to_parent hnew hwalk

theorem GroupsAcyclic.moveChild {out : TransitionResult × Bool} (hs : s.GroupsAcyclic)
    (hknows : action.endsMembership = false → s.KnowsAbove r.parent)
    (h : s.moveChild group r action child now = .ok (out, s')) : s'.GroupsAcyclic := by
  obtain ⟨result, flipped⟩ := out
  by_cases hsame : ∀ k, s'.activeNetwork.contains k = true → s.activeNetwork.contains k = true
  · exact hs.mono hsame
  · -- Some membership has begun, so the action ends none and cycles were looked for.
    push Not at hsame
    obtain ⟨k, hk, hno⟩ := hsame
    obtain rfl := (contains_activeNetwork_moveChild h k hk).resolve_left hno
    rw [ne_eq, Bool.not_eq_true] at hno
    have hkeeps : action.endsMembership = false := by
      rw [← (shifts_moveChild h).direction (r.parent, child) (by rw [hk, hno]; simp), hno]
    rw [contains_activeNetwork_eq] at hno
    rcases moveChild_eq_ok h with ⟨-, -, rfl⟩ | ⟨standing, requested, approval, id, -, hguards, hput, -⟩
    · rw [contains_activeNetwork_eq, hno] at hk
      simp at hk
    · have hstanding : standing = .active := by
        obtain ⟨-, -, rfl⟩ := putMembership_eq_ok hput
        rw [contains_activeNetwork_eq, Table.get?_insert_self] at hk
        simpa [MembershipState.ofMembership, MembershipState.isActive] using hk
      exact hs.activate (contains_activeNetwork_moveChild h)
        ((hknows hkeeps).not_walk (hguards hstanding hno).2)

/-- Between two moves of a request, it is known from which groups walks lead to its group, and there
is still no cycle. -/
theorem KnowsAbove.moveChildren {children : List GroupId} {out : List TransitionResult × Bool}
    (hs : s.KnowsAbove r.parent) (hkeeps : action.endsMembership = false)
    (h : s.moveChildren group r action now children = .ok (out, s')) : s'.KnowsAbove r.parent :=
  moveChildren_keeps (P := fun t => t.KnowsAbove r.parent)
    (fun _ _ _ _ _ ht hone => ht.moveChild hkeeps hone) hs h

theorem GroupsAcyclic.moveChildren {children : List GroupId} {out : List TransitionResult × Bool}
    (hs : s.GroupsAcyclic) (hknows : action.endsMembership = false → s.KnowsAbove r.parent)
    (h : s.moveChildren group r action now children = .ok (out, s')) : s'.GroupsAcyclic :=
  (moveChildren_keeps
    (P := fun t => t.GroupsAcyclic ∧ (action.endsMembership = false → t.KnowsAbove r.parent))
    (fun _ _ _ _ _ ht hone => ⟨ht.1.moveChild ht.2 hone,
      fun hkeeps => (ht.2 hkeeps).moveChild hkeeps hone⟩) ⟨hs, hknows⟩ h).1

end Moves

/-! ### Calls -/

theorem GroupsAcyclic.of_memberships (hs : s.GroupsAcyclic)
    (h : ∀ k m, t.memberships.get? k = some m → s.memberships.get? k = some m) :
    t.GroupsAcyclic := by
  apply hs.mono
  intro k hk
  obtain ⟨m, hm, hactive⟩ := contains_activeNetwork.1 hk
  exact contains_activeNetwork.2 ⟨m, h k m hm, hactive⟩

theorem GroupsAcyclic.request (hs : s.GroupsAcyclic) (hrecords : s.RecordsWalks)
    (hcoherent : s.Coherent) {r : RelationRequest} {outcome : TransitionOutcome}
    (h : s.request r now = .ok (outcome, s')) : s'.GroupsAcyclic := by
  obtain ⟨group, action, out, u, hget, -, hmoves, hmemberships⟩ := moves_of_request h
  have hparent : s.groups.contains r.parent = true := Table.contains_of_get? hget
  have hmoved := hs.moveChildren (fun _ => hrecords.knowsAbove hcoherent hparent) hmoves
  exact hmoved.of_memberships fun k m hm => by rwa [hmemberships] at hm

theorem GroupsAcyclic.relate (hs : s.GroupsAcyclic) (hrecords : s.RecordsWalks)
    (hcoherent : s.Coherent) {parent child : GroupId} {terms : MembershipTerms}
    {change : ClosureChange} (h : s.relate parent child terms now = .ok (change, s')) :
    s'.GroupsAcyclic := by
  obtain ⟨t, hcreate, hsettle⟩ := relate_eq_ok h
  obtain ⟨gen, rs, rfl⟩ := settleClosure_frame hsettle
  obtain ⟨hcycle, id, u, hput, hclosure⟩ := createRelation_eq_ok hcreate
  obtain rfl := eq_of_recomputeClosure hclosure
  obtain ⟨hparent, -, rfl⟩ := putMembership_eq_ok hput
  refine hs.activate (fun k hk => ?_)
    ((hrecords.knowsAbove hcoherent hparent).not_walk hcycle)
  obtain ⟨m, hm, hactive⟩ := contains_activeNetwork.1 hk
  rw [Table.get?_insert] at hm
  split at hm
  · rename_i heq
    exact Or.inr heq.symm
  · rename_i hne
    rw [deleteMembership, Table.get?_erase, if_neg hne] at hm
    exact Or.inl (contains_activeNetwork.2 ⟨m, hm, hactive⟩)

theorem GroupsAcyclic.unrelate (hs : s.GroupsAcyclic) {parent child : GroupId}
    {allowOrphans : Bool} {deletion : RelationDeletion}
    (h : s.unrelate parent child allowOrphans now = .ok (deletion, s')) : s'.GroupsAcyclic :=
  hs.of_memberships (unrelate_kept h).1

/-- Other calls than those on relations leave the memberships alone. -/
theorem memberships_call {policy : RetryPolicy} {call : Call} {ids : IdSource} {reply : Reply}
    (hcall : call.rejoins = false) (hrun : (Call.run policy now call ids s).1 = .ok (reply, s')) :
    s'.memberships = s.memberships ∨
      ∃ r outcome, call = .transition r ∧ s.request r now = .ok (outcome, s') := by
  cases Effect.of_run hrun with
  | nothing hsame => exact Or.inl (by rw [hsame])
  | insertGroup hinsert =>
    obtain ⟨-, rfl⟩ := insertGroup_eq_ok hinsert
    exact Or.inl rfl
  | reclose hrejoins => rw [hcall] at hrejoins; simp at hrejoins
  | resettle hsettle =>
    obtain ⟨gen, rs, rfl⟩ := settleClosure_frame hsettle
    exact Or.inl rfl
  | deleteOrphans => simp [Call.rejoins] at hcall
  | transition hrequest => exact Or.inr ⟨_, _, rfl, hrequest⟩
  | appoint _ _ happointed => exact Or.inl (by rw [happointed])
  | insertItem hinsert =>
    obtain ⟨-, rfl⟩ := insertItem_eq_ok hinsert
    exact Or.inl rfl
  | link _ _ _ hsettle | unlink hsettle | grant _ _ hsettle | revoke hsettle =>
    obtain ⟨gen, rs, rfl⟩ := settlePairs_frame hsettle
    exact Or.inl rfl
  | sweep hsweep =>
    obtain ⟨gen, rs, rfl⟩ := sweep_frame hsweep
    exact Or.inl rfl
  | work hwork =>
    obtain ⟨_, _, _, _, rfl⟩ := hwork.onlyWork
    exact Or.inl rfl

end Store

/-- Whether it looks for cycles if it makes a relation. -/
def Call.looksForCycles : Call → Bool
  | .createRelations .. => false
  | _ => true

namespace Store

open Network

variable {s s' : Store} {now : Timestamp}

theorem GroupsAcyclic.call (hs : s.GroupsAcyclic) (hrecords : s.RecordsWalks)
    (hcoherent : s.Coherent) {policy : RetryPolicy} {call : Call} {ids : IdSource} {reply : Reply}
    (hlooks : call.looksForCycles = true)
    (hrun : (Call.run policy now call ids s).1 = .ok (reply, s')) : s'.GroupsAcyclic := by
  by_cases hrejoins : call.rejoins = true
  · cases call with
    | createRelation parent child terms =>
      obtain ⟨change, hrelate, -⟩ := Reply.onSuccess_eq_ok.1 hrun
      exact hs.relate hrecords hcoherent hrelate
    | createRelations pairs => simp [Call.looksForCycles] at hlooks
    | deleteRelation parent child allowOrphans =>
      obtain ⟨deletion, hunrelate, -⟩ := Reply.onSuccess_eq_ok.1 hrun
      exact hs.unrelate hunrelate
    | _ => simp [Call.rejoins] at hrejoins
  · rcases memberships_call (by simpa using hrejoins) hrun with hsame | ⟨r, outcome, -, hrequest⟩
    · exact hs.of_memberships fun k m hm => by rwa [hsame] at hm
    · exact hs.request hrecords hcoherent hrequest

end Store

end Courseware
