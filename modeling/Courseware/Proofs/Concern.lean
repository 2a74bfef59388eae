import Courseware.Proofs.Exactness

/-!
# Pairs that a change concerns

Every change settles some pairs: those below a group that is granted something, those with access to
an end of a link, those of groups that gained or lost an ancestor. No other pair needs to be looked
at. Whatever a look at a pair brings about, depends on the row of the pair and on what it is due
alone, and leaves nothing due without a row (`DueLaw`), holds of all pairs after a call if it held of
all before (`DueLaw.call`), as long as the call deletes no group.
-/

namespace Courseware

open Store

/-- A property of pairs that a look at a pair brings about, that depends on the row of the pair and
on what it is due, and by which no row is without tiers and nothing is due without a row. -/
structure DueLaw (now : Timestamp) (P : Store → Pair → Prop) : Prop where
  fresh : ∀ {s : Store} {q : Pair}, s.Fresh now q → P s q
  congr : ∀ {s t : Store} {q : Pair}, P s q → t.generated.get? q = s.generated.get? q →
    (∀ later, t.dueTiers q later = s.dueTiers q later) → P t q
  filled : ∀ {s : Store} {q : Pair} {row : Generated}, P s q → s.generated.get? q = some row →
    row.tiers.isEmpty = false
  bare : ∀ {s : Store} {q : Pair}, P s q → s.generated.get? q = none → s.dueTiers q now = ∅

namespace Store

variable {s t : Store} {q : Pair} {now later : Timestamp}

theorem fresh_of_none (hnone : s.generated.get? q = none) (hdue : s.dueTiers q now = ∅) :
    s.Fresh now q := by
  rw [Fresh, hnone, hdue, freshRow, if_pos (Tiers.isEmpty_iff.2 rfl)]

@[simp] theorem get_inherit_empty (mode : PartialAccess) (c : Component) :
    ((∅ : Tiers).inherit mode).get c = [] := by
  cases mode <;> cases c <;> rfl

/-! ### Links and grants -/

/-- A link that is put or taken away does not concern groups without access to either end. -/
theorem inherited_of_relinked {parent child : ItemId} (hitems : t.items = s.items)
    (hgenerated : t.generated = s.generated)
    (hlinks : ∀ k, k ≠ (parent, child) → t.links.get? k = s.links.get? k)
    (hmem : q ∉ s.pairsForLink parent child) (c : Component) (tier : Tier) :
    t.Inherited q c tier ↔ s.Inherited q c tier := by
  rw [mem_pairsForLink, not_and, not_or, Bool.not_eq_true, ← Table.get?_eq_none_iff] at hmem
  have hother : ∀ whole mode, tier ∈ ((s.tiersOf (q.1, whole)).inherit mode).get c →
      t.links.get? (whole, q.2) = s.links.get? (whole, q.2) := by
    intro whole mode htier
    refine hlinks _ fun heq => ?_
    obtain ⟨rfl, hpart⟩ := Prod.mk.inj heq
    rw [tiersOf_of_none (hmem hpart).1, get_inherit_empty] at htier
    exact absurd htier List.not_mem_nil
  have htiers : ∀ p, t.tiersOf p = s.tiersOf p := fun p => tiersOf_congr (by rw [hgenerated])
  rw [Inherited, Inherited, hitems]
  simp only [htiers]
  constructor
  · rintro ⟨whole, link, item, hlink, hitem, hcustom, htier⟩
    rw [hother whole _ htier] at hlink
    exact ⟨whole, link, item, hlink, hitem, hcustom, htier⟩
  · rintro ⟨whole, link, item, hlink, hitem, hcustom, htier⟩
    rw [← hother whole _ htier] at hlink
    exact ⟨whole, link, item, hlink, hitem, hcustom, htier⟩

/-- A grant that is put or taken away does not concern other items or groups that are not below. -/
theorem granted_of_regranted {group : GroupId} {item : ItemId} {giver : GroupId}
    (hancestors : t.ancestors = s.ancestors)
    (hgrants : ∀ k, k ≠ (group, item, giver) → t.grants.get? k = s.grants.get? k)
    (hmem : q ∉ s.pairsForGrant group item) (c : Component) (tier : Tier) :
    t.Granted q later c tier ↔ s.Granted q later c tier := by
  rw [mem_pairsForGrant] at hmem
  have hnow : ∀ a, t.isAncestorAt a q.1 later = s.isAncestorAt a q.1 later := fun a => by
    rw [isAncestorAt, isAncestorAt, hancestors]
  have hother : ∀ k : GroupId × ItemId × GroupId, k.2.1 = q.2 →
      s.isAncestorAt k.1 q.1 later = true → t.grants.get? k = s.grants.get? k := by
    rintro k hitem hancestor
    refine hgrants k fun heq => hmem ?_
    subst heq
    obtain ⟨row, hrow, -⟩ := isAncestorAt_iff.1 hancestor
    exact ⟨Table.contains_of_get? hrow, hitem.symm⟩
  simp only [Granted, hnow]
  constructor
  · rintro ⟨k, grant, hget, hitem, hancestor, htier⟩
    rw [hother k hitem hancestor] at hget
    exact ⟨k, grant, hget, hitem, hancestor, htier⟩
  · rintro ⟨k, grant, hget, hitem, hancestor, htier⟩
    rw [← hother k hitem hancestor] at hget
    exact ⟨k, grant, hget, hitem, hancestor, htier⟩

end Store

namespace DueLaw

variable {s s' t : Store} {now : Timestamp} {P : Store → Pair → Prop}

theorem pairLaw (hlaw : DueLaw now P) : PairLaw now P :=
  .of_fresh (fun _ _ h => hlaw.fresh h) fun _ _ _ hrow hdue _ h => hlaw.congr h hrow hdue

theorem rowsFilled (hlaw : DueLaw now P) (h : ∀ q, P s q) : s.RowsFilled :=
  fun q _ hrow => hlaw.filled (h q) hrow

/-- Settling looks at every pair that may have been spoiled. -/
theorem settlePairs (hlaw : DueLaw now P) (hlayered : s.Layered) (hfilled : s.RowsFilled)
    {pairs : List Pair} {outcome : PermissionOutcome} (h : ∀ q, q ∉ pairs → P s q)
    (hsettle : s.settlePairs pairs now = .ok (outcome, s')) : ∀ q, P s' q := by
  have hsettled : ∀ q, P (s.propagatePermissions (.ofKeys pairs) now).2 q := by
    refine hlaw.pairLaw.propagate hlayered hfilled fun q => ?_
    by_cases hmem : q ∈ pairs
    · exact Or.inl hmem
    · exact Or.inr (h q hmem)
  obtain ⟨rs, rfl⟩ := (resultsGrow_settlePairs hsettle).frame
  exact fun q => hlaw.congr (hsettled q) rfl fun _ => rfl

/-! ### Groups -/

theorem insertGroup (hlaw : DueLaw now P) (h : ∀ q, P s q) (hcoherent : s.Coherent) {id : GroupId}
    {group : Group} (hinsert : s.insertGroup id group = .ok s') : ∀ q, P s' q := by
  obtain ⟨hnew, rfl⟩ := insertGroup_eq_ok hinsert
  refine fun q => hlaw.congr (h q) rfl fun later =>
    dueTiers_congr (fun c tier => ?_) fun _ _ => Iff.rfl
  refine granted_congr rfl fun k hk => ?_
  -- Nothing is granted to a group that is not there yet.
  have hne : (id, id) ≠ (k.1, q.1) := by
    rintro heq
    have hgroup := (hcoherent.grants k hk).1
    rw [← (Prod.mk.inj heq).1, hnew] at hgroup
    exact absurd hgroup (by simp)
  dsimp only
  split
  · rfl
  · rw [Table.get?_insert, if_neg hne]

/-- A change of ancestors does not concern pairs whose group has kept its ancestors, nor those
without a row to which no ancestor brings a grant. -/
theorem settleClosure (hlaw : DueLaw now P) (h : ∀ q, P s q) (hlayered : s.Layered)
    {change : ClosureChange} (hitems : t.items = s.items) (hlinks : t.links = s.links)
    (hgrants : t.grants = s.grants) (hgenerated : t.generated = s.generated)
    (hancestors : ∀ a d, change.changedGroups.contains d = false →
      t.ancestors.get? (a, d) = s.ancestors.get? (a, d))
    (hsettle : t.settleClosure change now = .ok s') : ∀ q, P s' q := by
  have hinherited : ∀ q c tier, t.Inherited q c tier ↔ s.Inherited q c tier := fun q c tier =>
    inherited_congr hlinks (fun _ _ => by rw [hitems]) fun _ _ => tiersOf_congr (by rw [hgenerated])
  have hfilled : t.RowsFilled := (hlaw.rowsFilled h).of_rows fun q g hg => by
    rwa [hgenerated] at hg
  obtain ⟨outcome, hpairs⟩ := settleClosure_eq_ok hsettle
  refine hlaw.settlePairs (hlayered.congr hitems hlinks) hfilled (fun q hmem => ?_) hpairs
  cases hsame : change.changedGroups.contains q.1 with
  | false =>
    refine hlaw.congr (h q) (by rw [hgenerated]) fun later =>
      dueTiers_congr (fun c tier => ?_) (hinherited q)
    exact granted_congr hgrants fun k _ => hancestors k.1 q.1 hsame
  | true =>
    rw [mem_pairsForClosure, not_and, not_or, Bool.not_eq_true, ← Table.get?_eq_none_iff] at hmem
    obtain ⟨hnone, hnogrant⟩ := hmem hsame
    refine hlaw.fresh (fresh_of_none hnone (dueTiers_eq_empty.2 fun c tier => ?_))
    rw [hgenerated] at hnone
    rw [hinherited]
    exact ⟨fun hgranted => hnogrant hgranted.exists_effective,
      (dueTiers_eq_empty.1 (hlaw.bare (h q) hnone) c tier).2⟩

theorem reclosed (hlaw : DueLaw now P) (h : ∀ q, P s q) (hlayered : s.Layered)
    {change : ClosureChange} (hreclosed : Reclosed change s t)
    (hsettle : t.settleClosure change now = .ok s') : ∀ q, P s' q := by
  obtain ⟨u, hjoin, hclosure⟩ := hreclosed
  obtain ⟨ms, n, hu⟩ := hjoin.frame
  have hancestors : ∀ a d, change.changedGroups.contains d = false →
      t.ancestors.get? (a, d) = s.ancestors.get? (a, d) := by
    intro a d hsame
    have hkept := get?_ancestors_recomputeClosure (s := u) (a := a) (d := d)
    rw [hclosure] at hkept
    rw [hkept hsame, hu]
  have ht : t = { u with ancestors := u.closure } := eq_of_recomputeClosure hclosure
  refine hlaw.settleClosure h hlayered ?_ ?_ ?_ ?_ hancestors hsettle
  all_goals rw [ht, hu]

/-- A change of no ancestors concerns nothing. -/
theorem settleNone (hlaw : DueLaw now P) (h : ∀ q, P s q) (hlayered : s.Layered)
    (hitems : t.items = s.items) (hlinks : t.links = s.links) (hgrants : t.grants = s.grants)
    (hgenerated : t.generated = s.generated) (hancestors : t.ancestors = s.ancestors)
    (hsettle : t.settleClosure .none now = .ok s') : ∀ q, P s' q :=
  hlaw.settleClosure h hlayered hitems hlinks hgrants hgenerated
    (fun _ _ _ => by rw [hancestors]) hsettle

theorem request (hlaw : DueLaw now P) (h : ∀ q, P s q) (hlayered : s.Layered)
    {r : RelationRequest} {outcome : TransitionOutcome}
    (hrequest : s.request r now = .ok (outcome, s')) : ∀ q, P s' q := by
  rcases request_settles hrequest with ⟨t, hreclosed, hsettle⟩ | ⟨t, hjoin, hsettle⟩
  · exact hlaw.reclosed h hlayered hreclosed hsettle
  · obtain ⟨ms, n, ht⟩ := hjoin.frame
    refine hlaw.settleNone h hlayered ?_ ?_ ?_ ?_ ?_ hsettle
    all_goals rw [ht]

/-! ### Items -/

theorem insertItem (hlaw : DueLaw now P) (h : ∀ q, P s q) (hlayered : s.Layered) {id : ItemId}
    {item : Item} (hinsert : s.insertItem id item = .ok s') : ∀ q, P s' q := by
  obtain ⟨hnew, rfl⟩ := insertItem_eq_ok hinsert
  refine fun q => hlaw.congr (h q) rfl fun later =>
    dueTiers_congr (fun _ _ => Iff.rfl) fun c tier => ?_
  refine inherited_congr rfl (fun whole hlink => ?_) fun _ _ => rfl
  -- A new item is not part of anything yet.
  have hne : id ≠ whole := by
    rintro rfl
    rw [(hlayered.links _ hlink).1] at hnew
    exact absurd hnew (by simp)
  rw [Table.get?_insert, if_neg hne]

theorem relink (hlaw : DueLaw now P) (h : ∀ q, P s q) {parent child : ItemId} {u : Store}
    (hlayered : t.Layered) (hitems : t.items = s.items) (hgrants : t.grants = s.grants)
    (hgenerated : t.generated = s.generated) (hancestors : t.ancestors = s.ancestors)
    (hlinks : ∀ k, k ≠ (parent, child) → t.links.get? k = s.links.get? k)
    (hmarks : t.ResultsGrow u) {outcome : PermissionOutcome}
    (hsettle : u.settlePairs (s.pairsForLink parent child) now = .ok (outcome, s')) :
    ∀ q, P s' q := by
  obtain ⟨rs, hu⟩ := hmarks.frame
  have hfilled : u.RowsFilled := (hlaw.rowsFilled h).of_rows fun q g hg => by
    rwa [hu, hgenerated] at hg
  refine hlaw.settlePairs (hlayered.congr ?_ ?_) hfilled (fun q hmem => ?_) hsettle
  · rw [hu]
  · rw [hu]
  · refine hlaw.congr (h q) (by rw [hu, hgenerated]) fun later => ?_
    refine dueTiers_congr (fun c tier => granted_congr ?_ fun k _ => ?_)
      (inherited_of_relinked ?_ ?_ (fun k hk => ?_) hmem)
    · rw [hu, hgrants]
    · rw [hu, hancestors]
    · rw [hu, hitems]
    · rw [hu, hgenerated]
    · rw [hu, hlinks k hk]

theorem link (hlaw : DueLaw now P) (h : ∀ q, P s q) (hcoherent : s.Coherent)
    {parent child : ItemId} (link : Link) (hparent : s.items.contains parent = true)
    (hchild : s.items.contains child = true)
    (hreach : s.linkNetwork.reaches child parent = false) {outcome : PermissionOutcome}
    (hsettle : ((s.withLink parent child link).markItemResults child .toBePropagated).2.settlePairs
      ((s.withLink parent child link).pairsForLink parent child) now = .ok (outcome, s')) :
    ∀ q, P s' q := by
  refine hlaw.relink h (hcoherent.withLink link hparent hchild hreach).toLayered rfl rfl rfl rfl
    (fun k hk => ?_) (resultsGrow_markResults _ _ _) hsettle
  rw [withLink, Table.get?_insert, if_neg (Ne.symm hk)]

theorem unlink (hlaw : DueLaw now P) (h : ∀ q, P s q) (hcoherent : s.Coherent)
    {parent child : ItemId} {outcome : PermissionOutcome}
    (hsettle : ((s.withoutLink parent child).markItemResults parent .toBeRecomputed).2.settlePairs
      (s.pairsForLink parent child) now = .ok (outcome, s')) : ∀ q, P s' q := by
  refine hlaw.relink h (hcoherent.withoutLink parent child).toLayered rfl rfl rfl rfl
    (fun k hk => ?_) (resultsGrow_markResults _ _ _) hsettle
  rw [withoutLink, Table.get?_erase, if_neg (Ne.symm hk)]

/-! ### Grants -/

theorem regrant (hlaw : DueLaw now P) (h : ∀ q, P s q) (hlayered : s.Layered) (group : GroupId)
    (item : ItemId) (giver : GroupId) {grants : Table (GroupId × ItemId × GroupId) Grant}
    (ht : t = { s with grants := grants })
    (hgrants : ∀ k, k ≠ (group, item, giver) → grants.get? k = s.grants.get? k)
    {outcome : PermissionOutcome}
    (hsettle : t.settlePairs (s.pairsForGrant group item) now = .ok (outcome, s')) :
    ∀ q, P s' q := by
  have hfilled : t.RowsFilled := (hlaw.rowsFilled h).of_rows fun q g hg => by rwa [ht] at hg
  refine hlaw.settlePairs (hlayered.congr ?_ ?_) hfilled (fun q hmem => ?_) hsettle
  · rw [ht]
  · rw [ht]
  · subst ht
    exact hlaw.congr (h q) rfl fun later =>
      dueTiers_congr (granted_of_regranted rfl hgrants hmem) fun _ _ => Iff.rfl

theorem grant (hlaw : DueLaw now P) (h : ∀ q, P s q) (hlayered : s.Layered) {group : GroupId}
    {item : ItemId} {giver : GroupId} {grant : Grant} {outcome : PermissionOutcome}
    (hsettle : { s with grants := s.grants.insert (group, item, giver) grant }.settlePairs
      (s.pairsForGrant group item) now = .ok (outcome, s')) : ∀ q, P s' q := by
  refine hlaw.regrant h hlayered group item giver rfl (fun k hk => ?_) hsettle
  rw [Table.get?_insert, if_neg (Ne.symm hk)]

theorem revoke (hlaw : DueLaw now P) (h : ∀ q, P s q) (hlayered : s.Layered) {group : GroupId}
    {item : ItemId} {giver : GroupId} {outcome : PermissionOutcome}
    (hsettle : { s with grants := s.grants.erase (group, item, giver) }.settlePairs
      (s.pairsForGrant group item) now = .ok (outcome, s')) : ∀ q, P s' q := by
  refine hlaw.regrant h hlayered group item giver rfl (fun k hk => ?_) hsettle
  rw [Table.get?_erase, if_neg (Ne.symm hk)]

/-! ### Calls -/

/-- What a sweep keeps, every call keeps that deletes no group. -/
theorem call (hlaw : DueLaw now P) (h : ∀ q, P s q) (hcoherent : s.Coherent)
    (hsweep : ∀ outcome, s.sweep now = .ok (outcome, s') → ∀ q, P s' q) {policy : RetryPolicy}
    {call : Call} {ids : IdSource} {reply : Reply}
    (hrun : (Call.run policy now call ids s).1 = .ok (reply, s'))
    (hkept : ∀ deletion, reply = .deletion deletion → deletion.deletedGroups = []) :
    ∀ q, P s' q := by
  have hlayered := hcoherent.toLayered
  cases Effect.of_run hrun with
  | nothing hsame => rwa [hsame]
  | insertGroup hinsert => exact hlaw.insertGroup h hcoherent hinsert
  | reclose _ hreclosed hsettle => exact hlaw.reclosed h hlayered hreclosed hsettle
  | resettle hsettle => exact hlaw.settleNone h hlayered rfl rfl rfl rfl rfl hsettle
  | deleteOrphans _ hdeleted _ => exact absurd (hkept _ rfl) hdeleted
  | transition hrequest => exact hlaw.request h hlayered hrequest
  | appoint _ _ happointed =>
    rw [happointed]
    exact fun q => hlaw.congr (h q) rfl fun _ => rfl
  | insertItem hinsert => exact hlaw.insertItem h hlayered hinsert
  | link hparent hchild hreach hsettle =>
    exact hlaw.link h hcoherent _ hparent hchild hreach hsettle
  | unlink hsettle => exact hlaw.unlink h hcoherent hsettle
  | grant _ _ hsettle => exact hlaw.grant h hlayered hsettle
  | revoke hsettle => exact hlaw.revoke h hlayered hsettle
  | sweep hswept => exact hsweep _ hswept
  | work hwork =>
    obtain ⟨_, _, _, _, rfl⟩ := hwork.onlyWork
    exact fun q => hlaw.congr (h q) rfl fun _ => rfl

end DueLaw

end Courseware
