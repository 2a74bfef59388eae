import Courseware.Proofs.Calls.Groups

/-!
# What a successful call on items or permissions did

Each of these calls writes one row and then settles the pairs that the row concerns.
-/

namespace Courseware

namespace Store

theorem requireItem_eq_ok {s : Store} {id : ItemId} {u : Unit}
    (h : s.requireItem id = .ok u) : s.items.contains id = true := by
  rw [requireItem] at h
  split at h
  · assumption
  · simp at h

theorem insertItem_eq_ok {s s' : Store} {id : ItemId} {item : Item}
    (h : s.insertItem id item = .ok s') :
    s.items.contains id = false ∧ s' = { s with items := s.items.insert id item } := by
  rw [insertItem] at h
  split at h
  · simp at h
  · rename_i hno
    exact ⟨by simpa using hno, (Except.ok.inj h).symm⟩

theorem ensureNoItemCycle_eq_ok {links : Network ItemId} {parent child : ItemId} {u : Unit}
    (h : ensureNoItemCycle links parent child = .ok u) : links.reaches child parent = false := by
  rw [ensureNoItemCycle] at h
  split at h
  · simp at h
  · rename_i hno
    simpa using hno

/-- The store with one more link, before anything is settled. -/
def withLink (s : Store) (parent child : ItemId) (link : Link) : Store :=
  { s with links := s.links.insert (parent, child) link }

theorem createLink_eq_ok {s s' : Store} {parent child : ItemId} {link : Link} {now : Timestamp}
    (h : s.createLink parent child link now = .ok s') :
    s.items.contains parent = true ∧ s.items.contains child = true ∧
      s.linkNetwork.reaches child parent = false ∧
      ∃ outcome, ((s.withLink parent child link).markItemResults child .toBePropagated).2.settlePairs
        ((s.withLink parent child link).pairsForLink parent child) now = .ok (outcome, s') := by
  rw [createLink] at h
  obtain ⟨_, hparent, h⟩ := bind_eq_ok.1 h
  obtain ⟨_, hchild, h⟩ := bind_eq_ok.1 h
  obtain ⟨_, hcycle, h⟩ := bind_eq_ok.1 h
  obtain ⟨t, hput, h⟩ := bind_eq_ok.1 h
  replace hput := Fault.lift_eq_ok.1 hput
  rw [putLink] at hput
  obtain ⟨_, -, hput⟩ := bind_eq_ok.1 hput
  obtain rfl : s.withLink parent child link = t := Except.ok.inj hput
  obtain ⟨⟨outcome, u⟩, hsettle, h⟩ := bind_eq_ok.1 h
  obtain rfl : u = s' := Except.ok.inj h
  exact ⟨requireItem_eq_ok hparent, requireItem_eq_ok hchild, ensureNoItemCycle_eq_ok hcycle,
    outcome, hsettle⟩

/-- The store without a link, before anything is settled. -/
def withoutLink (s : Store) (parent child : ItemId) : Store :=
  { s with links := s.links.erase (parent, child) }

theorem withoutLink_of_not_contains {s : Store} {parent child : ItemId}
    (h : s.links.contains (parent, child) = false) : s.withoutLink parent child = s := by
  rw [withoutLink, Table.erase_of_not_contains h]

theorem removeLink_eq_ok {s s' : Store} {parent child : ItemId} {now : Timestamp} {found : Bool}
    (h : s.removeLink parent child now = .ok (found, s')) :
    s' = s ∨
      ∃ outcome, ((s.withoutLink parent child).markItemResults parent .toBeRecomputed).2.settlePairs
        (s.pairsForLink parent child) now = .ok (outcome, s') := by
  rw [removeLink] at h
  simp only at h
  split at h
  · rename_i t hdelete
    rw [deleteLink, Prod.mk.injEq] at hdelete
    simp only [Except.ok.injEq, Prod.mk.injEq] at h
    obtain rfl : s.withoutLink parent child = t := hdelete.2
    exact Or.inl (h.2.symm.trans (withoutLink_of_not_contains hdelete.1))
  · rename_i t hdelete
    rw [deleteLink, Prod.mk.injEq] at hdelete
    obtain ⟨⟨outcome, u⟩, hsettle, h⟩ := bind_eq_ok.1 h
    simp only [pure, Except.pure, Except.ok.injEq, Prod.mk.injEq] at h
    obtain ⟨-, rfl⟩ := h
    obtain rfl : s.withoutLink parent child = t := hdelete.2
    exact Or.inr ⟨outcome, hsettle⟩

theorem giveGrant_eq_ok {s s' : Store} {group : GroupId} {item : ItemId} {giver : GroupId}
    {grant : Grant} {now : Timestamp} {outcome : PermissionOutcome}
    (h : s.giveGrant group item giver grant now = .ok (outcome, s')) :
    s.groups.contains group = true ∧ s.items.contains item = true ∧
      { s with grants := s.grants.insert (group, item, giver) grant }.settlePairs
        (s.pairsForGrant group item) now = .ok (outcome, s') := by
  rw [giveGrant] at h
  obtain ⟨_, hgroup, h⟩ := bind_eq_ok.1 h
  obtain ⟨_, -, h⟩ := bind_eq_ok.1 h
  obtain ⟨_, hitem, h⟩ := bind_eq_ok.1 h
  obtain ⟨t, hput, h⟩ := bind_eq_ok.1 h
  replace hput := Fault.lift_eq_ok.1 hput
  rw [putGrant] at hput
  obtain ⟨_, -, hput⟩ := bind_eq_ok.1 hput
  obtain rfl : { s with grants := s.grants.insert (group, item, giver) grant } = t :=
    Except.ok.inj hput
  exact ⟨requireGroup_eq_ok hgroup, requireItem_eq_ok hitem, h⟩

theorem revokeGrant_eq_ok {s s' : Store} {group : GroupId} {item : ItemId} {giver : GroupId}
    {now : Timestamp} {outcome : PermissionOutcome}
    (h : s.revokeGrant group item giver now = .ok (outcome, s')) :
    s' = s ∨
      { s with grants := s.grants.erase (group, item, giver) }.settlePairs
        (s.pairsForGrant group item) now = .ok (outcome, s') := by
  rw [revokeGrant] at h
  split at h
  · rename_i t hdelete
    rw [deleteGrant, Prod.mk.injEq] at hdelete
    simp only [Except.ok.injEq, Prod.mk.injEq] at h
    obtain ⟨hno, rfl⟩ := hdelete
    rw [Table.erase_of_not_contains hno] at h
    exact Or.inl h.2.symm
  · rename_i t hdelete
    rw [deleteGrant, Prod.mk.injEq] at hdelete
    obtain rfl := hdelete.2
    exact Or.inr h

theorem sweep_eq_ok {s s' : Store} {now : Timestamp} {outcome : PermissionOutcome}
    (h : s.sweep now = .ok (outcome, s')) :
    outcome = (s.sweepPermissions now).1 ∧
      ∃ results, (s.sweepPermissions now).2.settleVisible outcome now = .ok (results, s') := by
  rw [sweep] at h
  obtain ⟨⟨results, t⟩, hvisible, h⟩ := bind_eq_ok.1 h
  simp only [pure, Except.pure, Except.ok.injEq, Prod.mk.injEq] at h
  obtain ⟨rfl, rfl⟩ := h
  exact ⟨rfl, results, hvisible⟩

theorem sweep_frame {s s' : Store} {now : Timestamp} {outcome : PermissionOutcome}
    (h : s.sweep now = .ok (outcome, s')) :
    ∃ gen rs, s' = { s with generated := gen, results := rs } := by
  obtain ⟨-, results, hvisible⟩ := sweep_eq_ok h
  obtain ⟨gen, hgen⟩ := sweepPermissions_frame s now
  obtain ⟨rs, rfl⟩ := (resultsGrow_settleVisible hvisible).frame
  exact ⟨gen, rs, by rw [hgen]⟩

end Store

end Courseware
