import Courseware.Group.Closure
import Courseware.Proofs.Network
import Mathlib.Tactic.Common

/-!
# The recorded ancestors and the walks of active memberships

The closure lists, for every group, exactly what walks of active memberships lead to, with the
latest end among them (`get?_closure`). What is recorded is exact if it is the closure
(`closureExact_iff`), which it is after every recomputation; and a recomputation tells every group
of which a recorded ancestor changed.
-/

namespace Courseware

namespace Store

open Network

theorem mem_descendantsOf {s : Store} {a d : GroupId} {row : Ancestry} :
    (d, row) ∈ s.descendantsOf a ↔ s.ancestors.get? (a, d) = some row := by
  rw [descendantsOf, List.mem_map]
  constructor
  · rintro ⟨⟨⟨a', d'⟩, row'⟩, hmem, heq⟩
    obtain ⟨rfl, rfl⟩ := Prod.mk.inj heq
    obtain ⟨hrow, hancestor⟩ := List.mem_filter.1 hmem
    obtain rfl : a' = a := of_decide_eq_true hancestor
    exact Table.mem_toList_iff.1 hrow
  · intro hrow
    exact ⟨((a, d), row), List.mem_filter.2 ⟨Table.mem_toList_iff.2 hrow, decide_eq_true rfl⟩, rfl⟩

theorem mem_ancestorsOf {s : Store} {a d : GroupId} {row : Ancestry} :
    (a, row) ∈ s.ancestorsOf d ↔ s.ancestors.get? (a, d) = some row := by
  rw [ancestorsOf, List.mem_map]
  constructor
  · rintro ⟨⟨⟨a', d'⟩, row'⟩, hmem, heq⟩
    obtain ⟨rfl, rfl⟩ := Prod.mk.inj heq
    obtain ⟨hrow, hdescendant⟩ := List.mem_filter.1 hmem
    obtain rfl : d' = d := of_decide_eq_true hdescendant
    exact Table.mem_toList_iff.1 hrow
  · intro hrow
    exact ⟨((a, d), row), List.mem_filter.2 ⟨Table.mem_toList_iff.2 hrow, decide_eq_true rfl⟩, rfl⟩

/-- Recorded ancestors tell walks of active memberships: there is a record for exactly those groups
that a walk connects, and it says whether they are the same group. -/
structure RecordsWalks (s : Store) : Prop where
  contains_iff : ∀ a d, s.ancestors.contains (a, d) = true ↔
    s.groups.contains a = true ∧ ∃ e, Walk s.activeNetwork a d e
  isSelf_iff : ∀ a d row, s.ancestors.get? (a, d) = some row → (row.isSelf = true ↔ a = d)

/-- Recorded ancestors also tell the latest end among these walks. -/
structure ClosureExact (s : Store) : Prop extends RecordsWalks s where
  expiry : ∀ a d row, s.ancestors.get? (a, d) = some row →
    Widest s.activeNetwork a d row.expiry

theorem get?_closure {s : Store} {a d : GroupId} {row : Ancestry} :
    s.closure.get? (a, d) = some row ↔
      s.groups.contains a = true ∧
        ∃ e, Widest s.activeNetwork a d e ∧ row = ⟨decide (a = d), e⟩ := by
  have hrows : ∀ (k : GroupId × GroupId) (v : Ancestry),
      (k, v) ∈ (s.groups.keys.flatMap fun a =>
        (s.activeNetwork.widest a).toList.map fun e =>
          ((a, e.1), (⟨decide (a = e.1), e.2⟩ : Ancestry))) ↔
        s.groups.contains k.1 = true ∧
          ∃ e, Widest s.activeNetwork k.1 k.2 e ∧ v = ⟨decide (k.1 = k.2), e⟩ := by
    rintro ⟨a, d⟩ v
    simp only [List.mem_flatMap, List.mem_map, Prod.mk.injEq, Table.mem_keys]
    constructor
    · rintro ⟨a, ha, ⟨d, e⟩, he, ⟨rfl, rfl⟩, rfl⟩
      exact ⟨ha, e, get?_widest.1 (Table.mem_toList_iff.1 he), rfl⟩
    · rintro ⟨ha, e, he, rfl⟩
      exact ⟨a, ha, (d, e), Table.mem_toList_iff.2 (get?_widest.2 he), ⟨rfl, rfl⟩, rfl⟩
  rw [closure, Table.get?_ofList, hrows]
  intro k v w hv hw
  obtain ⟨-, e, he, rfl⟩ := (hrows k v).1 hv
  obtain ⟨-, e', he', rfl⟩ := (hrows k w).1 hw
  rw [he.unique he']

theorem contains_closure {s : Store} {a d : GroupId} :
    s.closure.contains (a, d) = true ↔
      s.groups.contains a = true ∧ ∃ e, Walk s.activeNetwork a d e := by
  rw [Table.contains_iff]
  constructor
  · rintro ⟨row, hrow⟩
    obtain ⟨ha, e, he, -⟩ := get?_closure.1 hrow
    exact ⟨ha, e, he.1⟩
  · rintro ⟨ha, e, he⟩
    obtain ⟨e', he'⟩ := he.exists_widest
    exact ⟨_, get?_closure.2 ⟨ha, e', he', rfl⟩⟩

theorem recordsWalks_of_eq_closure {s : Store} (h : s.ancestors = s.closure) : s.RecordsWalks := by
  constructor
  · intro a d
    rw [h, contains_closure]
  · intro a d row hrow
    rw [h] at hrow
    obtain ⟨-, e, -, rfl⟩ := get?_closure.1 hrow
    exact decide_eq_true_iff

theorem closureExact_iff {s : Store} : s.ClosureExact ↔ s.ancestors = s.closure := by
  constructor
  · intro h
    refine Table.ext_get? fun ⟨a, d⟩ => Option.ext fun row => ?_
    rw [get?_closure]
    constructor
    · intro hrow
      have hself := h.isSelf_iff a d row hrow
      refine ⟨((h.contains_iff a d).1 (Table.contains_of_get? hrow)).1, row.expiry,
        h.expiry a d row hrow, ?_⟩
      obtain ⟨isSelf, expiry⟩ := row
      rw [Ancestry.mk.injEq]
      exact ⟨Bool.eq_iff_iff.2 (hself.trans decide_eq_true_iff.symm), rfl⟩
    · rintro ⟨ha, e, he, rfl⟩
      obtain ⟨row, hrow⟩ := Table.contains_iff.1 ((h.contains_iff a d).2 ⟨ha, e, he.1⟩)
      have hself := h.isSelf_iff a d row hrow
      have hexpiry := he.unique (h.expiry a d row hrow)
      obtain ⟨isSelf, expiry⟩ := row
      obtain rfl : e = expiry := hexpiry
      rw [hrow, Option.some.injEq, Ancestry.mk.injEq]
      exact ⟨Bool.eq_iff_iff.2 (hself.trans decide_eq_true_iff.symm), rfl⟩
  · intro h
    refine ⟨recordsWalks_of_eq_closure h, fun a d row hrow => ?_⟩
    rw [h] at hrow
    obtain ⟨-, e, he, rfl⟩ := get?_closure.1 hrow
    exact he

/-- The closure depends on the groups and the network of active memberships alone. -/
theorem closure_congr {s t : Store} (hgroups : s.groups = t.groups)
    (hnetwork : s.activeNetwork = t.activeNetwork) : s.closure = t.closure := by
  rw [closure, closure, hgroups, hnetwork]

/-- Whatever was recorded before, the recorded ancestors become the closure. -/
theorem ancestors_recomputeClosure (s : Store) : s.recomputeClosure.2.ancestors = s.closure :=
  (Table.difference_filter s.ancestors s.closure).apply

@[simp] theorem recomputeClosure_store (s : Store) :
    s.recomputeClosure.2 = { s with ancestors := s.closure } :=
  congrArg (fun rows => { s with ancestors := rows }) (ancestors_recomputeClosure s)

theorem eq_of_recomputeClosure {s t : Store} {change : ClosureChange}
    (h : s.recomputeClosure = (change, t)) : t = { s with ancestors := s.closure } := by
  rw [← recomputeClosure_store, h]

theorem closed_recomputeClosure (s : Store) :
    s.recomputeClosure.2.ancestors = s.recomputeClosure.2.closure :=
  (ancestors_recomputeClosure s).trans (closure_congr rfl rfl)

theorem closureExact_recomputeClosure (s : Store) : s.recomputeClosure.2.ClosureExact :=
  closureExact_iff.2 (closed_recomputeClosure s)

/-- A group is told as changed exactly if one of its recorded ancestors differs. -/
theorem contains_changedGroups {s : Store} {d : GroupId} :
    s.recomputeClosure.1.changedGroups.contains d = true ↔
      ∃ a, s.closure.get? (a, d) ≠ s.ancestors.get? (a, d) := by
  have hdiffer := Table.difference_filter s.ancestors s.closure
  rw [recomputeClosure, KeySet.contains_ofKeys, decide_eq_true_eq, List.mem_map]
  simp only [List.mem_append, Table.mem_keys, hdiffer.touches_iff]
  constructor
  · rintro ⟨⟨a, d⟩, hne, rfl⟩
    exact ⟨a, hne⟩
  · rintro ⟨a, hne⟩
    exact ⟨(a, d), hne, rfl⟩

/-- Groups that are not told as changed keep all their recorded ancestors. -/
theorem get?_ancestors_recomputeClosure {s : Store} {a d : GroupId}
    (h : s.recomputeClosure.1.changedGroups.contains d = false) :
    s.recomputeClosure.2.ancestors.get? (a, d) = s.ancestors.get? (a, d) := by
  rw [ancestors_recomputeClosure]
  by_contra hne
  rw [contains_changedGroups.2 ⟨a, hne⟩] at h
  exact absurd h (by simp)

/-- With nothing to write, nothing is told as changed. -/
theorem recomputeClosure_of_closed {s : Store} (h : s.ancestors = s.closure) :
    s.recomputeClosure = (.none, s) := by
  have hdiffer := Table.difference_filter s.ancestors s.closure
  rw [← h] at hdiffer
  obtain ⟨hwritten, hremoved⟩ := hdiffer.eq_empty
  refine Prod.ext ?_ ?_
  · rw [recomputeClosure, ← h, hwritten, hremoved]
    rfl
  · rw [recomputeClosure_store, ← h]

/-- A recomputation repairs whatever is recorded, and tells exactly the difference: there is then one
record for every pair of groups that a walk of active memberships connects, with the latest end among
these walks, and none else; the groups told are those with a differing record, and the numbers told
are those of the records written and removed. Another recomputation finds nothing to write. -/
theorem recomputeClosure_repairs (s : Store) :
    ∃ (change : ClosureChange) (t : Store) (written removed : Table (GroupId × GroupId) Ancestry),
      s.recomputeClosure = (change, t) ∧
      t = { s with ancestors := t.ancestors } ∧
      (∀ a d, t.ancestors.contains (a, d) = true ↔
        s.groups.contains a = true ∧ ∃ e, Walk s.activeNetwork a d e) ∧
      (∀ a d row, t.ancestors.get? (a, d) = some row →
        (row.isSelf = true ↔ a = d) ∧ Widest s.activeNetwork a d row.expiry) ∧
      (∀ d, change.changedGroups.contains d = true ↔
        ∃ a, t.ancestors.get? (a, d) ≠ s.ancestors.get? (a, d)) ∧
      Table.Difference s.ancestors t.ancestors written removed ∧
      t = (s.upsertAncestors written.toList).deleteAncestors removed.keys ∧
      change.upserted = written.size ∧ change.deleted = removed.size ∧
      t.recomputeClosure = (.none, t) := by
  have hexact := closureExact_recomputeClosure s
  have hancestors := ancestors_recomputeClosure s
  refine ⟨s.recomputeClosure.1, s.recomputeClosure.2, _, _, rfl, rfl, fun a d => ?_,
    fun a d row hrow => ?_, fun d => ?_, ?_, rfl, rfl, rfl,
    recomputeClosure_of_closed (closed_recomputeClosure s)⟩
  · exact hexact.contains_iff a d
  · exact ⟨hexact.isSelf_iff a d row hrow, hexact.expiry a d row hrow⟩
  · rw [hancestors]
    exact contains_changedGroups
  · rw [hancestors]
    exact Table.difference_filter s.ancestors s.closure

/-! ### The network of active memberships -/

theorem get?_activeNetwork {s : Store} {k : GroupId × GroupId} {e : Expiry} :
    s.activeNetwork.get? k = some e ↔
      ∃ m, s.memberships.get? k = some m ∧ m.standing = .active ∧ m.expiry = e := by
  rw [activeNetwork, Table.get?_map_eq_some]
  constructor
  · rintro ⟨m, hm, rfl⟩
    obtain ⟨hget, hactive⟩ := Table.get?_filter_eq_some.1 hm
    exact ⟨m, hget, of_decide_eq_true hactive, rfl⟩
  · rintro ⟨m, hget, hactive, rfl⟩
    exact ⟨m, Table.get?_filter_eq_some.2 ⟨hget, decide_eq_true hactive⟩, rfl⟩

theorem contains_activeNetwork {s : Store} {k : GroupId × GroupId} :
    s.activeNetwork.contains k = true ↔
      ∃ m, s.memberships.get? k = some m ∧ m.standing = .active := by
  rw [Table.contains_iff]
  constructor
  · rintro ⟨e, he⟩
    obtain ⟨m, hm, hactive, -⟩ := get?_activeNetwork.1 he
    exact ⟨m, hm, hactive⟩
  · rintro ⟨m, hm, hactive⟩
    exact ⟨m.expiry, get?_activeNetwork.2 ⟨m, hm, hactive, rfl⟩⟩

/-- Which groups walks connect depends on which memberships are active, not on their ends. -/
theorem exists_walk_congr {s t : Store}
    (h : ∀ k, s.activeNetwork.contains k = t.activeNetwork.contains k) (a d : GroupId) :
    (∃ e, Walk s.activeNetwork a d e) ↔ ∃ e, Walk t.activeNetwork a d e := by
  have key : ∀ {u v : Store}, (∀ k, u.activeNetwork.contains k = v.activeNetwork.contains k) →
      (∃ e, Walk u.activeNetwork a d e) → ∃ e, Walk v.activeNetwork a d e := by
    rintro u v huv ⟨e, hwalk⟩
    refine hwalk.mono fun k e' hk => Table.contains_iff.1 ?_
    rw [← huv k]
    exact Table.contains_of_get? hk
  exact ⟨key h, key fun k => (h k).symm⟩

end Store

end Courseware
