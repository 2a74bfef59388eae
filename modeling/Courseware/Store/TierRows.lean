import Courseware.Store.Permissions

/-!
# Worked-out access as rows

What `Store.writeTiers` keeps and `Store.tiersOf` tells, by the tables it goes through. A pair has
one row of levels and under it one row for each of its tiers, told apart by the name of the
component and by the level. A pair is written by deleting its row, with which its tiers go, and
inserting what is new; it is read by decoding its tiers, which come in the order of names and
levels, and collecting them again.
-/

namespace Courseware

instance : Key Nat where
  before a b := decide (a < b)
  before_irrefl a := decide_eq_false (Nat.lt_irrefl a)
  before_trans hab hbc :=
    decide_eq_true (Nat.lt_trans (of_decide_eq_true hab) (of_decide_eq_true hbc))
  eq_of_not_before hab hba :=
    Nat.le_antisymm (Nat.not_lt.1 (of_decide_eq_false hba)) (Nat.not_lt.1 (of_decide_eq_false hab))

/-- Texts are ordered character by character. -/
instance : Key String where
  before a b := decide (a < b)
  before_irrefl a := decide_eq_false (String.lt_irrefl a)
  before_trans hab hbc :=
    decide_eq_true (String.lt_trans (of_decide_eq_true hab) (of_decide_eq_true hbc))
  eq_of_not_before hab hba :=
    String.le_antisymm (of_decide_eq_false hba) (of_decide_eq_false hab)

/-- What tells the row of a tier apart: the pair, the name of the component and the level. -/
abbrev TierKey := Pair × String × Nat

/-- The rows of levels, with the time they are of, and the rows of tiers. A tier refers to the row
of its pair. -/
structure AccessRows where
  levels : Table Pair (Levels × Timestamp)
  tiers : Table TierKey Activation
  anchored : ∀ key, tiers.contains key = true → levels.contains key.1 = true

namespace AccessRows

def empty : AccessRows := ⟨∅, ∅, fun _ hkey => hkey⟩

/-- Deletes the row of a pair and with it those of its tiers. -/
def erase (r : AccessRows) (pair : Pair) : AccessRows where
  levels := r.levels.erase pair
  tiers := r.tiers.filter fun key _ => key.1 ≠ pair
  anchored key hkey := by
    obtain ⟨since, hsince⟩ := Table.contains_iff.1 hkey
    rw [Table.get?_filter, Option.filter_eq_some_iff, decide_eq_true_eq] at hsince
    obtain ⟨hold, hne⟩ := hsince
    obtain ⟨row, hrow⟩ := Table.contains_iff.1 (r.anchored key (Table.contains_iff.2 ⟨since, hold⟩))
    exact Table.contains_iff.2 ⟨row, by rw [Table.get?_erase, if_neg (Ne.symm hne), hrow]⟩

/-- Inserts the row of a pair of an existing group and item. -/
def insertLevels (r : AccessRows) (s : Store) (pair : Pair) (levels : Levels) (now : Timestamp) :
    Except StoreFault AccessRows := do
  if r.levels.contains pair then
    .error (.taken "permissions_generated.group_id, permissions_generated.item_id")
  else
    Store.demand (s.groups.contains pair.1 && s.items.contains pair.2)
    return {
      levels := r.levels.insert pair (levels, now)
      tiers := r.tiers
      anchored := fun key hkey => by
        obtain ⟨row, hrow⟩ := Table.contains_iff.1 (r.anchored key hkey)
        rw [Table.contains, Table.get?_insert]
        split
        · rfl
        · rw [hrow]
          rfl }

/-- What tells the row of a tier of a pair apart. -/
def tierKey (pair : Pair) (e : Component × Tier) : TierKey :=
  (pair, Vocabulary.name e.1, e.2.level)

/-- Inserts a tier of a pair. -/
def insertTier (pair : Pair) (r : AccessRows) (e : Component × Tier) :
    Except StoreFault AccessRows :=
  if r.tiers.contains (tierKey pair e) then
    .error (.taken ("permissions_generated_tiers.group_id, permissions_generated_tiers.item_id, " ++
      "permissions_generated_tiers.component, permissions_generated_tiers.level"))
  else if hpair : r.levels.contains pair = true then
    .ok {
      levels := r.levels
      tiers := r.tiers.insert (tierKey pair e) e.2.since
      anchored := fun key hkey => by
        rw [Table.contains, Table.get?_insert] at hkey
        split at hkey
        · rename_i heq
          exact heq ▸ hpair
        · exact r.anchored key hkey }
  else .error (.broken .foreignKey)

/-- Replaces what is worked out for a pair; without tiers there is no row. -/
def write (r : AccessRows) (s : Store) (pair : Pair) (tiers : Tiers) (now : Timestamp) :
    Except StoreFault AccessRows :=
  if tiers.isEmpty then .ok (r.erase pair)
  else do
    let r ← (r.erase pair).insertLevels s pair (.ofTiers tiers now) now
    tiers.toList.foldlM (insertTier pair) r

/-- The tier of a row with its component. -/
def decodeTier (row : TierKey × Activation) : Except StoreFault (Component × Tier) :=
  match Vocabulary.ofName? Component row.1.2.1 with
  | .ok component => .ok (component, ⟨row.1.2.2, row.2⟩)
  | .error cause => .error (.undecodable "component" cause)

/-- The tiers of a pair, collected from their rows. -/
def read (r : AccessRows) (pair : Pair) : Except StoreFault Tiers := do
  let tiers ← (r.tiers.toList.filter fun row => row.1.1 = pair).mapM decodeTier
  return .ofList tiers

end AccessRows

end Courseware
