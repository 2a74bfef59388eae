import Courseware.Store

/-!
# The store as plain tables

What is kept, written out as tables of rows of cells: flags as 0 and 1, levels as ranks, other named
values by their names. A row that is worked out for a pair is written without its tiers, which have a
table of their own, component by component in the order of their names.
-/

namespace Courseware

/-- One value of a row. -/
inductive Cell where
  | empty
  | int (n : Int)
  | float (s : Score)
  | text (s : String)
  deriving DecidableEq

namespace Cell

def flag (b : Bool) : Cell := int b.toNat

def time (t : Timestamp) : Cell := int t.toInt

def rank {α : Type} [Level α] (a : α) : Cell := int (Level.rank a)

def name {α : Type} [Vocabulary α] (a : α) : Cell := text (Vocabulary.name a)

/-- The cell of a value, or an empty one. -/
def opt {α : Type} (cell : α → Cell) : Option α → Cell
  | some a => cell a
  | none => empty

def expiry (e : Expiry) : Cell := opt time e.toOption

def activation (a : Activation) : Cell := opt time a.toOption

end Cell

namespace Store

open Cell

/-- The rows of memberships in the order of their numbers. -/
def membershipRows (s : Store) : List (List Cell) :=
  (s.memberships.toList.mergeSort fun a b => decide (a.2.id ≤ b.2.id)).map
    fun ((parent, child), m) =>
      [int m.id, int parent, int child, text m.role, name m.standing, flag m.lockApproved,
        flag m.leaveRequested, expiry m.expiry, time m.changedAt]

/-- Every table with its rows, the rows in key order. -/
def tables (s : Store) : List (String × List (List Cell)) :=
  [ ("groups", s.groups.toList.map fun (id, g) =>
      [int id, text g.name, name g.kind, flag g.freeAccess, opt time g.leavingLockedUntil,
        opt time g.approvalRequiredUntil, opt int g.teamItem]),
    ("edges", s.membershipRows),
    ("ancestors", s.ancestors.toList.map fun ((ancestor, child), a) =>
      [int ancestor, int child, flag a.isSelf, expiry a.expiry]),
    ("managers", s.managers.keys.map fun (group, manager) => [int group, int manager]),
    ("items", s.items.toList.map fun (id, i) =>
      [int id, flag i.customChapter, name i.validation, flag i.unscored, flag i.explicitEntry]),
    ("item_edges", s.links.toList.map fun ((parent, child), l) =>
      [int parent, int child, name l.category, name l.partialAccess, int l.weight.toInt,
        int l.order]),
    ("grants", s.grants.toList.map fun ((group, item, giver), g) =>
      [int group, int item, int giver, rank g.canView, rank g.canGrantView, rank g.canWatch,
        rank g.canEdit, flag g.isOwner, activation g.since]),
    ("generated", s.generated.toList.map fun ((group, item), g) =>
      [int group, int item, rank g.levels.canView, rank g.levels.canGrantView,
        rank g.levels.canWatch, rank g.levels.canEdit, flag g.levels.isOwner,
        flag g.levels.isGrayed, time g.computedAt]),
    ("tiers", s.generated.toList.flatMap fun ((group, item), g) =>
      g.tiers.rows.map fun (component, tier) =>
        [int group, int item, name component, int tier.level, activation tier.since]),
    ("attempts", s.attempts.toList.map fun ((participant, id), a) =>
      [int participant, int id, opt int a.rootItem, opt int a.parent, time a.createdAt]),
    ("results", s.results.toList.map fun (k, r) =>
      [int k.participant, int k.attempt, int k.item, float r.values.score,
        opt time r.values.obtainedAt, opt time r.values.validatedAt, opt name r.editRule,
        opt float r.editValue, int r.values.tasksTried.toInt, time r.values.activityAt,
        name r.progress]),
    ("answers", s.answers.toList.map fun (id, a) =>
      [int id, int a.result.participant, int a.result.attempt, int a.result.item, int a.author,
        text a.text, time a.submittedAt]),
    ("gradings", s.gradings.toList.map fun (id, g) =>
      [int id, float g.score, time g.gradedAt]) ]

/-- The tables of `after` that differ from those of `before`. -/
def changedTables (before after : Store) : List (String × List (List Cell)) :=
  ((before.tables.zip after.tables).filter fun (b, a) => b ≠ a).map (·.2)

end Store

end Courseware
