import Courseware.Fault

/-!
# Levels of access

Access to an item has four kinds, each with levels in ascending order; a level contains all lower
ones and its rank is its place in that order. Being an owner and being grayed come beside them as
components that are there or not.
-/

namespace Courseware

inductive PermissionKind where
  | view | grantView | watch | edit
  deriving DecidableEq

instance : Vocabulary PermissionKind where
  all := [.view, .grantView, .watch, .edit]
  name | .view => "view" | .grantView => "grant_view" | .watch => "watch" | .edit => "edit"
  tag | .view => "View" | .grantView => "GrantView" | .watch => "Watch" | .edit => "Edit"

/-- What of an item can be seen. -/
inductive CanView where
  | none | info | content | contentWithDescendants | solution
  deriving DecidableEq

instance : Vocabulary CanView where
  all := [.none, .info, .content, .contentWithDescendants, .solution]
  name
    | .none => "none" | .info => "info" | .content => "content"
    | .contentWithDescendants => "content_with_descendants" | .solution => "solution"
  tag
    | .none => "None" | .info => "Info" | .content => "Content"
    | .contentWithDescendants => "ContentWithDescendants" | .solution => "Solution"

/-- Up to which view level others can be granted access. -/
inductive CanGrantView where
  | none | enter | content | contentWithDescendants | solution | solutionWithGrant
  deriving DecidableEq

instance : Vocabulary CanGrantView where
  all := [.none, .enter, .content, .contentWithDescendants, .solution, .solutionWithGrant]
  name
    | .none => "none" | .enter => "enter" | .content => "content"
    | .contentWithDescendants => "content_with_descendants" | .solution => "solution"
    | .solutionWithGrant => "solution_with_grant"
  tag
    | .none => "None" | .enter => "Enter" | .content => "Content"
    | .contentWithDescendants => "ContentWithDescendants" | .solution => "Solution"
    | .solutionWithGrant => "SolutionWithGrant"

/-- What of the work of others can be seen. -/
inductive CanWatch where
  | none | result | answer | answerWithGrant
  deriving DecidableEq

instance : Vocabulary CanWatch where
  all := [.none, .result, .answer, .answerWithGrant]
  name
    | .none => "none" | .result => "result" | .answer => "answer"
    | .answerWithGrant => "answer_with_grant"
  tag
    | .none => "None" | .result => "Result" | .answer => "Answer"
    | .answerWithGrant => "AnswerWithGrant"

/-- How an item can be changed. -/
inductive CanEdit where
  | none | children | all | allWithGrant
  deriving DecidableEq

instance : Vocabulary CanEdit where
  all := [.none, .children, .all, .allWithGrant]
  name | .none => "none" | .children => "children" | .all => "all" | .allWithGrant => "all_with_grant"
  tag | .none => "None" | .children => "Children" | .all => "All" | .allWithGrant => "AllWithGrant"

/-- A kind of levels in ascending order of their ranks. -/
class Level (α : Type) extends Vocabulary α where
  kind : PermissionKind
  lowest : α
  rank : α → Nat

instance : Level CanView where
  kind := .view
  lowest := .none
  rank | .none => 0 | .info => 1 | .content => 2 | .contentWithDescendants => 3 | .solution => 4

instance : Level CanGrantView where
  kind := .grantView
  lowest := .none
  rank
    | .none => 0 | .enter => 1 | .content => 2 | .contentWithDescendants => 3 | .solution => 4
    | .solutionWithGrant => 5

instance : Level CanWatch where
  kind := .watch
  lowest := .none
  rank | .none => 0 | .result => 1 | .answer => 2 | .answerWithGrant => 3

instance : Level CanEdit where
  kind := .edit
  lowest := .none
  rank | .none => 0 | .children => 1 | .all => 2 | .allWithGrant => 3

namespace Level

/-- The level of a rank. -/
def ofRank? (α : Type) [Level α] (rank : Nat) : Option α := (Vocabulary.all : List α)[rank]?

/-- The level of a rank; ranks above the highest mean the highest. -/
def ofRank (α : Type) [Level α] (rank : Nat) : α :=
  (ofRank? α (min rank ((Vocabulary.all : List α).length - 1))).getD lowest

/-- The higher of two levels. -/
def max {α : Type} [Level α] (a b : α) : α := if rank a ≤ rank b then b else a

/-- Whether `a` contains `b`. -/
def atLeast {α : Type} [Level α] (a b : α) : Bool := decide (rank b ≤ rank a)

end Level

namespace PermissionKind

/-- The names of the levels in ascending order; the place of a name is its rank. -/
def levelNames : PermissionKind → List String
  | view => (Vocabulary.all : List CanView).map Vocabulary.name
  | grantView => (Vocabulary.all : List CanGrantView).map Vocabulary.name
  | watch => (Vocabulary.all : List CanWatch).map Vocabulary.name
  | edit => (Vocabulary.all : List CanEdit).map Vocabulary.name

/-- The name of a rank. -/
def levelName? (k : PermissionKind) (rank : Nat) : Option String := k.levelNames[rank]?

/-- The rank of a name. -/
def rankOf? (k : PermissionKind) (name : String) : Except Fault Nat :=
  match k.levelNames.findIdx? (· == name) with
  | some rank => .ok rank
  | none => .error (.unknownLevel (Vocabulary.name k) name)

end PermissionKind

namespace Level

/-- The level with the given name among those of its kind. -/
def ofName? (α : Type) [Level α] (name : String) : Except Fault α := do
  let rank ← (kind α).rankOf? name
  match ofRank? α rank with
  | some level => .ok level
  | none => .error (.unknownLevel (Vocabulary.name (kind α)) name)

/-- The name of a level. -/
def render {α : Type} [Level α] (level : α) : String :=
  ((kind α).levelName? (rank level)).getD "none"

end Level

/-- What access to an item is made of. -/
inductive Component where
  | view | grantView | watch | edit | isOwner
  /-- Partial access inherited along a graying link. -/
  | grayed
  deriving DecidableEq

instance : Vocabulary Component where
  all := [.view, .grantView, .watch, .edit, .isOwner, .grayed]
  name
    | .view => "view" | .grantView => "grant_view" | .watch => "watch" | .edit => "edit"
    | .isOwner => "is_owner" | .grayed => "grayed"
  tag
    | .view => "View" | .grantView => "GrantView" | .watch => "Watch" | .edit => "Edit"
    | .isOwner => "IsOwner" | .grayed => "Grayed"

/-- The components in the alphabetical order of their names. -/
def Component.byName : List Component := [.edit, .grantView, .grayed, .isOwner, .view, .watch]

end Courseware
