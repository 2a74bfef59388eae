import Courseware.Permission.Tiers

/-!
# Effective access

The levels of all components in effect at one time, what they allow, and grants of such levels.
-/

namespace Courseware

/-- Levels in effect. -/
structure Levels where
  canView : CanView
  canGrantView : CanGrantView
  canWatch : CanWatch
  canEdit : CanEdit
  isOwner : Bool
  isGrayed : Bool
  deriving DecidableEq

namespace Levels

/-- No access at all. -/
def none : Levels := ⟨.none, .none, .none, .none, false, false⟩

instance : Inhabited Levels := ⟨none⟩

/-- The levels of the tiers in effect at `now`. -/
def ofTiers (t : Tiers) (now : Timestamp) : Levels where
  canView := Level.ofRank CanView (t.levelAt .view now)
  canGrantView := Level.ofRank CanGrantView (t.levelAt .grantView now)
  canWatch := Level.ofRank CanWatch (t.levelAt .watch now)
  canEdit := Level.ofRank CanEdit (t.levelAt .edit now)
  isOwner := decide (0 < t.levelAt .isOwner now)
  isGrayed := decide (0 < t.levelAt .grayed now)

/-- The higher of both, component by component. -/
def max (a b : Levels) : Levels where
  canView := Level.max a.canView b.canView
  canGrantView := Level.max a.canGrantView b.canGrantView
  canWatch := Level.max a.canWatch b.canWatch
  canEdit := Level.max a.canEdit b.canEdit
  isOwner := a.isOwner || b.isOwner
  isGrayed := a.isGrayed || b.isGrayed

/-- Whether at least information about the item is shown, by its view level alone. -/
def isVisible (l : Levels) : Bool := Level.atLeast l.canView .info

/-! ### What the levels allow; an owner may do everything -/

def seesInfo (l : Levels) : Bool := l.isOwner || Level.atLeast l.canView .info

def seesContent (l : Levels) : Bool := l.isOwner || Level.atLeast l.canView .content

def seesDescendants (l : Levels) : Bool :=
  l.isOwner || Level.atLeast l.canView .contentWithDescendants

def seesSolution (l : Levels) : Bool := l.isOwner || Level.atLeast l.canView .solution

def grantsView (l : Levels) : Bool := l.isOwner || Level.atLeast l.canGrantView .enter

def watchesResults (l : Levels) : Bool := l.isOwner || Level.atLeast l.canWatch .result

def watchesAnswers (l : Levels) : Bool := l.isOwner || Level.atLeast l.canWatch .answer

def editsChildren (l : Levels) : Bool := l.isOwner || Level.atLeast l.canEdit .children

def editsAll (l : Levels) : Bool := l.isOwner || Level.atLeast l.canEdit .all

end Levels

/-- Levels given to a group on an item, in effect from a time on. -/
structure Grant where
  canView : CanView
  canGrantView : CanGrantView
  canWatch : CanWatch
  canEdit : CanEdit
  isOwner : Bool
  since : Activation
  deriving DecidableEq

/-- Adds the levels of a grant. -/
def Tiers.addGrant (t : Tiers) (g : Grant) : Tiers :=
  ((((t.add .view (Level.rank g.canView) g.since).add .grantView (Level.rank g.canGrantView)
    g.since).add .watch (Level.rank g.canWatch) g.since).add .edit (Level.rank g.canEdit)
    g.since).add .isOwner g.isOwner.toNat g.since

/-- A grant as it is asked for, with the levels by their names. -/
structure GrantNames where
  canView : String
  canGrantView : String
  canWatch : String
  canEdit : String
  isOwner : Bool
  since : Option Timestamp
  deriving DecidableEq

/-- The grant with the named levels; the first unknown name is the fault. -/
def Grant.ofNames (names : GrantNames) : Except Fault Grant := do
  let canView ← Level.ofName? CanView names.canView
  let canGrantView ← Level.ofName? CanGrantView names.canGrantView
  let canWatch ← Level.ofName? CanWatch names.canWatch
  let canEdit ← Level.ofName? CanEdit names.canEdit
  return ⟨canView, canGrantView, canWatch, canEdit, names.isOwner, .ofOption names.since⟩

/-- The access to an item worked out for a group: its tiers, and the levels that were in effect when
it was last looked at. -/
structure Generated where
  levels : Levels
  tiers : Tiers
  computedAt : Timestamp
  deriving DecidableEq

end Courseware
