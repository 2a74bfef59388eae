import Courseware.Item
import Courseware.Permission.Level
import Courseware.Validity

/-!
# Access that changes with time

A tier is a level together with the time from which it is in effect. Access collects tiers for each
component; the level of a component at a time is the highest tier in effect. `normalize` keeps the
tiers that matter: those not covered by a tier that is at least as high and begins no later. What is
left of a component is a staircase, along which both the level and the beginning grow.
-/

namespace Courseware

/-- A level that is in effect from a time on. -/
structure Tier where
  level : Nat
  since : Activation
  deriving DecidableEq

namespace Tier

def isActive (t : Tier) (now : Timestamp) : Bool := t.since.isActive now

/-- Whether `a` gives at least what `b` gives, at least as early. -/
def covers (a b : Tier) : Bool := decide (b.level ≤ a.level) && decide (a.since ≤ b.since)

/-- Adds a tier to a staircase: it replaces the tiers that it covers, and nothing happens if it is
covered itself. -/
def climb (t : Tier) : List Tier → List Tier
  | [] => [t]
  | a :: rest =>
    if a.covers t then a :: rest
    else if t.covers a then climb t rest
    else if t.level < a.level then t :: a :: rest
    else a :: climb t rest

/-- The staircase of the tiers that are covered by no other. -/
def staircase (tiers : List Tier) : List Tier := tiers.foldr climb []

/-- The highest level in effect, 0 if there is none. -/
def levelAt (tiers : List Tier) (now : Timestamp) : Nat :=
  (tiers.filter (·.isActive now)).foldr (fun t level => max t.level level) 0

end Tier

/-- The tiers of each component. -/
structure Tiers where
  view : List Tier
  grantView : List Tier
  watch : List Tier
  edit : List Tier
  isOwner : List Tier
  grayed : List Tier
  deriving DecidableEq

namespace Tiers

def get (t : Tiers) : Component → List Tier
  | .view => t.view
  | .grantView => t.grantView
  | .watch => t.watch
  | .edit => t.edit
  | .isOwner => t.isOwner
  | .grayed => t.grayed

def ofFn (f : Component → List Tier) : Tiers :=
  ⟨f .view, f .grantView, f .watch, f .edit, f .isOwner, f .grayed⟩

@[simp] theorem get_ofFn (f : Component → List Tier) (c : Component) : (ofFn f).get c = f c := by
  cases c <;> rfl

theorem ext_get {t u : Tiers} (h : ∀ c, t.get c = u.get c) : t = u := by
  cases t
  cases u
  simp only [mk.injEq]
  exact ⟨h .view, h .grantView, h .watch, h .edit, h .isOwner, h .grayed⟩

def empty : Tiers := ofFn fun _ => []

instance : EmptyCollection Tiers := ⟨empty⟩
instance : Inhabited Tiers := ⟨empty⟩

@[simp] theorem get_empty (c : Component) : (∅ : Tiers).get c = [] := get_ofFn _ c

/-- Whether no component has a tier. -/
def isEmpty (t : Tiers) : Bool := decide (t = ∅)

/-- Adds a tier to a component. Level 0 gives no access and is left out. -/
def add (t : Tiers) (c : Component) (level : Nat) (since : Activation) : Tiers :=
  if level = 0 then t
  else ofFn fun c' => if c' = c then t.get c' ++ [⟨level, since⟩] else t.get c'

/-- The tiers of both, component by component. -/
def merge (t u : Tiers) : Tiers := ofFn fun c => t.get c ++ u.get c

/-- Keeps of each component the staircase of its tiers. -/
def normalize (t : Tiers) : Tiers := ofFn fun c => Tier.staircase (t.get c)

@[simp] theorem get_merge (t u : Tiers) (c : Component) : (t.merge u).get c = t.get c ++ u.get c :=
  get_ofFn _ c

@[simp] theorem get_normalize (t : Tiers) (c : Component) :
    t.normalize.get c = Tier.staircase (t.get c) := get_ofFn _ c

/-- The level of a component in effect at a time. -/
def levelAt (t : Tiers) (c : Component) (now : Timestamp) : Nat := Tier.levelAt (t.get c) now

/-- All tiers with their components, component after component. -/
def toList (t : Tiers) : List (Component × Tier) :=
  (Vocabulary.all : List Component).flatMap fun c => (t.get c).map fun tier => (c, tier)

/-- All tiers with their components, the components in the alphabetical order of their names. -/
def rows (t : Tiers) : List (Component × Tier) :=
  Component.byName.flatMap fun c => (t.get c).map fun tier => (c, tier)

/-- The normalized collection of some tiers. -/
def ofList (tiers : List (Component × Tier)) : Tiers :=
  (tiers.foldl (fun (t : Tiers) e => t.add e.1 e.2.level e.2.since) ∅).normalize

/-- What a part inherits from access to the whole, along a link that treats partial access in the
given way. Access to the content with descendants and above passes; access to the content alone
passes, grays or stops; mere information and being grayed never pass; everything else does. -/
def inherit (t : Tiers) (mode : PartialAccess) : Tiers :=
  ofFn fun
    | .view => t.view.filter fun tier =>
        decide (Level.rank CanView.contentWithDescendants ≤ tier.level) ||
          (decide (tier.level = Level.rank CanView.content) && decide (mode = .passes))
    | .grayed =>
        if mode = .grays then
          (t.view.filter fun tier => decide (tier.level = Level.rank CanView.content)).map
            fun tier => ⟨1, tier.since⟩
        else []
    | c => (t.get c).filter fun tier => decide (tier.level ≠ 0)

end Tiers

end Courseware
