import Courseware.Store.Groups
import Courseware.Store.Items

/-!
# Stored permissions

Grants and the access worked out from them, row by row.
-/

namespace Courseware

/-- A group and an item. -/
abbrev Pair := GroupId × ItemId

namespace Store

/-- Gives levels to a group on an item, in place of what the same giver gave before. -/
def putGrant (s : Store) (group : GroupId) (item : ItemId) (giver : GroupId) (grant : Grant) :
    Except StoreFault Store := do
  demand (s.groups.contains group && s.items.contains item)
  return { s with grants := s.grants.insert (group, item, giver) grant }

/-- Takes a grant back and tells whether there was one. -/
def deleteGrant (s : Store) (group : GroupId) (item : ItemId) (giver : GroupId) : Bool × Store :=
  (s.grants.contains (group, item, giver),
    { s with grants := s.grants.erase (group, item, giver) })

/-- The grants on an item to a group or an ancestor whose end has not come. -/
def effectiveGrants (s : Store) (group : GroupId) (item : ItemId) (now : Timestamp) :
    List ((GroupId × ItemId × GroupId) × Grant) :=
  s.grants.toList.filter fun e => e.1.2.1 = item && s.isAncestorAt e.1.1 group now

/-- The items granted to a group or an ancestor whose end has not come. -/
def grantedItems (s : Store) (group : GroupId) (now : Timestamp) : KeySet ItemId :=
  .ofKeys ((s.grants.toList.filter fun e => s.isAncestorAt e.1.1 group now).map (·.1.2.1))

/-- The tiers worked out for a pair; there are none without a row. -/
def tiersOf (s : Store) (pair : Pair) : Tiers := ((s.generated.get? pair).map (·.tiers)).getD ∅

/-- Replaces what is worked out for a pair, with the levels in effect at `now`; without tiers there
is no row. -/
def setTiers (s : Store) (pair : Pair) (tiers : Tiers) (now : Timestamp) : Store :=
  { s with
    generated :=
      if tiers.isEmpty then s.generated.erase pair
      else s.generated.insert pair ⟨.ofTiers tiers now, tiers, now⟩ }

/-- Replaces what is worked out for a pair of an existing group and item. -/
def writeTiers (s : Store) (pair : Pair) (tiers : Tiers) (now : Timestamp) :
    Except StoreFault Store := do
  demand (tiers.isEmpty || (s.groups.contains pair.1 && s.items.contains pair.2))
  return s.setTiers pair tiers now

/-- Brings the levels of a pair up to `now` from its own tiers. -/
def refresh (s : Store) (pair : Pair) (now : Timestamp) : Store :=
  { s with
    generated := s.generated.modify pair fun g => ⟨.ofTiers g.tiers now, g.tiers, now⟩ }

/-- The pairs of some groups that have a row. -/
def generatedPairs (s : Store) (groups : List GroupId) : List Pair :=
  s.generated.keys.filter fun pair => pair.1 ∈ groups

/-- The groups with a row on one of some items. -/
def groupsWithGenerated (s : Store) (items : List ItemId) : KeySet GroupId :=
  .ofKeys ((s.generated.keys.filter fun pair => pair.2 ∈ items).map (·.1))

/-- Whether a user sees information about an item or about something that it lies below. -/
def seesFromAbove (s : Store) (user : GroupId) (item : ItemId) (now : Timestamp) : Bool :=
  s.generated.any fun pair g =>
    g.levels.isVisible && s.isAncestorAt pair.1 user now && s.isWithin pair.2 item

/-- The pairs of which a tier has come into effect since they were last looked at. -/
def pairsWithActivation (s : Store) (now : Timestamp) : List Pair :=
  (s.generated.filter fun _ g =>
    g.tiers.toList.any fun e =>
      match e.2.since with
      | .date t => g.computedAt < t && t ≤ now
      | .always => false).keys

/-- The pairs of groups that have lost an ancestor since the pairs were last looked at. -/
def pairsWithExpiredAncestor (s : Store) (now : Timestamp) : List Pair :=
  (s.generated.filter fun pair g =>
    s.ancestors.any fun k a =>
      k.2 = pair.1 &&
        match a.expiry with
        | .date t => g.computedAt < t && t ≤ now
        | .never => false).keys

/-- The highest levels of a user and of the ancestors whose end has not come. -/
def userLevels (s : Store) (user : GroupId) (item : ItemId) (now : Timestamp) : Levels :=
  (s.generated.toList.filter fun e =>
    e.1.2 = item && s.isAncestorAt e.1.1 user now).foldl (fun l e => l.max e.2.levels) .none

end Store

end Courseware
