import Courseware.Permission.Levels
import Courseware.Record

/-!
# Permissions as records
-/

namespace Courseware

instance : Recorded Levels :=
  .ofFields ["can_view", "can_grant_view", "can_watch", "can_edit", "is_owner", "is_grayed"]
    (fun l => (l.canView, l.canGrantView, l.canWatch, l.canEdit, l.isOwner, l.isGrayed, ()))
    (fun (canView, canGrantView, canWatch, canEdit, isOwner, isGrayed, ()) =>
      { canView, canGrantView, canWatch, canEdit, isOwner, isGrayed })

instance : Recorded ((GroupId × ItemId × GroupId) × Grant) :=
  .ofFields ["group", "item", "giver", "can_view", "can_grant_view", "can_watch", "can_edit",
      "is_owner", "since"]
    (fun ((group, item, giver), g) =>
      (group, item, giver, g.canView, g.canGrantView, g.canWatch, g.canEdit, g.isOwner,
        g.since.toOption, ()))
    (fun (group, item, giver, canView, canGrantView, canWatch, canEdit, isOwner, since, ()) =>
      ((group, item, giver),
        { canView, canGrantView, canWatch, canEdit, isOwner, since := .ofOption since }))

instance : Recorded GrantNames :=
  .ofFields ["can_view", "can_grant_view", "can_watch", "can_edit", "is_owner", "since"]
    (fun g => (g.canView, g.canGrantView, g.canWatch, g.canEdit, g.isOwner, g.since, ()))
    (fun (canView, canGrantView, canWatch, canEdit, isOwner, since, ()) =>
      { canView, canGrantView, canWatch, canEdit, isOwner, since })

/-- The levels worked out for a group on an item, without the tiers that they come from. -/
structure LevelsEntry where
  group : GroupId
  item : ItemId
  levels : Levels
  computedAt : Timestamp
  deriving DecidableEq

/-- The entry of what is worked out for a pair. -/
def Generated.entry (pair : GroupId × ItemId) (g : Generated) : LevelsEntry :=
  ⟨pair.1, pair.2, g.levels, g.computedAt⟩

instance : Recorded LevelsEntry :=
  .ofFields ["group", "item", "levels", "computed_at"]
    (fun e => (e.group, e.item, e.levels, e.computedAt, ()))
    (fun (group, item, levels, computedAt, ()) => { group, item, levels, computedAt })

/-- Levels in tiers have 8 bits. -/
instance : Recorded Tier :=
  .ofFields ["level", "since"]
    (fun t => ((⟨t.level⟩ : Natural 8), t.since.toOption, ()))
    (fun (level, since, ()) => ⟨level.value, .ofOption since⟩)

/-- Tiers as they are listed, component by component, no matter whether a component has any. -/
structure TierListing where
  lists : List (Component × List Tier)
  deriving DecidableEq

instance : Recorded TierListing where
  write l := .record (l.lists.map fun e => (Vocabulary.tag e.1, Recorded.write e.2))
  read?
    | .record fields => do
      let lists ← fields.mapM fun f => do
        return (← Vocabulary.ofTag? Component f.1, ← Recorded.read? f.2)
      return ⟨lists⟩
    | _ => none

end Courseware
