import Courseware.Fault
import Courseware.Group
import Courseware.Network
import Courseware.Permission.Levels
import Courseware.Result

/-!
# The store

All that is kept, as one value. Rows refer to each other by key; an operation that would leave a row
referring to nothing, or would write a second row with the same unique key, fails and changes
nothing.
-/

namespace Courseware

structure Store where
  groups : Table GroupId Group
  /-- Memberships by parent and child. -/
  memberships : Table (GroupId × GroupId) Membership
  /-- The last number given to a membership. -/
  lastEdgeId : EdgeId
  /-- What is known about ancestors, by ancestor and descendant. -/
  ancestors : Table (GroupId × GroupId) Ancestry
  /-- Managed groups with the groups whose members manage them. -/
  managers : KeySet (GroupId × GroupId)
  items : Table ItemId Item
  /-- Links by the whole and the part. -/
  links : Table (ItemId × ItemId) Link
  /-- Grants by group, item and giver. -/
  grants : Table (GroupId × ItemId × GroupId) Grant
  /-- The access worked out for a group on an item. -/
  generated : Table (GroupId × ItemId) Generated
  /-- Attempts by participant and number. -/
  attempts : Table (GroupId × AttemptId) Attempt
  results : Table ResultKey Result
  answers : Table AnswerId Answer
  gradings : Table AnswerId Grading
  deriving DecidableEq

namespace Store

def empty : Store where
  groups := ∅
  memberships := ∅
  lastEdgeId := 0
  ancestors := ∅
  managers := ∅
  items := ∅
  links := ∅
  grants := ∅
  generated := ∅
  attempts := ∅
  results := ∅
  answers := ∅
  gradings := ∅

instance : Inhabited Store := ⟨empty⟩

/-- Refuses a row unless everything it refers to is there. -/
def demand (refersToRows : Bool) : Except StoreFault Unit :=
  if refersToRows then .ok () else .error (.broken .foreignKey)

end Store

end Courseware
