import Courseware.Store

/-!
# Stored items

Items and the links between them, row by row.
-/

namespace Courseware.Store

def insertItem (s : Store) (id : ItemId) (item : Item) : Except StoreFault Store :=
  if s.items.contains id then .error (.taken "items.id")
  else .ok { s with items := s.items.insert id item }

/-- Makes one item part of another, or changes how it is. -/
def putLink (s : Store) (parent child : ItemId) (link : Link) : Except StoreFault Store := do
  demand (s.items.contains parent && s.items.contains child)
  return { s with links := s.links.insert (parent, child) link }

/-- Removes a link and tells whether there was one. -/
def deleteLink (s : Store) (parent child : ItemId) : Bool × Store :=
  (s.links.contains (parent, child), { s with links := s.links.erase (parent, child) })

/-- What an item is part of, in the order of the wholes. -/
def wholesOf (s : Store) (child : ItemId) : List (ItemId × Link × Item) :=
  s.links.toList.filterMap fun e =>
    if e.1.2 = child then (s.items.get? e.1.1).map fun item => (e.1.1, e.2, item) else none

/-- The parts of an item in their order, those in the same place by their numbers. -/
def partsOf (s : Store) (parent : ItemId) : List (ItemId × Link × Item) :=
  (Table.ofList (s.links.toList.filterMap fun e =>
    if e.1.1 = parent then
      (s.items.get? e.1.2).map fun item => ((e.2.order, e.1.2), (e.1.2, e.2, item))
    else none)).toList.map (·.2)

/-- The network of all links; no link ends. -/
def linkNetwork (s : Store) : Network ItemId := s.links.map fun _ _ => .never

/-- Whether an item is `root` or below it. -/
def isWithin (s : Store) (root item : ItemId) : Bool := s.linkNetwork.reaches root item

end Courseware.Store
