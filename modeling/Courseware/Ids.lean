/-!
# Identifiers

Everything stored is known by a whole number chosen by whoever creates it; answers get theirs from a
source of identifiers, which hands out numbers that need not be fresh.
-/

namespace Courseware

abbrev GroupId := Int
abbrev ItemId := Int
abbrev AttemptId := Int
abbrev AnswerId := Int
abbrev EdgeId := Int

/-- The number after another one. Numbers are 64-bit words with a sign, so that the smallest follows
the largest. -/
def AttemptId.next (id : AttemptId) : AttemptId := (id + 1).bmod UInt64.size

/-- A source of identifiers: the sequence it hands out, and how many it has handed out already. -/
structure IdSource where
  sequence : Nat → Int
  drawn : Nat

namespace IdSource

/-- Hands out the given identifiers in order and then the last of them for ever. -/
def ofList (ids : List Int) : IdSource := ⟨fun n => (ids[n]? <|> ids.getLast?).getD 0, 0⟩

/-- The next identifier, and the source without it. -/
def draw (s : IdSource) : Int × IdSource := (s.sequence s.drawn, { s with drawn := s.drawn + 1 })

end IdSource

end Courseware
