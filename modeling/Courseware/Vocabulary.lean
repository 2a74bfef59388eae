/-!
# Types with named values

A vocabulary is a finite type whose values have names. The name is what people and stored rows use;
the tag is the spelling in records.
-/

namespace Courseware

class Vocabulary (α : Type) where
  all : List α
  name : α → String
  tag : α → String

/-- Why a written value could not be read. -/
inductive DecodeFault where
  | unknownName
  | outOfRange (value : Int)
  deriving DecidableEq

def DecodeFault.message : DecodeFault → String
  | unknownName => "parsing from string failed"
  | outOfRange value => s!"value {value} is out of range"

namespace Vocabulary

/-- The value with the given name. -/
def ofName? (α : Type) [Vocabulary α] (name : String) : Except DecodeFault α :=
  match (all : List α).find? fun a => Vocabulary.name a == name with
  | some a => .ok a
  | none => .error .unknownName

/-- The value with the given tag. -/
def ofTag? (α : Type) [Vocabulary α] (tag : String) : Option α :=
  (all : List α).find? fun a => Vocabulary.tag a == tag

end Vocabulary

end Courseware
