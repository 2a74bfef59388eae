import Courseware.Ids
import Courseware.Vocabulary

/-!
# Items and the links between them

Items are tasks and chapters. A link makes one item a part of another; it says how much the part
weighs in the score, whether it counts for validation, and how partial access passes along.
-/

namespace Courseware

/-- How the validation of an item follows from that of its parts. -/
inductive Validation where
  /-- One validated part is enough. -/
  | standard
  /-- Every part linked for validation has to be validated. -/
  | categories
  deriving DecidableEq

instance : Vocabulary Validation where
  all := [.standard, .categories]
  name | .standard => "Default" | .categories => "Categories"
  tag | .standard => "Default" | .categories => "Categories"

inductive Category where
  | normal | validation
  deriving DecidableEq

instance : Vocabulary Category where
  all := [.normal, .validation]
  name | .normal => "Normal" | .validation => "Validation"
  tag | .normal => "Normal" | .validation => "Validation"

/-- What partial access to an item means for a part of it. -/
inductive PartialAccess where
  /-- Nothing. -/
  | stops
  /-- Partial access to the part. -/
  | passes
  /-- That the part is shown grayed. -/
  | grays
  deriving DecidableEq

instance : Vocabulary PartialAccess where
  all := [.stops, .passes, .grays]
  name | .stops => "None" | .passes => "AsPartial" | .grays => "AsGrayed"
  tag | .stops => "None" | .passes => "AsPartial" | .grays => "AsGrayed"

structure Item where
  /-- Nothing is inherited from a custom chapter. -/
  customChapter : Bool
  validation : Validation
  /-- Whether the item is left out of the score and validation of what it is part of. -/
  unscored : Bool
  /-- Whether results on the item come about by an explicit start only. -/
  explicitEntry : Bool
  deriving DecidableEq

def Item.plain : Item := ⟨false, .standard, false, false⟩

/-- How an item is part of another. -/
structure Link where
  category : Category
  partialAccess : PartialAccess
  weight : Int64
  /-- The place among the parts. -/
  order : Int
  deriving DecidableEq

def Link.plain : Link := ⟨.normal, .passes, 1, 0⟩

end Courseware
