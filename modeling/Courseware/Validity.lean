import Courseware.Timestamp

/-!
# From when and until when

An expiry says until when something holds; one that never comes is the widest. An activation says
from when something holds; one that always was is the earliest.
-/

namespace Courseware

/-- The end of something: it holds before the date, or for ever. -/
inductive Expiry where
  | date (t : Timestamp)
  | never
  deriving DecidableEq

namespace Expiry

def ofOption : Option Timestamp → Expiry
  | some t => date t
  | none => never

def toOption : Expiry → Option Timestamp
  | date t => some t
  | never => none

/-- Whether the end has come at `now`; it has from its own date on. -/
def isPast (e : Expiry) (now : Timestamp) : Bool :=
  match e with
  | date t => decide (t ≤ now)
  | never => false

/-- Whether `a` ends no later than `b`. -/
def le : Expiry → Expiry → Bool
  | _, never => true
  | never, date _ => false
  | date a, date b => decide (a ≤ b)

instance : LE Expiry := ⟨fun a b => le a b = true⟩
instance (a b : Expiry) : Decidable (a ≤ b) := inferInstanceAs (Decidable (le a b = true))

/-- The earlier of two ends. -/
def min (a b : Expiry) : Expiry := if a ≤ b then a else b

/-- The later of two ends. -/
def max (a b : Expiry) : Expiry := if a ≤ b then b else a

theorem le_never (a : Expiry) : a ≤ never := by
  cases a <;> rfl

theorem date_le_date {a b : Timestamp} : date a ≤ date b ↔ a ≤ b := by
  simp [LE.le, le]

theorem not_never_le_date {b : Timestamp} : ¬ never ≤ date b := by
  simp [LE.le, le]

end Expiry

/-- The beginning of something: it holds always, or from the date on. -/
inductive Activation where
  | always
  | date (t : Timestamp)
  deriving DecidableEq

namespace Activation

def ofOption : Option Timestamp → Activation
  | some t => date t
  | none => always

def toOption : Activation → Option Timestamp
  | date t => some t
  | always => none

/-- Whether it has begun at `now`; it has from its own date on. -/
def isActive (a : Activation) (now : Timestamp) : Bool :=
  match a with
  | date t => decide (t ≤ now)
  | always => true

/-- Whether `a` begins no later than `b`. -/
def le : Activation → Activation → Bool
  | always, _ => true
  | date _, always => false
  | date a, date b => decide (a ≤ b)

instance : LE Activation := ⟨fun a b => le a b = true⟩
instance (a b : Activation) : Decidable (a ≤ b) := inferInstanceAs (Decidable (le a b = true))

theorem always_le (a : Activation) : always ≤ a := rfl

theorem date_le_date {a b : Timestamp} : date a ≤ date b ↔ a ≤ b := by
  simp [LE.le, le]

theorem not_date_le_always {a : Timestamp} : ¬ date a ≤ always := by
  simp [LE.le, le]

end Activation

end Courseware
