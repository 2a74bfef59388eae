import Courseware.Score
import Courseware.Timestamp
import Courseware.Vocabulary

/-!
# Records

A value leaves and enters as a record: named fields that hold numbers, texts, lists and other
records. Fields may come in any order, and fields that nobody asks for are passed over; a record may
also come as the bare list of all its fields in their order. Values of a vocabulary are written by
their tags.
-/

namespace Courseware

/-- What records are made of. -/
inductive Value where
  | null
  | bool (b : Bool)
  | int (n : Int)
  | float (s : Score)
  | text (s : String)
  | list (items : List Value)
  | record (fields : List (String × Value))

namespace Value

instance : Inhabited Value := ⟨null⟩

/-- A whole number of at least `low` and at most `high`. -/
def whole? (low high : Int) : Value → Option Int
  | int n => if low ≤ n ∧ n ≤ high then some n else none
  | _ => none

/-- A whole number of so many bits without a sign. -/
def natural? (bits : Nat) (v : Value) : Option Nat := (v.whole? 0 (Nat.pow 2 bits - 1 : Nat)).map Int.toNat

/-- The fields with the given names; those that are left out are `none`. In a bare list every field
has to be there. -/
def fields? (names : List String) : Value → Option (List (Option Value))
  | record fields => some (names.map fun name => fields.lookup name)
  | list items => if items.length = names.length then some (items.map some) else none
  | _ => none

end Value

/-- A type whose values are written as records or parts of them. -/
class Recorded (α : Type) where
  write : α → Value
  read? : Value → Option α
  /-- What it means that a field of this type is left out, if it may be. -/
  absent? : Option α := none

namespace Recorded

/-- The value of a field. -/
def field? {α : Type} [Recorded α] : Option Value → Option α
  | some v => read? v
  | none => absent?

/-- Reads a value and writes it again, with all its fields. -/
def complete? (α : Type) [Recorded α] (v : Value) : Option Value := (read? v : Option α).map write

end Recorded

/-! ### Simple values -/

instance : Recorded Bool where
  write := .bool
  read?
    | .bool b => some b
    | _ => none

instance : Recorded String where
  write := .text
  read?
    | .text s => some s
    | _ => none

/-- Whole numbers have 64 bits with a sign. -/
instance : Recorded Int where
  write := .int
  read? v := v.whole? Int64.minValue.toInt Int64.maxValue.toInt

/-- A whole number of a width without a sign. -/
structure Natural (bits : Nat) where
  value : Nat
  deriving DecidableEq

instance {bits : Nat} : Recorded (Natural bits) where
  write n := .int n.value
  read? v := (v.natural? bits).map .mk

instance : Recorded Int64 where
  write n := .int n.toInt
  read? v := (v.whole? Int64.minValue.toInt Int64.maxValue.toInt).map Int64.ofInt

/-- A whole number may stand for the number nearest to it. Infinities and NaN have no digits, and
`null` is written for them. -/
instance : Recorded Score where
  write s := if s.isFinite then .float s else .null
  read?
    | .float s => some s
    | .int n => some (.ofInt n)
    | _ => none

instance : Recorded Timestamp where
  write t := .int t.toInt
  read? v := (v.whole? Int64.minValue.toInt Int64.maxValue.toInt).map .ofInt

/-- Nothing is written as `null`, or left out. -/
instance {α : Type} [Recorded α] : Recorded (Option α) where
  write
    | some a => Recorded.write a
    | none => .null
  read?
    | .null => some none
    | v => (Recorded.read? v).map some
  absent? := some none

instance {α : Type} [Recorded α] : Recorded (List α) where
  write as := .list (as.map Recorded.write)
  read?
    | .list items => items.mapM Recorded.read?
    | _ => none

/-- A tag stands alone, or as the name of an empty field. -/
instance (priority := low) {α : Type} [Vocabulary α] : Recorded α where
  write a := .text (Vocabulary.tag a)
  read?
    | .text tag => Vocabulary.ofTag? α tag
    | .record [(tag, .null)] => Vocabulary.ofTag? α tag
    | _ => none

/-! ### Records -/

/-- The fields of a record as nested pairs, ended by the unit value. -/
class Fields (τ : Type) where
  writeAll : τ → List Value
  readAll? : List (Option Value) → Option τ

instance : Fields Unit where
  writeAll _ := []
  readAll?
    | [] => some ()
    | _ => none

instance {α τ : Type} [Recorded α] [Fields τ] : Fields (α × τ) where
  writeAll f := Recorded.write f.1 :: Fields.writeAll f.2
  readAll?
    | [] => none
    | v :: rest => do return (← Recorded.field? v, ← Fields.readAll? rest)

namespace Recorded

/-- The record with the given field names. -/
@[reducible] def ofFields {α τ : Type} [Fields τ] (names : List String) (fields : α → τ)
    (build : τ → α) : Recorded α where
  write a := .record (names.zip (Fields.writeAll (fields a)))
  read? v := do return build (← Fields.readAll? (← v.fields? names))

end Recorded

/-- Whole seconds and the nanoseconds above them. More nanoseconds than a second has count as
seconds; a field by another name is refused. -/
instance : Recorded Duration where
  write d :=
    .record [("secs", .int (d.nanos / 1000000000 : Nat)), ("nanos", .int (d.nanos % 1000000000 : Nat))]
  read? v := do
    let names := ["secs", "nanos"]
    if let .record fields := v then
      if fields.any fun f => f.1 ∉ names then none
    let [some secs, some nanos] ← v.fields? names | none
    let nanos := (← secs.natural? 64) * 1000000000 + (← nanos.natural? 32)
    if nanos / 1000000000 < UInt64.size then some ⟨nanos⟩ else none

end Courseware
