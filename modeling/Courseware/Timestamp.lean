/-!
# Points in time and spans of time

A timestamp counts milliseconds in 64 bits. Moving a timestamp by a span first cuts the span's
milliseconds down to 64 bits, with wrap-around, and then adds or subtracts without ever leaving the
range of timestamps. A clock moves by the same cut span, but wraps around at the ends of the range.
-/

namespace Courseware

/-- A span of time in nanoseconds. -/
structure Duration where
  nanos : Nat
  deriving DecidableEq

namespace Duration

def zero : Duration := ⟨0⟩

def ofMillis (n : Nat) : Duration := ⟨n * 1000000⟩

/-- Whole milliseconds. -/
def millis (d : Duration) : Nat := d.nanos / 1000000

def add (a b : Duration) : Duration := ⟨a.nanos + b.nanos⟩

def min (a b : Duration) : Duration := if a.nanos ≤ b.nanos then a else b

/-- The whole milliseconds of the span as a signed 64-bit number, wrapped around. -/
def wrappedMillis (d : Duration) : Int64 := Int64.ofNat d.millis

@[simp] theorem millis_ofMillis (n : Nat) : (ofMillis n).millis = n := by
  simp [ofMillis, millis]

end Duration

/-- Milliseconds since the beginning of 1970. -/
structure Timestamp where
  millis : Int64
  deriving DecidableEq

namespace Timestamp

def ofInt (n : Int) : Timestamp := ⟨Int64.ofInt n⟩

def toInt (t : Timestamp) : Int := t.millis.toInt

def zero : Timestamp := ⟨0⟩

instance : Inhabited Timestamp := ⟨zero⟩

/-- The latest point in time that can be told. -/
def latest : Timestamp := ⟨Int64.maxValue⟩

/-- The earliest point in time that can be told. -/
def earliest : Timestamp := ⟨Int64.minValue⟩

instance : LT Timestamp := ⟨fun a b => a.millis < b.millis⟩
instance : LE Timestamp := ⟨fun a b => a.millis ≤ b.millis⟩
instance (a b : Timestamp) : Decidable (a < b) := inferInstanceAs (Decidable (a.millis < b.millis))
instance (a b : Timestamp) : Decidable (a ≤ b) := inferInstanceAs (Decidable (a.millis ≤ b.millis))

theorem lt_iff_toInt_lt {a b : Timestamp} : a < b ↔ a.toInt < b.toInt := Int64.lt_iff_toInt_lt

theorem le_iff_toInt_le {a b : Timestamp} : a ≤ b ↔ a.toInt ≤ b.toInt := Int64.le_iff_toInt_le

theorem toInt_inj {a b : Timestamp} : a.toInt = b.toInt ↔ a = b := by
  cases a
  cases b
  simp [toInt, Int64.toInt_inj]

theorem toInt_earliest_le (t : Timestamp) : earliest.toInt ≤ t.toInt := Int64.minValue_le_toInt _

theorem toInt_le_latest (t : Timestamp) : t.toInt ≤ latest.toInt := Int64.toInt_le _

theorem eq_earliest_of_le {t : Timestamp} (h : t ≤ earliest) : t = earliest :=
  toInt_inj.1 (Int.le_antisymm (le_iff_toInt_le.1 h) t.toInt_earliest_le)

/-- The nearest timestamp to a number of milliseconds. -/
def saturate (n : Int) : Timestamp :=
  if n < Int64.minValue.toInt then earliest
  else if Int64.maxValue.toInt < n then latest
  else ofInt n

/-- The later of two points in time. -/
def max (a b : Timestamp) : Timestamp := if a ≤ b then b else a

/-- The earlier of two points in time. -/
def min (a b : Timestamp) : Timestamp := if a ≤ b then a else b

def add (t : Timestamp) (d : Duration) : Timestamp := saturate (t.toInt + d.wrappedMillis.toInt)

def sub (t : Timestamp) (d : Duration) : Timestamp := saturate (t.toInt - d.wrappedMillis.toInt)

instance : HAdd Timestamp Duration Timestamp := ⟨add⟩
instance : HSub Timestamp Duration Timestamp := ⟨sub⟩

/-- The time a clock shows after a span, wrapped around at the ends of the range. -/
def advance (t : Timestamp) (d : Duration) : Timestamp := ⟨t.millis + d.wrappedMillis⟩

def compare (a b : Timestamp) : Ordering :=
  if a < b then .lt else if b < a then .gt else .eq

/-- The latest of some points in time. -/
def latestOf : List Timestamp → Option Timestamp
  | [] => none
  | t :: rest => some (rest.foldl max t)

/-- The earliest of some points in time. -/
def earliestOf : List Timestamp → Option Timestamp
  | [] => none
  | t :: rest => some (rest.foldl min t)

def text (t : Timestamp) : String := s!"{t.toInt}ms"

end Timestamp

end Courseware
