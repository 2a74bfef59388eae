/-!
# Scores

A score is a binary64 number, kept by its bits. Comparisons read the bits: numbers compare by their
signed magnitude, so that both zeros are equal and nothing compares with NaN, and the total order
of bits puts -0 below +0 and NaN at the ends, by its sign. Sums, products and quotients are those of
binary64 arithmetic.
-/

namespace Courseware

/-- A binary64 number by its bits. -/
structure Score where
  bits : UInt64
  deriving DecidableEq

namespace Score

def ofFloat (x : Float) : Score := ⟨x.toBits⟩

def toFloat (s : Score) : Float := Float.ofBits s.bits

/-- The number nearest to an integer. -/
def ofInt (n : Int) : Score := ofFloat (Float.ofInt n)

/-- The number nearest to a 64-bit integer. -/
def ofInt64 (n : Int64) : Score := ⟨(Float.Model.ofInt64 n).toBits⟩

/-- The number nearest to `mantissa / 10 ^ places`. -/
def ofDecimal (mantissa : Int) (places : Nat) : Score :=
  let x := Float.ofScientific mantissa.natAbs true places
  ofFloat (if mantissa < 0 then -x else x)

def zero : Score := ⟨0⟩

/-- The full score, 100. -/
def full : Score := ⟨0x4059000000000000⟩

instance : Inhabited Score := ⟨zero⟩

/-- The bits without the sign. -/
def magnitude (s : Score) : Nat := s.bits.toNat % 0x8000000000000000

def isNegative (s : Score) : Bool := decide (0x8000000000000000 ≤ s.bits.toNat)

def isNaN (s : Score) : Bool := decide (0x7ff0000000000000 < s.magnitude)

/-- Whether the score is a number other than the infinities. -/
def isFinite (s : Score) : Bool := decide (s.magnitude < 0x7ff0000000000000)

/-- The signed magnitude; numbers other than NaN compare as these do. -/
def signed (s : Score) : Int := if s.isNegative then -(s.magnitude : Int) else s.magnitude

/-- The place in the total order of bits. -/
def place (s : Score) : Int := if s.isNegative then -(s.magnitude : Int) - 1 else s.magnitude

/-- Whether both are the same number. NaN is no number. -/
def same (a b : Score) : Bool := !a.isNaN && !b.isNaN && decide (a.signed = b.signed)

/-- Whether `a` is a smaller number than `b`. -/
def less (a b : Score) : Bool := !a.isNaN && !b.isNaN && decide (a.signed < b.signed)

/-- Whether `a` is a number no larger than `b`. -/
def atMost (a b : Score) : Bool := !a.isNaN && !b.isNaN && decide (a.signed ≤ b.signed)

/-- The larger number; NaN never is. -/
def max (a b : Score) : Score := if a.isNaN || a.less b then b else a

/-- The nearest number from 0 to 100; NaN stays. -/
def clamp (s : Score) : Score :=
  if s.less zero then zero else if full.less s then full else s

def add (a b : Score) : Score := ofFloat (a.toFloat + b.toFloat)

def mul (a b : Score) : Score := ofFloat (a.toFloat * b.toFloat)

def div (a b : Score) : Score := ofFloat (a.toFloat / b.toFloat)

/-- Adds up from the left, starting at 0. -/
def sum (xs : List Score) : Score := xs.foldl add zero

/-- The order of bits as a total order. -/
def compareTotal (a b : Score) : Ordering :=
  if a.place < b.place then .lt else if b.place < a.place then .gt else .eq

/-- The number as a stored column holds it: there is one zero, and NaN is no value. -/
def stored? (s : Score) : Option Score :=
  if s.isNaN then none else if s.magnitude = 0 then some zero else some s

end Score

end Courseware
