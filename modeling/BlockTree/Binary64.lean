/-!
# Binary floating-point values

A 64-bit floating-point value is kept as its bits, so that zeros and the values that are no numbers
stay apart. Arithmetic rounds to nearest, ties to even. The total order puts negative values below
positive ones, minus zero below zero, and what is no number outside the infinities on the side of
its sign; `rank_inj` says that it tells all bit patterns apart, and `Before` is a second account of
it, case by case. As a decimal a value has a fixed number of digits after the point: the exact value
rounded to the nearest, a tie to the even last digit, with the sign of zero.
-/

namespace BlockTree

structure Binary64 where
  bits : UInt64
  deriving DecidableEq, Repr

namespace Binary64

def ofFloat (x : Float) : Binary64 :=
  ⟨x.toBits⟩

def toFloat (x : Binary64) : Float :=
  Float.ofBits x.bits

instance : Add Binary64 := ⟨fun a b => ofFloat (a.toFloat + b.toFloat)⟩
instance : Sub Binary64 := ⟨fun a b => ofFloat (a.toFloat - b.toFloat)⟩
instance : Mul Binary64 := ⟨fun a b => ofFloat (a.toFloat * b.toFloat)⟩
instance : Div Binary64 := ⟨fun a b => ofFloat (a.toFloat / b.toFloat)⟩

/-- The nearest value to a number below `wordLimit`. -/
def ofNat (n : Nat) : Binary64 :=
  ofFloat (UInt64.ofNat n).toFloat

def sqrt (x : Binary64) : Binary64 :=
  ofFloat x.toFloat.sqrt

def zero : Binary64 := ⟨0⟩

def negZero : Binary64 := ⟨0x8000000000000000⟩

def nan : Binary64 := ⟨0x7ff8000000000000⟩

def isPositive (x : Binary64) : Bool :=
  0 < x.toFloat

def signUnit : Nat := 0x8000000000000000

/-- The weight of the lowest bit of the exponent. -/
def exponentUnit : Nat := 0x10000000000000

def isNegative (x : Binary64) : Bool :=
  signUnit ≤ x.bits.toNat

def magnitude (x : Binary64) : Nat :=
  x.bits.toNat % signUnit

def exponent (x : Binary64) : Nat :=
  x.magnitude / exponentUnit

def fraction (x : Binary64) : Nat :=
  x.magnitude % exponentUnit

def isNaN (x : Binary64) : Bool :=
  x.exponent = 2047 && x.fraction ≠ 0

def isInfinite (x : Binary64) : Bool :=
  x.exponent = 2047 && x.fraction = 0

def rank (x : Binary64) : Int :=
  if x.isNegative then -(x.magnitude : Int) - 1 else x.magnitude

theorem rank_inj {x y : Binary64} (h : x.rank = y.rank) : x = y := by
  have hx := x.bits.toNat_lt
  have hy := y.bits.toNat_lt
  suffices x.bits.toNat = y.bits.toNat by
    cases x; cases y
    exact congrArg mk (UInt64.toNat_inj.mp this)
  simp only [rank, isNegative, magnitude, decide_eq_true_eq] at h
  split at h <;> split at h <;> simp only [signUnit] at * <;> omega

def totalLE (x y : Binary64) : Bool :=
  x.rank ≤ y.rank

/-- The sum from left to right, starting from minus zero. -/
def sum (xs : List Binary64) : Binary64 :=
  xs.foldl (· + ·) negZero

-- ---------------------------------------------------------------------------
-- The total order, case by case
-- ---------------------------------------------------------------------------

inductive Kind
  | negativeNaN
  | negativeInfinity
  | finite
  | infinity
  | nan
  deriving DecidableEq, Repr

def Kind.place : Kind → Nat
  | negativeNaN => 0
  | negativeInfinity => 1
  | finite => 2
  | infinity => 3
  | nan => 4

def kind (x : Binary64) : Kind :=
  if x.isNaN then if x.isNegative then .negativeNaN else .nan
  else if x.isInfinite then if x.isNegative then .negativeInfinity else .infinity
  else .finite

/-- The size of a finite value as a multiple of the least positive value. -/
def units (x : Binary64) : Nat :=
  if x.exponent = 0 then x.fraction
  else (x.fraction + exponentUnit) * Nat.pow 2 (x.exponent - 1)

def worth (x : Binary64) : Int :=
  if x.isNegative then -x.units else x.units

/-- Whether a value comes before another one. Among values that are no number the fractions decide,
the highest bit of which tells quiet ones from signalling ones; for negative values it is the other
way round. -/
inductive Before : Binary64 → Binary64 → Prop
  | kinds {x y : Binary64} (h : x.kind.place < y.kind.place) : Before x y
  | negativeNaNs {x y : Binary64} (hx : x.kind = .negativeNaN) (hy : y.kind = .negativeNaN)
      (h : y.fraction < x.fraction) : Before x y
  | finite {x y : Binary64} (hx : x.kind = .finite) (hy : y.kind = .finite)
      (h : x.worth < y.worth) : Before x y
  | zeros : Before negZero zero
  | nans {x y : Binary64} (hx : x.kind = .nan) (hy : y.kind = .nan)
      (h : x.fraction < y.fraction) : Before x y

end Binary64

-- ---------------------------------------------------------------------------
-- Decimals with fixed places
-- ---------------------------------------------------------------------------

namespace Decimal

/-- The quotient rounded to the nearest number, a tie to the even one. -/
def roundDiv (num den : Nat) : Nat :=
  let q := num / den
  let r := num % den
  if 2 * r < den then q
  else if den < 2 * r then q + 1
  else q + q % 2

def placeText (places units : Nat) : String :=
  let whole := toString (units / Nat.pow 10 places)
  let part := toString (units % Nat.pow 10 places)
  whole ++ "." ++ "".pushn '0' (places - part.length) ++ part

/-- The magnitude of a finite value as a multiple of a power of two: its mantissa, and the power
as a numerator and a denominator. -/
def binaryParts (x : Binary64) : Nat × Nat × Nat :=
  if x.exponent = 0 then (x.fraction, 1, 1 <<< 1074)
  else
    let mantissa := x.fraction + Binary64.exponentUnit
    if x.exponent < 1075 then (mantissa, 1, 1 <<< (1075 - x.exponent))
    else (mantissa, 1 <<< (x.exponent - 1075), 1)

def fixed (places : Nat) (x : Binary64) : String :=
  if x.isNaN then "NaN"
  else
    let sign := if x.isNegative then "-" else ""
    if x.isInfinite then sign ++ "inf"
    else
      let (mantissa, num, den) := binaryParts x
      sign ++ placeText places (roundDiv (mantissa * num * Nat.pow 10 places) den)

end Decimal

end BlockTree
