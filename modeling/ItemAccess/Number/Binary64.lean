/-!
# Binary floating-point numbers by their bits

A `Binary64` is a 64-bit pattern: a sign, eleven exponent bits and fifty-two fraction bits. A finite
one denotes exactly `± significand * 2 ^ power`. Comparison, truncation and the conversions to and from
integers are computed on the pattern, never by floating-point arithmetic.
-/

namespace ItemAccess

structure Binary64 where
  bits : UInt64
deriving DecidableEq, Repr

namespace Binary64

/-- The weight of the exponent's lowest bit, two to the power of fifty-two. -/
def hiddenBit : Nat := 0x10000000000000

def negative (x : Binary64) : Bool :=
  decide (0x8000000000000000 ≤ x.bits.toNat)

def exponentField (x : Binary64) : Nat :=
  x.bits.toNat / hiddenBit % 2048

def fraction (x : Binary64) : Nat :=
  x.bits.toNat % hiddenBit

def isFinite (x : Binary64) : Bool :=
  x.exponentField != 2047

def isInfinite (x : Binary64) : Bool :=
  x.exponentField == 2047 && x.fraction == 0

def isNaN (x : Binary64) : Bool :=
  x.exponentField == 2047 && x.fraction != 0

/-- The integer that the power of two scales; a normal number has its hidden bit added. -/
def significand (x : Binary64) : Nat :=
  if x.exponentField = 0 then x.fraction else x.fraction + hiddenBit

def power (x : Binary64) : Int :=
  if x.exponentField = 0 then -1074 else (x.exponentField : Int) - 1075

def isZero (x : Binary64) : Bool :=
  x.isFinite && x.significand == 0

/-- Numerical equality: the two zeros are equal, and a NaN equals nothing. -/
def sameNumber (x y : Binary64) : Bool :=
  !x.isNaN && !y.isNaN && (x == y || (x.isZero && y.isZero))

/-- The pattern without its sign, counted up or down from both zeros. -/
def rank (x : Binary64) : Int :=
  let distance := x.bits.toNat % 0x8000000000000000
  if x.negative then -(distance : Int) else (distance : Int)

-- A NaN is neither below nor above anything, itself included.
def le (x y : Binary64) : Bool :=
  !x.isNaN && !y.isNaN && decide (x.rank ≤ y.rank)

def lt (x y : Binary64) : Bool :=
  !x.isNaN && !y.isNaN && decide (x.rank < y.rank)

def bitsBelowOne (x : Binary64) : Nat :=
  if x.exponentField < 1023 then 63 else 1075 - x.exponentField

/-- Rounds towards zero and keeps the sign, also that of a zero. -/
def trunc (x : Binary64) : Binary64 :=
  let unit := Nat.pow 2 x.bitsBelowOne
  ⟨.ofNat (x.bits.toNat / unit * unit)⟩

def hasFraction (x : Binary64) : Bool :=
  !x.sameNumber x.trunc

def wholeMagnitude (x : Binary64) : Nat :=
  match x.power with
  | .ofNat p => x.significand * Nat.pow 2 p
  | .negSucc p => x.significand / Nat.pow 2 (p + 1)

def wholePart? (x : Binary64) : Option Int :=
  if x.isFinite then
    some (if x.negative then -(x.wholeMagnitude : Int) else (x.wholeMagnitude : Int))
  else none

/-- Rounds towards zero and stops at the ends of the range; a NaN gives zero. -/
def toInt64 (x : Binary64) : Int64 :=
  if x.isNaN then 0
  else match x.wholePart? with
    | some n => Int64.ofInt (max Int64.minValue.toInt (min n Int64.maxValue.toInt))
    | none => if x.negative then Int64.minValue else Int64.maxValue

/-- The significand of fifty-three bits nearest to `n`, in units of `2 ^ shift`; a tie goes to the
even one. -/
def roundedSignificand (n shift : Nat) : Nat :=
  let unit := Nat.pow 2 shift
  let q := n / unit
  let r := n % unit
  if unit < 2 * r ∨ (2 * r = unit ∧ q % 2 = 1) then q + 1 else q

/-- The nearest number to an integer. A significand that is rounded up to `2 ^ 53` carries into the
exponent. -/
def ofInt64 (i : Int64) : Binary64 :=
  let n := i.toInt.natAbs
  let sign := if i < 0 then 0x8000000000000000 else 0
  if n = 0 then ⟨0⟩
  else
    let s := if n.log2 ≤ 52 then n * Nat.pow 2 (52 - n.log2) else roundedSignificand n (n.log2 - 52)
    ⟨.ofNat (sign + (n.log2 + 1022) * hiddenBit + s)⟩

end Binary64

end ItemAccess
