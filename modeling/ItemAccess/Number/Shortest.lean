import ItemAccess.Number.Binary64

/-!
# The fewest decimal digits that read back

Every finite float owns an interval of reals that round to it. On the decimal grid with a given
number of digits only the two neighbours of the exact value need a test: if any point of the grid
lies in the interval, one of them does. `Binary64.scientific` takes the coarsest grid that has a
hit, and of two hits the nearer; an exact tie goes to the larger one.
-/

namespace ItemAccess

/-- A decimal number `± d₁.d₂…dₖ * 10 ^ exponent`, its digits written as characters. -/
structure Scientific where
  negative : Bool
  digits : List Char
  exponent : Int
deriving DecidableEq, Repr

namespace Shortest

/-- A positive number `value * 2 ^ power` with the ends of its rounding interval on the same scale.
-/
structure Interval where
  low : Nat
  value : Nat
  high : Nat
  power : Int
  closed : Bool
deriving Repr

/-- Numbers round to the nearest float, and to the even significand at a midpoint, so the ends
belong to the interval exactly when the significand is even. Below a power of two the floats are
twice as dense, so there the lower end is half as far away. -/
def interval (x : Binary64) : Interval where
  low := 4 * x.significand - if x.significand = Binary64.hiddenBit then 1 else 2
  value := 4 * x.significand
  high := 4 * x.significand + 2
  power := x.power - 2
  closed := x.significand % 2 == 0

/-- The naturals `(a, b)` with `n * 2 ^ power` compared to `c * 10 ^ k` as `n * a` to `c * b`. -/
def scales (power k : Int) : Nat × Nat :=
  (Nat.pow 2 power.toNat * Nat.pow 10 (-k).toNat, Nat.pow 2 (-power).toNat * Nat.pow 10 k.toNat)

/-- The exponent of the first decimal digit of `value * 2 ^ power`. Four hundred places are more
than any float has in front of its first digit. -/
def leadingExponent (i : Interval) : Int :=
  let (a, b) := scales i.power (-400)
  ((Nat.toDigits 10 (i.value * a / b)).length : Int) - 401

def onGrid (i : Interval) (k : Int) : Option Nat :=
  let (a, b) := scales i.power k
  let inside (c : Nat) : Bool :=
    if i.closed then decide (i.low * a ≤ c * b ∧ c * b ≤ i.high * a)
    else decide (i.low * a < c * b ∧ c * b < i.high * a)
  let below := i.value * a / b
  let above := below + 1
  if i.value * a = below * b then some below
  else match inside below, inside above with
    | true, true =>
      if i.value * a - below * b < above * b - i.value * a then some below else some above
    | true, false => some below
    | false, true => some above
    | false, false => none

/-- Seventeen digits always suffice. -/
def search (i : Interval) : Nat × Int :=
  let e := leadingExponent i
  let grids := (List.range 17).map fun n : Nat => e - n
  (grids.findSome? fun k => (onGrid i k).map (·, k)).getD (0, 0)

def trimZeros (ds : List Char) : List Char :=
  match ds.reverse.dropWhile (· == '0') with
  | [] => ['0']
  | kept => kept.reverse

end Shortest

/-- The shortest decimal that reads back as a finite float. -/
def Binary64.scientific (x : Binary64) : Scientific :=
  if x.significand = 0 then ⟨x.negative, ['0'], 0⟩
  else
    let (c, k) := Shortest.search (Shortest.interval x)
    let ds := Nat.toDigits 10 c
    ⟨x.negative, Shortest.trimZeros ds, k + (ds.length : Int) - 1⟩

end ItemAccess
