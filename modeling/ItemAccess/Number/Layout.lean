import ItemAccess.Number.Shortest

/-!
# The text of a number

A decimal is written positionally when the exponent of its first digit is at least -4 and below 16,
with at least one digit on each side of the point. Outside that range it is written as a mantissa,
an `e`, a sign and at least two exponent digits.
-/

namespace ItemAccess

namespace Scientific

def isPositional (d : Scientific) : Bool :=
  decide (-4 ≤ d.exponent ∧ d.exponent < 16)

def positional (d : Scientific) : List Char :=
  match d.exponent with
  | .ofNat n =>
    if n + 1 < d.digits.length then d.digits.take (n + 1) ++ '.' :: d.digits.drop (n + 1)
    else d.digits ++ List.replicate (n + 1 - d.digits.length) '0' ++ ['.', '0']
  | .negSucc n => '0' :: '.' :: List.replicate n '0' ++ d.digits

def mantissa (d : Scientific) : List Char :=
  match d.digits with
  | first :: second :: rest => first :: '.' :: second :: rest
  | ds => ds

def exponentText (e : Int) : List Char :=
  let ds := Nat.toDigits 10 e.natAbs
  (if e < 0 then '-' else '+') :: List.replicate (2 - ds.length) '0' ++ ds

def unsignedText (d : Scientific) : List Char :=
  if d.isPositional then d.positional else d.mantissa ++ 'e' :: exponentText d.exponent

def text (d : Scientific) : List Char :=
  if d.negative then '-' :: d.unsignedText else d.unsignedText

end Scientific

/-- The text of a float; the sign of a NaN is not shown, that of a zero is. -/
def Binary64.text (x : Binary64) : String :=
  if x.isNaN then "nan"
  else if x.isInfinite then if x.negative then "-inf" else "inf"
  else String.ofList x.scientific.text

end ItemAccess
