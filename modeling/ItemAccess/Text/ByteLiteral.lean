import ItemAccess.Text.Hex

/-!
# Byte strings as quoted literals

A byte string is written between single quotes, or between double quotes when it holds a single
quote and no double one. Backslash, tab, line feed, carriage return and the chosen quote are escaped
by a backslash, other bytes outside printable ASCII as `\x` and two lower-case hexadecimal digits.
-/

namespace ItemAccess.ByteLiteral

/-- A double quote only where it saves every escape of a single one. -/
def quote (bytes : List UInt8) : Char :=
  if bytes.contains 0x27 && !bytes.contains 0x22 then '"' else '\''

def escape (q : Char) (b : UInt8) : List Char :=
  let c := Char.ofNat b.toNat
  if b = 0x5c then ['\\', '\\']
  else if b = 0x09 then ['\\', 't']
  else if b = 0x0a then ['\\', 'n']
  else if b = 0x0d then ['\\', 'r']
  else if c = q then ['\\', q]
  else if 0x20 ≤ b ∧ b < 0x7f then [c]
  else ['\\', 'x', Hex.digit (b.toNat / 16), Hex.digit (b.toNat % 16)]

def write (bytes : List UInt8) : List Char :=
  let q := quote bytes
  q :: bytes.flatMap (escape q) ++ [q]

end ItemAccess.ByteLiteral
