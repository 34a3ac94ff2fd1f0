import ItemAccess.Json.Basic
import ItemAccess.Text.Hex

/-!
# Reading JSON

`Json.read?` accepts exactly one JSON value with white space around it. Every reader takes the rest
of the text and gives the rest it leaves. The readers of values nest, so they count down a number
that the length of the text bounds: each value takes at least one character.
-/

namespace ItemAccess.Json

def isBlank (c : Char) : Bool :=
  c == ' ' || c == '\n' || c == '\t' || c == '\r'

def skipBlank (s : List Char) : List Char :=
  s.dropWhile isBlank

def word (w : List Char) (s : List Char) : Option (List Char) :=
  if w.isPrefixOf s then some (s.drop w.length) else none

def code? (a b c d : Char) : Option Nat := do
  let a ← Hex.value? a
  let b ← Hex.value? b
  let c ← Hex.value? c
  let d ← Hex.value? d
  return ((a * 16 + b) * 16 + c) * 16 + d

def escaped? : Char → Option Nat
  | '"' => some 0x22
  | '\\' => some 0x5c
  | '/' => some 0x2f
  | 'b' => some 0x08
  | 'f' => some 0x0c
  | 'n' => some 0x0a
  | 'r' => some 0x0d
  | 't' => some 0x09
  | _ => none

/-- The codes of a string up to its closing quote, and the rest. A control character must be
escaped. -/
def codes : List Char → Option (List Nat × List Char)
  | '"' :: s => some ([], s)
  | '\\' :: 'u' :: a :: b :: c :: d :: s => do
    let n ← code? a b c d
    let (ns, rest) ← codes s
    return (n :: ns, rest)
  | '\\' :: c :: s => do
    let n ← escaped? c
    let (ns, rest) ← codes s
    return (n :: ns, rest)
  | c :: s =>
    if c.toNat < 0x20 then none
    else do
      let (ns, rest) ← codes s
      return (c.toNat :: ns, rest)
  | [] => none

def isHighSurrogate (n : Nat) : Bool := decide (0xd800 ≤ n ∧ n < 0xdc00)

def isLowSurrogate (n : Nat) : Bool := decide (0xdc00 ≤ n ∧ n < 0xe000)

/-- The text that codes spell: two surrogates make one character, one alone makes none. -/
def spell : List Nat → Option (List Char)
  | [] => some []
  | h :: ns =>
    if isHighSurrogate h then
      match ns with
      | l :: rest =>
        if isLowSurrogate l then
          (spell rest).map (Char.ofNat (0x10000 + (h - 0xd800) * 0x400 + (l - 0xdc00)) :: ·)
        else none
      | [] => none
    else if isLowSurrogate h then none
    else (spell ns).map (Char.ofNat h :: ·)

def stringTail (s : List Char) : Option (Option String × List Char) := do
  let (ns, rest) ← codes s
  return ((spell ns).map String.ofList, rest)

def digits (s : List Char) : Option (List Char × List Char) :=
  match s.takeWhile Char.isDigit with
  | [] => none
  | ds => some (ds, s.dropWhile Char.isDigit)

def digitsValue (ds : List Char) : Nat :=
  ds.foldl (fun n c => n * 10 + (c.toNat - 48)) 0

/-- The digits in front of a point; no zero stands before another digit. -/
def wholePart (s : List Char) : Option (Nat × List Char) :=
  match s with
  | '0' :: c :: s => if c.isDigit then none else some (0, c :: s)
  | _ => (digits s).map fun (ds, rest) => (digitsValue ds, rest)

def fractionPart (s : List Char) : Option (Bool × List Char) :=
  match s with
  | '.' :: s => (digits s).map fun (_, rest) => (true, rest)
  | _ => some (false, s)

def exponentPart (s : List Char) : Option (Bool × List Char) :=
  match s with
  | c :: s' =>
    if c == 'e' || c == 'E' then
      let s' := match s' with
        | d :: s'' => if d == '+' || d == '-' then s'' else s'
        | [] => []
      (digits s').map fun (_, rest) => (true, rest)
    else some (false, s)
  | [] => some (false, s)

/-- A number. It is a natural when it has no sign, no point and no exponent. -/
def number (s : List Char) : Option (Json × List Char) := do
  let (signed, s) := match s with
    | '-' :: s => (true, s)
    | s => (false, s)
  let (n, s) ← wholePart s
  let (pointed, s) ← fractionPart s
  let (scaled, s) ← exponentPart s
  return (if signed || pointed || scaled then .otherNumber else .natural n, s)

mutual

def value : Nat → List Char → Option (Json × List Char)
  | 0, _ => none
  | fuel + 1, s =>
    match skipBlank s with
    | '"' :: s => (stringTail s).map fun (text, rest) => (.string text, rest)
    | '[' :: s =>
      match skipBlank s with
      | ']' :: rest => some (.array [], rest)
      | s => (elements fuel s).map fun (items, rest) => (.array items, rest)
    | '\x7b' :: s =>
      match skipBlank s with
      | '\x7d' :: rest => some (.object [], rest)
      | s => (members fuel s).map fun (ms, rest) => (.object ms, rest)
    | 'n' :: s => (word ['u', 'l', 'l'] s).map (.null, ·)
    | 't' :: s => (word ['r', 'u', 'e'] s).map (.bool true, ·)
    | 'f' :: s => (word ['a', 'l', 's', 'e'] s).map (.bool false, ·)
    | s => number s

def elements : Nat → List Char → Option (List Json × List Char)
  | 0, _ => none
  | fuel + 1, s => do
    let (item, s) ← value fuel s
    match skipBlank s with
    | ',' :: s =>
      let (items, rest) ← elements fuel s
      return (item :: items, rest)
    | ']' :: rest => return ([item], rest)
    | _ => none

def members : Nat → List Char → Option (List (Option String × Json) × List Char)
  | 0, _ => none
  | fuel + 1, s => do
    let .cons '"' s := skipBlank s | none
    let (name, s) ← stringTail s
    let .cons ':' s := skipBlank s | none
    let (item, s) ← value fuel s
    match skipBlank s with
    | ',' :: s =>
      let (ms, rest) ← members fuel s
      return ((name, item) :: ms, rest)
    | '\x7d' :: rest => return ([(name, item)], rest)
    | _ => none

end

def read? (text : String) : Option Json := do
  let s := text.toList
  let (j, rest) ← value (2 * s.length + 2) s
  if (skipBlank rest).isEmpty then some j else none

end ItemAccess.Json
