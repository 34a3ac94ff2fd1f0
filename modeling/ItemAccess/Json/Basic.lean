/-!
# JSON documents

The tree of a JSON text, as far as the readers of this library look into it. Of a number only the
naturals are told apart. A string written with escapes that do not form Unicode text is a string
without a text; it may stand where nobody reads it. Members of an object keep their order, and a
name may occur twice.
-/

namespace ItemAccess

inductive Json where
  | null
  | bool (b : Bool)
  | natural (n : Nat)
  | otherNumber
  | string (text : Option String)
  | array (items : List Json)
  | object (members : List (Option String × Json))

namespace Json

/-- The named alternative of an enumeration: its name as a string, or an object whose one member has
that name and holds `null`. -/
def variant? : Json → Option String
  | .string text => text
  | .object [(name, .null)] => name
  | _ => none

def word? : Json → Option UInt64
  | .natural n => if n < UInt64.size then some (UInt64.ofNat n) else none
  | _ => none

def optional? {α : Type} (read : Json → Option α) : Json → Option (Option α)
  | .null => some none
  | j => (read j).map some

def orDefault? {α : Type} (fallback : α) (read : Json → Option α) : Option Json → Option α
  | none => some fallback
  | some j => read j

def membersNamed (members : List (Option String × Json)) (name : String) : List Json :=
  members.filterMap fun m => if m.1 = some name then some m.2 else none

/-- The one member of that name, none if there is no such member, and a refusal if there are two. -/
def single? (members : List (Option String × Json)) (name : String) : Option (Option Json) :=
  match membersNamed members name with
  | [] => some none
  | [j] => some (some j)
  | _ => none

/-- The fields of a record, each of them where it is given. A record is an object, whose members of
other names are skipped, or an array of its fields in order, from the first on. -/
def record? (names : List String) : Json → Option (List (Option Json))
  | .object members =>
    if members.all (·.1.isSome) then names.mapM (single? members) else none
  | .array items =>
    if items.length ≤ names.length then
      some (items.map some ++ List.replicate (names.length - items.length) none)
    else none
  | _ => none

end Json

end ItemAccess
