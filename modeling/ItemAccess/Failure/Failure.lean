import ItemAccess.Failure.Complaint

/-!
# How an operation fails

A `Failure` is an exception together with the kind of trouble it reports. Failing slots do not
return their exception: they leave it in the `Pending` place and raise a mark, and whoever called
the slot takes it from there.
-/

namespace ItemAccess

inductive FailureKind where
  | indexOutOfRange
  | typeMismatch
  | propagated
  | resourceExhausted
deriving DecidableEq, Repr

namespace FailureKind

/-- In the alphabetical order of the names. -/
def all : List FailureKind := [indexOutOfRange, propagated, resourceExhausted, typeMismatch]

def name : FailureKind → String
  | indexOutOfRange => "IndexOutOfRange"
  | typeMismatch => "TypeMismatch"
  | propagated => "PropagatedFailure"
  | resourceExhausted => "ResourceExhausted"

def ofName? (s : String) : Option FailureKind :=
  all.find? (·.name == s)

def ofJson? (j : Json) : Option FailureKind :=
  j.variant?.bind ofName?

end FailureKind

structure Failure where
  kind : FailureKind
  exception : Exception
deriving DecidableEq, Repr

namespace Failure

def cls (f : Failure) : ExceptionClass := f.exception.cls

def message (f : Failure) : Option String := f.exception.arg

def text (f : Failure) : String := f.exception.text

def ofComplaint (c : Complaint) : Failure where
  kind := match c with
    | .outOfRange _ => .indexOutOfRange
    | .indexTooLarge _ => .indexOutOfRange
    | .missingKey _ => .propagated
    | .limit _ => .resourceExhausted
    | _ => .typeMismatch
  exception := c.exception

def ofLimit (e : LimitError) : Failure := ofComplaint (.limit e)

end Failure

structure Raised where
deriving DecidableEq, Repr

/-- The place where a failing slot leaves its exception. -/
structure Pending where
  exception : Option Exception := none
deriving DecidableEq, Repr

namespace Pending

def record (_ : Pending) (e : Exception) : Pending := ⟨some e⟩

def fetch (p : Pending) : Option Exception × Pending := (p.exception, ⟨none⟩)

def isSet (p : Pending) : Bool := p.exception.isSome

def occurred (p : Pending) : Option ExceptionClass := p.exception.map (·.cls)

/-- Stands in for the exception that a failing slot forgot to leave. -/
def forgotten : Exception := .withMessage .systemError "error return without exception set"

/-- The failure that a raised mark stands for; the place is empty afterwards. -/
def settle (p : Pending) : Failure × Pending :=
  (⟨.propagated, p.exception.getD forgotten⟩, ⟨none⟩)

end Pending

end ItemAccess
