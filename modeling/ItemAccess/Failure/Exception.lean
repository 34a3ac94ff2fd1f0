import ItemAccess.Json.Reader
import ItemAccess.Json.Writer

/-!
# Exceptions

An exception is a class with an optional argument. The classes form a small hierarchy, and each has
one name, by which it is written and read.
-/

namespace ItemAccess

inductive ExceptionClass where
  | exception
  | lookupError
  | indexError
  | keyError
  | arithmeticError
  | overflowError
  | typeError
  | valueError
  | memoryError
  | systemError
deriving DecidableEq, Repr

namespace ExceptionClass

def all : List ExceptionClass :=
  [exception, lookupError, indexError, keyError, arithmeticError, overflowError, typeError,
    valueError, memoryError, systemError]

def name : ExceptionClass → String
  | exception => "Exception"
  | lookupError => "LookupError"
  | indexError => "IndexError"
  | keyError => "KeyError"
  | arithmeticError => "ArithmeticError"
  | overflowError => "OverflowError"
  | typeError => "TypeError"
  | valueError => "ValueError"
  | memoryError => "MemoryError"
  | systemError => "SystemError"

def ofName? (s : String) : Option ExceptionClass :=
  all.find? (·.name == s)

/-- Whether a handler for `handler` catches `c`. A handler for every exception still lets
`MemoryError` through: exhausted resources are not caught. -/
def isCaughtBy (c handler : ExceptionClass) : Bool :=
  c == handler ||
    match handler with
    | exception => c != memoryError
    | lookupError => c == keyError || c == indexError
    | arithmeticError => c == overflowError
    | _ => false

def ofJson? (j : Json) : Option ExceptionClass :=
  j.variant?.bind ofName?

end ExceptionClass

structure Exception where
  cls : ExceptionClass
  arg : Option String
deriving DecidableEq, Repr

namespace Exception

def withMessage (cls : ExceptionClass) (message : String) : Exception :=
  ⟨cls, some message⟩

def text (e : Exception) : String :=
  match e.arg with
  | some arg => if arg.isEmpty then e.cls.name else e.cls.name ++ ": " ++ arg
  | none => e.cls.name

def toJson (e : Exception) : String :=
  Json.Writer.object
    [("exc_type", Json.Writer.string e.cls.name),
      ("arg", Json.Writer.optional Json.Writer.string e.arg)]

def argOfJson? : Json → Option (Option String) :=
  Json.optional? fun
    | .string text => text
    | _ => none

/-- Written as an object an exception may leave out its argument, as an array it may not. -/
def ofJson? (j : Json) : Option Exception :=
  match j with
  | .array [cls, arg] => do return ⟨← ExceptionClass.ofJson? cls, ← argOfJson? arg⟩
  | .array _ => none
  | _ => do
    let [some cls, arg] ← j.record? ["exc_type", "arg"] | none
    return ⟨← ExceptionClass.ofJson? cls, ← Json.orDefault? none argOfJson? arg⟩

def read? (text : String) : Option Exception :=
  (Json.read? text).bind ofJson?

end Exception

end ItemAccess
