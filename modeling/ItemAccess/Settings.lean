import ItemAccess.Json.Reader
import ItemAccess.Json.Writer

/-!
# Settings

What a machine is started with: how byte strings are named and shown, which limits hold and whether
accesses are logged. Settings are written as JSON with all fields, and read with any of them
missing.
-/

namespace ItemAccess

/-- Whether byte strings play the part of text. -/
inductive TextModel where
  | byteString
  | unicode
deriving DecidableEq, Repr

namespace TextModel

def all : List TextModel := [byteString, unicode]

def name : TextModel → String
  | byteString => "bytestring"
  | unicode => "unicode"

def ofName? (s : String) : Option TextModel :=
  all.find? (·.name == s)

def ofJson? (j : Json) : Option TextModel :=
  j.variant?.bind ofName?

end TextModel

inductive TraceMode where
  | off
  | stderr
deriving DecidableEq, Repr

namespace TraceMode

def all : List TraceMode := [off, stderr]

def name : TraceMode → String
  | off => "off"
  | stderr => "stderr"

def ofName? (s : String) : Option TraceMode :=
  all.find? (·.name == s)

def ofJson? (j : Json) : Option TraceMode :=
  j.variant?.bind ofName?

end TraceMode

structure Limits where
  allocations : Option UInt64 := none
  memory : Option UInt64 := none
deriving DecidableEq, Repr

namespace Limits

def bound (n : Option UInt64) : String :=
  Json.Writer.optional (fun n => toString n.toNat) n

def toJson (l : Limits) : String :=
  Json.Writer.object [("max_allocations", bound l.allocations), ("max_memory", bound l.memory)]

def boundOfJson? : Option Json → Option (Option UInt64) :=
  Json.orDefault? none (Json.optional? Json.word?)

def ofJson? (j : Json) : Option Limits := do
  let [allocations, memory] ← j.record? ["max_allocations", "max_memory"] | none
  return ⟨← boundOfJson? allocations, ← boundOfJson? memory⟩

end Limits

structure Settings where
  textModel : TextModel := .unicode
  limits : Limits := {}
  trace : TraceMode := .off
deriving DecidableEq, Repr

namespace Settings

def toJson (s : Settings) : String :=
  Json.Writer.object
    [("text_model", Json.Writer.string s.textModel.name), ("limits", s.limits.toJson),
      ("trace", Json.Writer.string s.trace.name)]

def ofJson? (j : Json) : Option Settings := do
  let [textModel, limits, trace] ← j.record? ["text_model", "limits", "trace"] | none
  return ⟨← Json.orDefault? .unicode TextModel.ofJson? textModel,
    ← Json.orDefault? {} Limits.ofJson? limits, ← Json.orDefault? .off TraceMode.ofJson? trace⟩

def read? (text : String) : Option Settings :=
  (Json.read? text).bind ofJson?

end Settings

end ItemAccess
