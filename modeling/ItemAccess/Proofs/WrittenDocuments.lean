import ItemAccess.Failure.Exception
import ItemAccess.Proofs.Json.Spelling
import ItemAccess.Settings

/-!
# Settings and exceptions are read back

What is written for settings or for an exception spells a document with all their fields, and of that
document the fields are read as they were. Settings that were read from any other text, with fields left
out or written in another way, are therefore read again as the same settings once they are written.
-/

namespace ItemAccess

open Json

theorem TextModel.ofJson?_name (t : TextModel) : ofJson? (.string (some t.name)) = some t := by
  cases t <;> rfl

theorem TraceMode.ofJson?_name (t : TraceMode) : ofJson? (.string (some t.name)) = some t := by
  cases t <;> rfl

theorem ExceptionClass.ofJson?_name (c : ExceptionClass) : ofJson? (.string (some c.name)) = some c := by
  cases c <;> rfl

namespace Limits

def boundDocument (n : Option UInt64) : Json :=
  n.elim .null fun n => .natural n.toNat

theorem spells_bound (n : Option UInt64) : Spells (bound n) (boundDocument n) :=
  spells_optional (fun n : UInt64 => toString n.toNat) (fun n => .natural n.toNat)
    (fun n => spells_natural n.toNat) n

theorem boundOfJson?_document (n : Option UInt64) : boundOfJson? (some (boundDocument n)) = some n := by
  cases n with
  | none => rfl
  | some n =>
    have hn : n.toNat < UInt64.size := n.toNat_lt
    simp [boundDocument, boundOfJson?, orDefault?, optional?, word?, hn]

def members (l : Limits) : List Member :=
  [⟨"max_allocations", bound l.allocations, boundDocument l.allocations⟩,
    ⟨"max_memory", bound l.memory, boundDocument l.memory⟩]

def document (l : Limits) : Json :=
  .object (l.members.map fun m => (some m.name, m.document))

theorem spells_document (l : Limits) : Spells l.toJson l.document := by
  have hmembers : ∀ m ∈ l.members, Spells m.text m.document := by
    simp [members, spells_bound]
  exact (spells_object hmembers :)

theorem ofJson?_document (l : Limits) : ofJson? l.document = some l := by
  have hrecord : l.document.record? ["max_allocations", "max_memory"] =
      some [some (boundDocument l.allocations), some (boundDocument l.memory)] := rfl
  simp [ofJson?, hrecord, boundOfJson?_document]

end Limits

namespace Settings

def members (s : Settings) : List Member :=
  [⟨"text_model", Writer.string s.textModel.name, .string (some s.textModel.name)⟩,
    ⟨"limits", s.limits.toJson, s.limits.document⟩,
    ⟨"trace", Writer.string s.trace.name, .string (some s.trace.name)⟩]

def document (s : Settings) : Json :=
  .object (s.members.map fun m => (some m.name, m.document))

theorem spells_document (s : Settings) : Spells s.toJson s.document := by
  have hmembers : ∀ m ∈ s.members, Spells m.text m.document := by
    simp [members, spells_string, s.limits.spells_document]
  exact (spells_object hmembers :)

theorem ofJson?_document (s : Settings) : ofJson? s.document = some s := by
  have hrecord : s.document.record? ["text_model", "limits", "trace"] =
      some [some (.string (some s.textModel.name)), some s.limits.document,
        some (.string (some s.trace.name))] := rfl
  simp [ofJson?, hrecord, orDefault?, TextModel.ofJson?_name, TraceMode.ofJson?_name,
    s.limits.ofJson?_document]

theorem read?_toJson (s : Settings) : read? s.toJson = some s := by
  rw [read?, read?_of_spells s.spells_document, Option.bind_some, ofJson?_document]

end Settings

namespace Exception

def members (e : Exception) : List Member :=
  [⟨"exc_type", Writer.string e.cls.name, .string (some e.cls.name)⟩,
    ⟨"arg", Writer.optional Writer.string e.arg, e.arg.elim .null fun a => .string (some a)⟩]

def document (e : Exception) : Json :=
  .object (e.members.map fun m => (some m.name, m.document))

theorem spells_document (e : Exception) : Spells e.toJson e.document := by
  have hmembers : ∀ m ∈ e.members, Spells m.text m.document := by
    simp [members, spells_string, spells_optional _ _ spells_string e.arg]
  exact (spells_object hmembers :)

theorem ofJson?_document (e : Exception) : ofJson? e.document = some e := by
  -- The document is opened, for an exception is also read from an array.
  have hrecord : record? ["exc_type", "arg"]
      (.object (e.members.map fun m => (some m.name, m.document))) =
      some [some (.string (some e.cls.name)),
        some (e.arg.elim .null fun a => .string (some a))] := rfl
  have harg : argOfJson? (e.arg.elim .null fun a => .string (some a)) = some e.arg := by
    cases e.arg <;> rfl
  simp [document, ofJson?, hrecord, orDefault?, ExceptionClass.ofJson?_name, harg]

theorem read?_toJson (e : Exception) : read? e.toJson = some e := by
  rw [read?, read?_of_spells e.spells_document, Option.bind_some, ofJson?_document]

end Exception

/-- Settings and exceptions are read back from what is written for them. Settings that were read from any
text are read again from what is written for them. -/
theorem written_documents_read_back :
    (∀ s : Settings, Settings.read? s.toJson = some s) ∧
    (∀ (text : String) (s : Settings), Settings.read? text = some s →
      Settings.read? s.toJson = some s) ∧
    ∀ e : Exception, Exception.read? e.toJson = some e :=
  ⟨Settings.read?_toJson, fun _ s _ => s.read?_toJson, Exception.read?_toJson⟩

/-- Settings as an array, with blanks, a field that nobody reads and others left out. -/
theorem written_documents_read_back_array :
    ∃ s : Settings,
      Settings.read? " [\"bytestring\",\t\x7b\"max_memory\": 4096, \"no\": [-1.5e3]\x7d] " = some s ∧
      s = ⟨.byteString, ⟨none, some 4096⟩, .off⟩ ∧ Settings.read? s.toJson = some s := by
  have hread : Settings.read? " [\"bytestring\",\t\x7b\"max_memory\": 4096, \"no\": [-1.5e3]\x7d] " =
      some ⟨.byteString, ⟨none, some 4096⟩, .off⟩ := by decide +kernel
  exact ⟨_, hread, rfl, written_documents_read_back.2.1 _ _ hread⟩

end ItemAccess
