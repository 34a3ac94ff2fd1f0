import ItemAccess.Json.Reader
import ItemAccess.Json.Writer
import ItemAccess.Proofs.Number.Digits

/-!
# What is written is read

`Spells text j` says that the reader makes the document `j` of a text and leaves whatever follows it, as
long as that cannot be taken for the rest of a number. Strings, naturals and `null` are spelled as they
are written, and so is an object whose members are spelled as they are written.
-/

namespace ItemAccess

theorem Hex.value?_digit {n : Nat} (hn : n < 16) : value? (digit n) = some n := by
  revert n
  decide

namespace Json

open Writer (escape)

variable {c : Char} {ds rest : List Char} {n fuel : Nat} {j : Json}

/-- What follows a value: nothing with which a number could go on. -/
def Closes (rest : List Char) : Prop :=
  ∀ c ∈ rest.head?, c.isDigit = false ∧ c ≠ '.' ∧ c ≠ 'e' ∧ c ≠ 'E'

/-- The reader makes `j` of the text, whatever follows it. -/
structure Spells (text : String) (j : Json) : Prop where
  read : ∀ {fuel rest}, text.toList.length ≤ fuel → Closes rest →
    value fuel (text.toList ++ rest) = some (j, rest)

theorem closes_nil : Closes [] := by
  simp [Closes]

theorem closes_comma : Closes (',' :: rest) := by
  simp [Closes]

theorem closes_brace : Closes ('\x7d' :: rest) := by
  simp [Closes]

theorem skipBlank_of_not_blank (hc : isBlank c = false) (s : List Char) : skipBlank (c :: s) = c :: s := by
  simp [skipBlank, hc]

theorem codes_short (hc : c ≠ 'u') (hn : escaped? c = some n) (s : List Char) :
    codes ('\\' :: c :: s) = (codes s).map fun p => (n :: p.1, p.2) := by
  rw [codes, hn]
  · cases codes s <;> rfl
  · simp [hc]

theorem codes_plain (hquote : c ≠ '"') (hslash : c ≠ '\\') (hc : ¬ c.toNat < 0x20) (s : List Char) :
    codes (c :: s) = (codes s).map fun p => (c.toNat :: p.1, p.2) := by
  rw [codes, if_neg hc]
  · cases codes s <;> rfl
  · simp [hquote]
  · simp [hslash]
  · simp [hslash]

theorem codes_control (hc : c.toNat < 0x20) (s : List Char) :
    codes ('\\' :: 'u' :: '0' :: '0' :: Hex.digit (c.toNat / 16) :: Hex.digit (c.toNat % 16) :: s) =
      (codes s).map fun p => (c.toNat :: p.1, p.2) := by
  have hcode : code? '0' '0' (Hex.digit (c.toNat / 16)) (Hex.digit (c.toNat % 16)) = some c.toNat := by
    have hzero : Hex.value? '0' = some 0 := by decide
    have hhi := Hex.value?_digit (n := c.toNat / 16) (by omega)
    have hlo := Hex.value?_digit (n := c.toNat % 16) (by omega)
    simp only [code?, hzero, hhi, hlo, Option.pure_def, Option.bind_eq_bind, Option.bind_some,
      Option.some.injEq]
    omega
  rw [codes, hcode]
  cases codes s <;> rfl

/-- What is written for a character is read as its code, whatever follows. The cases are those of
`escape`. -/
theorem codes_escape (c : Char) (s : List Char) :
    codes (escape c ++ s) = (codes s).map fun p => (c.toNat :: p.1, p.2) := by
  unfold escape
  split_ifs with hquote hslash hback hform hfeed hreturn htab hcontrol
  · exact codes_short (by decide) (by rw [hquote]; rfl) s
  · exact codes_short (by decide) (by rw [hslash]; rfl) s
  · exact codes_short (by decide) (by rw [hback]; rfl) s
  · exact codes_short (by decide) (by rw [hform]; rfl) s
  · exact codes_short (by decide) (by rw [hfeed]; rfl) s
  · exact codes_short (by decide) (by rw [hreturn]; rfl) s
  · exact codes_short (by decide) (by rw [htab]; rfl) s
  · exact codes_control hcontrol s
  · exact codes_plain hquote hslash hcontrol s

theorem codes_flatMap_escape (cs rest : List Char) :
    codes (cs.flatMap escape ++ '"' :: rest) = some (cs.map Char.toNat, rest) := by
  induction cs with
  | nil => rfl
  | cons c cs ih =>
    rw [List.flatMap_cons, List.append_assoc, codes_escape, ih, Option.map_some, List.map_cons]

/-- No character is half of a pair. -/
theorem spell_map_toNat (cs : List Char) : spell (cs.map Char.toNat) = some cs := by
  induction cs with
  | nil => rfl
  | cons c cs ih =>
    have hvalid : c.toNat < 0xd800 ∨ 0xdfff < c.toNat ∧ c.toNat < 0x110000 := c.valid
    have hhigh : isHighSurrogate c.toNat = false := by
      simp only [isHighSurrogate, decide_eq_false_iff_not]
      omega
    have hlow : isLowSurrogate c.toNat = false := by
      simp only [isLowSurrogate, decide_eq_false_iff_not]
      omega
    rw [List.map_cons, spell.eq_def]
    simp [hhigh, hlow, ih]

theorem stringTail_written (text : String) (rest : List Char) :
    stringTail (text.toList.flatMap escape ++ '"' :: rest) = some (some text, rest) := by
  simp [stringTail, codes_flatMap_escape, spell_map_toNat]

theorem toList_string (text : String) :
    (Writer.string text).toList = '"' :: (text.toList.flatMap escape ++ ['"']) := by
  simp [Writer.string]

theorem spells_string (text : String) : Spells (Writer.string text) (.string (some text)) := by
  refine ⟨fun {fuel rest} hfuel _ => ?_⟩
  rw [toList_string] at hfuel ⊢
  obtain ⟨fuel, rfl⟩ := Nat.exists_eq_succ_of_ne_zero (n := fuel) (by simp at hfuel; omega)
  rw [List.cons_append, value, skipBlank_of_not_blank (by decide)]
  simp [stringTail_written]

theorem digits_append (hds : ∀ c ∈ ds, c.isDigit = true) (hne : ds ≠ []) (hrest : Closes rest) :
    digits (ds ++ rest) = some (ds, rest) := by
  have hnone : rest.takeWhile Char.isDigit = [] ∧ rest.dropWhile Char.isDigit = rest := by
    cases rest with
    | nil => exact ⟨rfl, rfl⟩
    | cons c rest =>
      have hc := (hrest c rfl).1
      simp [hc]
  rw [digits, List.takeWhile_append_of_pos hds, List.dropWhile_append_of_pos hds, hnone.1, hnone.2,
    List.append_nil]
  cases ds with
  | nil => exact absurd rfl hne
  | cons c ds => rfl

theorem digitsValue_eq (ds : List Char) : digitsValue ds = Nat.ofDigitChars 10 ds 0 := by
  simp [digitsValue, Nat.ofDigitChars_eq_foldl, Nat.mul_comm]

theorem wholePart_toDigits (n : Nat) (hrest : Closes rest) :
    wholePart (Nat.toDigits 10 n ++ rest) = some (n, rest) := by
  have hdigits := digits_append (Digits.isDigit_toDigits n) Nat.toDigits_ne_nil hrest
  rcases Nat.eq_zero_or_pos n with rfl | hn
  · cases rest with
    | nil => rfl
    | cons c rest => simp [wholePart, (hrest c rfl).1]
  · -- A zero in front is read in its own way, but there is none.
    have hhead : ∀ c s, Nat.toDigits 10 n ++ rest ≠ '0' :: c :: s := by
      intro c s h
      have hzero := congrArg List.head? h
      rw [List.head?_append_of_ne_nil _ Nat.toDigits_ne_nil] at hzero
      exact Digits.head_toDigits hn hzero
    have hvalue : digitsValue (Nat.toDigits 10 n) = n := by
      rw [digitsValue_eq, Nat.ofDigitChars_ten_toDigits]
    rw [wholePart, hdigits]
    · simp only [Option.map_some, hvalue]
    · exact hhead

theorem fractionPart_of_closes (hrest : Closes rest) : fractionPart rest = some (false, rest) := by
  cases rest with
  | nil => rfl
  | cons c rest =>
    rw [fractionPart]
    simp [(hrest c rfl).2.1]

theorem exponentPart_of_closes (hrest : Closes rest) : exponentPart rest = some (false, rest) := by
  cases rest with
  | nil => rfl
  | cons c rest =>
    obtain ⟨-, -, he, hE⟩ := hrest c rfl
    simp [exponentPart, he, hE]

theorem number_toDigits (n : Nat) (hrest : Closes rest) :
    number (Nat.toDigits 10 n ++ rest) = some (.natural n, rest) := by
  have hsign : ∀ s, Nat.toDigits 10 n ++ rest ≠ '-' :: s := by
    intro s h
    have hhead := congrArg List.head? h
    rw [List.head?_append_of_ne_nil _ Nat.toDigits_ne_nil] at hhead
    have hdigit := Digits.isDigit_toDigits n '-' (List.mem_of_head? hhead)
    exact absurd hdigit (by decide)
  rw [number]
  · simp [wholePart_toDigits n hrest, fractionPart_of_closes hrest, exponentPart_of_closes hrest]
  · exact hsign

theorem value_of_digit (hc : c.isDigit = true) (fuel : Nat) (s : List Char) :
    value (fuel + 1) (c :: s) = number (c :: s) := by
  have hblank : isBlank c = false := by
    cases h : isBlank c with
    | false => rfl
    | true =>
      simp only [isBlank, Bool.or_eq_true, beq_iff_eq] at h
      rcases h with ((rfl | rfl) | rfl) | rfl <;> exact absurd hc (by decide)
  rw [value, skipBlank_of_not_blank hblank]
  split <;> simp_all

theorem spells_natural (n : Nat) : Spells (toString n) (.natural n) := by
  refine ⟨fun {fuel rest} hfuel hrest => ?_⟩
  rw [Nat.toString_eq_ofList_toDigits, String.toList_ofList] at hfuel ⊢
  obtain ⟨fuel, rfl⟩ := Nat.exists_eq_succ_of_ne_zero (n := fuel)
    (by have := Nat.length_toDigits_pos (b := 10) (n := n); omega)
  obtain ⟨c, ds, hds⟩ := List.exists_cons_of_ne_nil (Nat.toDigits_ne_nil (b := 10) (n := n))
  have hc : c.isDigit = true := Digits.isDigit_toDigits n c (by simp [hds])
  rw [← number_toDigits n hrest, hds, List.cons_append, value_of_digit hc]

theorem spells_null : Spells "null" .null := by
  refine ⟨fun {fuel rest} hfuel _ => ?_⟩
  obtain ⟨fuel, rfl⟩ := Nat.exists_eq_succ_of_ne_zero (n := fuel) (by simp at hfuel; omega)
  rfl

/-- An absent value is spelled as `null`. -/
theorem spells_optional {α : Type} (write : α → String) (document : α → Json)
    (h : ∀ a, Spells (write a) (document a)) (a : Option α) :
    Spells (Writer.optional write a) (a.elim .null document) := by
  cases a with
  | none => exact spells_null
  | some a => exact h a

structure Member where
  name : String
  text : String
  document : Json

namespace Member

def written (m : Member) : String := Writer.string m.name ++ ":" ++ m.text

theorem toList_written (m : Member) (s : List Char) :
    m.written.toList ++ s =
      '"' :: (m.name.toList.flatMap escape ++ '"' :: ':' :: (m.text.toList ++ s)) := by
  simp [written, toList_string]

theorem length_text_lt (m : Member) : m.text.toList.length + 3 ≤ m.written.toList.length := by
  simp [written, toList_string]

end Member

/-- Reading one member, up to the comma or the brace after it. -/
theorem members_member {m : Member} (hm : Spells m.text m.document)
    (hfuel : m.text.toList.length ≤ fuel) (hrest : Closes (c :: rest)) (hc : isBlank c = false) :
    members (fuel + 1) (m.written.toList ++ c :: rest) =
      if c = ',' then (members fuel rest).map fun p => ((some m.name, m.document) :: p.1, p.2)
      else if c = '\x7d' then some ([(some m.name, m.document)], rest)
      else none := by
  rw [m.toList_written, members, skipBlank_of_not_blank (by decide)]
  simp only [stringTail_written, Option.bind_eq_bind, Option.bind_some]
  rw [skipBlank_of_not_blank (by decide)]
  simp only [hm.read hfuel hrest, Option.bind_some, skipBlank_of_not_blank hc]
  split_ifs with hcomma hbrace
  · subst hcomma
    change (members fuel rest).bind (fun p => some ((some m.name, m.document) :: p.1, p.2)) = _
    cases members fuel rest <;> rfl
  · subst hbrace
    rfl
  · simp [hcomma, hbrace]

/-- The members one after the other, with commas between them. -/
theorem members_written {ms : List Member} (hms : ∀ m ∈ ms, Spells m.text m.document)
    (hne : ms ≠ []) (hfuel : (",".intercalate (ms.map Member.written)).toList.length ≤ fuel)
    (rest : List Char) :
    members fuel ((",".intercalate (ms.map Member.written)).toList ++ '\x7d' :: rest) =
      some (ms.map fun m => (some m.name, m.document), rest) := by
  induction ms generalizing fuel with
  | nil => exact absurd rfl hne
  | cons m ms ih =>
    have hm := hms m (by simp)
    have hlength := m.length_text_lt
    cases ms with
    | nil =>
      simp only [List.map_cons, List.map_nil, String.intercalate_singleton] at hfuel ⊢
      obtain ⟨fuel, rfl⟩ := Nat.exists_eq_succ_of_ne_zero (n := fuel) (by omega)
      rw [members_member hm (by omega) closes_brace (by decide)]
      rfl
    | cons m' ms =>
      rw [List.map_cons, List.map_cons, String.intercalate_cons_cons, ← List.map_cons] at hfuel ⊢
      simp only [String.toList_append, List.length_append] at hfuel
      obtain ⟨fuel, rfl⟩ := Nat.exists_eq_succ_of_ne_zero (n := fuel) (by omega)
      have htail := @ih fuel (fun m hm => hms m (by simp [hm])) (by simp) (by omega)
      rw [String.toList_append, String.toList_append, List.append_assoc, List.append_assoc]
      rw [show ",".toList = [','] from rfl, List.singleton_append,
        members_member hm (by omega) closes_comma (by decide), if_pos rfl, htail]
      rfl

/-- What is written for members begins with the quote of the first name. -/
theorem exists_intercalate (m : Member) (ms : List Member) (rest : List Char) :
    ∃ s, (",".intercalate ((m :: ms).map Member.written)).toList ++ rest = '"' :: s := by
  cases ms with
  | nil =>
    rw [List.map_cons, List.map_nil, String.intercalate_singleton, m.toList_written]
    exact ⟨_, rfl⟩
  | cons m' ms =>
    rw [List.map_cons, List.map_cons, String.intercalate_cons_cons, String.toList_append,
      String.toList_append, List.append_assoc, List.append_assoc, m.toList_written]
    exact ⟨_, rfl⟩

theorem spells_object {ms : List Member} (hms : ∀ m ∈ ms, Spells m.text m.document) :
    Spells (Writer.object (ms.map fun m => (m.name, m.text)))
      (.object (ms.map fun m => (some m.name, m.document))) := by
  refine ⟨fun {fuel rest} hfuel _ => ?_⟩
  have hwritten : (Writer.object (ms.map fun m => (m.name, m.text))).toList =
      '\x7b' :: ((",".intercalate (ms.map Member.written)).toList ++ ['\x7d']) := by
    simp [Writer.object, Member.written, Function.comp_def]
  rw [hwritten] at hfuel ⊢
  simp only [List.length_cons, List.length_append, List.length_nil] at hfuel
  obtain ⟨fuel, rfl⟩ := Nat.exists_eq_succ_of_ne_zero (n := fuel) (by omega)
  rw [List.cons_append, List.append_assoc, List.singleton_append, value, skipBlank_of_not_blank (by decide)]
  cases ms with
  | nil => rfl
  | cons m ms =>
    have hread := members_written hms (by simp) (show _ ≤ fuel by omega) rest
    obtain ⟨s, hs⟩ := exists_intercalate m ms ('\x7d' :: rest)
    rw [hs] at hread
    simp only [hs, skipBlank_of_not_blank (show isBlank '"' = false by decide)]
    change (members fuel ('"' :: s)).map (fun p => (object p.1, p.2)) = _
    rw [hread, Option.map_some]

/-- A spelled text is read as what it spells. -/
theorem read?_of_spells {text : String} (h : Spells text j) : read? text = some j := by
  have hvalue := h.read (show _ ≤ 2 * text.toList.length + 2 by omega) closes_nil
  rw [List.append_nil] at hvalue
  rw [read?, hvalue]
  rfl

end Json

end ItemAccess
