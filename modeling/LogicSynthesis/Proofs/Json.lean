import Mathlib
import LogicSynthesis.Json

/-!
# Reading documents that were written

Characters write a value when the reader takes just them and returns the value, whatever stands
behind them. Numerals write whole numbers, and what writes the items of an array or the members of
an object can be put together. The characters bound the nesting, so the reader has fuel for them.

## Main definitions

- `Json.Delimits` — the characters behind a value do not prolong a number
- `Json.Writes` — the characters that write a value
- `Json.TakesParts` — a reader of lists, one part after the other
- `Json.arrayText`, `Json.memberText`, `Json.objectText` — texts put together
- `Json.Plain` — a character that stands for itself in a string
- `Json.Field` — what a field of a record holds
- `Json.ReadsRecords` — a reader of the records that were written

## Main statements

- `TakesParts.read_eq` — the parts of a list with commas in between
- `writes_number`, `writes_array`, `writes_object` — what writes numbers, arrays and objects
- `Writes.read_eq` — a text that writes a value is read as the value
- `readsRecords_read` — records are read as they were written
-/

namespace LogicSynthesis.Json

/-- The characters go on with nothing that could belong to a number. -/
def Delimits (rest : List Char) : Prop :=
  ∀ c ∈ rest.head?, c.isDigit = false ∧ c ≠ '.' ∧ c ≠ 'e' ∧ c ≠ 'E'

theorem delimits_nil : Delimits [] := by
  intro c hc
  cases hc

theorem delimits_cons {c : Char} {rest : List Char}
    (h : c.isDigit = false ∧ c ≠ '.' ∧ c ≠ 'e' ∧ c ≠ 'E') : Delimits (c :: rest) := by
  intro c' hc
  rw [List.head?_cons, Option.mem_some_iff] at hc
  exact hc ▸ h

/-! ### Numbers -/

theorem decimalValue_toDigits (n : Nat) : decimalValue (Nat.toDigits 10 n) = n :=
  Nat.ofDigitChars_toDigits (by decide) (by decide)

theorem isDigit_of_mem {n : Nat} {c : Char} (h : c ∈ Nat.toDigits 10 n) : c.isDigit = true :=
  Nat.isDigit_of_mem_toDigits (by decide) (by decide) h

/-- A numeral starts with a digit. -/
theorem exists_toDigits_eq_cons (n : Nat) :
    ∃ c cs, Nat.toDigits 10 n = c :: cs ∧ c.isDigit = true := by
  obtain ⟨c, cs, hcs⟩ := List.exists_cons_of_ne_nil (@Nat.toDigits_ne_nil n 10)
  have hc : c ∈ Nat.toDigits 10 n := hcs ▸ List.mem_cons_self
  exact ⟨c, cs, hcs, isDigit_of_mem hc⟩

/-- Only zero is written with a leading zero. -/
theorem eq_zero_of_head {n : Nat} (h : (Nat.toDigits 10 n).head? = some '0') : n = 0 := by
  induction n using Nat.strong_induction_on with
  | _ n ih =>
    by_cases hlt : n < 10
    · rw [Nat.toDigits_of_lt_base hlt, List.head?_cons, Option.some.injEq] at h
      have hvalue := Nat.toNat_digitChar_of_lt_ten hlt
      rw [h] at hvalue
      exact (Nat.add_left_cancel hvalue).symm
    · rw [Nat.toDigits_eq_if (by decide), if_neg hlt,
        List.head?_append_of_ne_nil _ Nat.toDigits_ne_nil] at h
      have hzero := ih (n / 10) (by omega) h
      omega

theorem readDigits_append {digits rest : List Char} (hne : digits ≠ [])
    (hdigits : ∀ c ∈ digits, c.isDigit = true) (hrest : Delimits rest) :
    readDigits (digits ++ rest) = some (digits, rest) := by
  have htake : rest.takeWhile Char.isDigit = [] := by
    cases rest with
    | nil => rfl
    | cons c rest => exact List.takeWhile_cons_of_neg (by rw [(hrest c rfl).1]; decide)
  have hdrop : rest.dropWhile Char.isDigit = rest := by
    cases rest with
    | nil => rfl
    | cons c rest => exact List.dropWhile_cons_of_neg (by rw [(hrest c rfl).1]; decide)
  rw [readDigits, List.takeWhile_append_of_pos hdigits, List.dropWhile_append_of_pos hdigits, htake,
    hdrop, List.append_nil, if_neg (by rwa [List.isEmpty_iff])]

theorem readWhole_toDigits (n : Nat) {rest : List Char} (hrest : Delimits rest) :
    readWhole (Nat.toDigits 10 n ++ rest) = some (n, rest) := by
  rw [readWhole, readDigits_append Nat.toDigits_ne_nil (fun _ => isDigit_of_mem) hrest]
  have hleading : ¬ ((Nat.toDigits 10 n).head? = some '0' ∧ (Nat.toDigits 10 n).length ≠ 1) := by
    rintro ⟨hhead, hlength⟩
    rw [eq_zero_of_head hhead] at hlength
    exact hlength rfl
  simp [hleading, decimalValue_toDigits]

theorem readNumber_toDigits (n : Nat) {rest : List Char} (hrest : Delimits rest) :
    readNumber (Nat.toDigits 10 n ++ rest) = some (.number (some n), rest) := by
  have hminus : ∀ tail, Nat.toDigits 10 n ++ rest ≠ '-' :: tail := by
    intro tail heq
    obtain ⟨c, cs, hcs, hc⟩ := exists_toDigits_eq_cons n
    rw [hcs, List.cons_append, List.cons.injEq] at heq
    rw [heq.1] at hc
    exact absurd hc (by decide)
  have hfraction : dropFraction rest = some (false, rest) := by
    unfold dropFraction
    split
    · next tail => exact absurd rfl (hrest '.' rfl).2.1
    · rfl
  have hexponent : dropExponent rest = some (false, rest) := by
    cases rest with
    | nil => rfl
    | cons c tail =>
      obtain ⟨-, -, he, hE⟩ := hrest c rfl
      exact if_neg (by simp [he, hE])
  unfold readNumber
  split
  · next negative unsigned hsign =>
    split at hsign
    · next tail heq => exact absurd heq (hminus tail)
    · obtain ⟨rfl, rfl⟩ := hsign
      simp [readWhole_toDigits n hrest, hfraction, hexponent]

/-! ### Values -/

/-- The characters write the value: the reader takes them and leaves what stands behind. -/
structure Writes (cs : List Char) (value : Json) : Prop where
  starts : ∃ c tail, cs = c :: tail ∧ isBlank c = false ∧ c ≠ ']'
  read : ∀ fuel rest, cs.length < fuel → Delimits rest →
    readValue fuel (cs ++ rest) = some (value, rest)

theorem skipBlanks_cons {c : Char} (h : isBlank c = false) (rest : List Char) :
    skipBlanks (c :: rest) = c :: rest :=
  List.dropWhile_cons_of_neg (by rw [h]; decide)

theorem isBlank_of_isDigit {c : Char} (h : c.isDigit = true) : isBlank c = false := by
  by_contra hblank
  simp only [isBlank, Bool.not_eq_false, Bool.or_eq_true, beq_iff_eq] at hblank
  rcases hblank with ((rfl | rfl) | rfl) | rfl <;> revert h <;> decide

/-- A digit starts a number and nothing else. -/
theorem readValue_of_isDigit {c : Char} (h : c.isDigit = true) (fuel : Nat) (cs : List Char) :
    readValue (fuel + 1) (c :: cs) = readNumber (c :: cs) := by
  rw [readValue, skipBlanks_cons (isBlank_of_isDigit h)]
  split <;> first | rfl | (next heq => rw [List.cons.injEq] at heq; rw [heq.1] at h; cases h)

theorem writes_number (n : Nat) : Writes (Nat.toDigits 10 n) (.number (some n)) := by
  obtain ⟨c, cs, hcs, hc⟩ := exists_toDigits_eq_cons n
  refine ⟨⟨c, cs, hcs, isBlank_of_isDigit hc, ?_⟩, fun fuel rest hfuel hrest => ?_⟩
  · rintro rfl
    exact absurd hc (by decide)
  · cases fuel with
    | zero => exact absurd hfuel (Nat.not_lt_zero _)
    | succ fuel =>
      rw [hcs, List.cons_append, readValue_of_isDigit hc, ← List.cons_append, ← hcs]
      exact readNumber_toDigits n hrest

/-! ### Lists of parts -/

/-- The reader takes the text of one part and the character behind it. Behind a comma it goes on,
and the closing character ends the list. -/
def TakesParts {α : Type} (writes : List Char → α → Prop) (close : Char)
    (reader : Nat → List Char → Option (List α × List Char)) : Prop :=
  ∀ text a, writes text a → ∀ fuel c, c = ',' ∨ c = close → ∀ rest, text.length < fuel →
    reader (fuel + 1) (text ++ c :: rest) =
      if c = ',' then (reader fuel rest).map fun r => (a :: r.1, r.2) else some ([a], rest)

/-- What writes the parts of a list, with commas in between, is read up to the closing character. -/
theorem TakesParts.read_eq {α : Type} {writes : List Char → α → Prop} {close : Char}
    {reader : Nat → List Char → Option (List α × List Char)}
    (hreader : TakesParts writes close reader) (hclose : close ≠ ',') {texts : List (List Char)}
    {as : List α} (h : List.Forall₂ writes texts as) (hne : texts ≠ []) {fuel : Nat}
    (rest : List Char) (hfuel : ([','].intercalate texts).length + 2 ≤ fuel) :
    reader fuel ([','].intercalate texts ++ close :: rest) = some (as, rest) := by
  induction h generalizing fuel with
  | nil => exact absurd rfl hne
  | @cons text a texts as htext htexts ih =>
    obtain _ | fuel := fuel
    · cases hfuel
    cases texts with
    | nil =>
      cases htexts
      rw [List.intercalate_singleton] at hfuel ⊢
      rw [hreader text a htext fuel close (.inr rfl) rest (by omega), if_neg hclose]
    | cons next texts =>
      rw [List.intercalate_cons_cons] at hfuel ⊢
      simp only [List.length_append, List.length_singleton] at hfuel
      rw [List.append_assoc, List.append_assoc, List.singleton_append,
        hreader text a htext fuel ',' (.inl rfl) _ (by omega), if_pos rfl,
        @ih (List.cons_ne_nil _ _) fuel (by omega)]
      rfl

/-- A list of texts starts as its first text does. -/
theorem exists_intercalate_eq_cons (c : Char) (cs : List Char) (texts : List (List Char)) :
    ∃ tail, [','].intercalate ((c :: cs) :: texts) = c :: tail := by
  cases texts with
  | nil => exact ⟨cs, List.intercalate_singleton⟩
  | cons next texts => exact ⟨_, List.intercalate_cons_cons⟩

/-! ### Arrays -/

theorem readItems_takes : TakesParts Writes ']' readItems := by
  intro item value hitem fuel c hc rest hfuel
  have hvalue : readValue fuel (item ++ c :: rest) = some (value, c :: rest) := by
    refine hitem.read fuel _ hfuel (delimits_cons ?_)
    rcases hc with rfl | rfl <;> decide
  rw [readItems, hvalue]
  rcases hc with rfl | rfl
  · simp only [Option.bind_eq_bind, Option.bind_some,
      skipBlanks_cons (show isBlank ',' = false by decide), if_pos]
    cases readItems fuel rest <;> rfl
  · simp [skipBlanks_cons (show isBlank ']' = false by decide)]

/-- The text of an array, from the texts of its items. -/
def arrayText (items : List (List Char)) : List Char := '[' :: ([','].intercalate items ++ [']'])

theorem writes_array {items : List (List Char)} {values : List Json}
    (h : List.Forall₂ Writes items values) : Writes (arrayText items) (.array values) := by
  refine ⟨⟨'[', _, rfl, by decide, by decide⟩, fun fuel rest hfuel _ => ?_⟩
  obtain _ | fuel := fuel
  · exact absurd hfuel (Nat.not_lt_zero _)
  simp only [arrayText, List.length_cons, List.length_append, List.length_nil] at hfuel
  rw [arrayText, List.cons_append, List.append_assoc, List.singleton_append, readValue,
    skipBlanks_cons (by decide)]
  cases h with
  | nil => rfl
  | @cons item value items values hitem hitems =>
    obtain ⟨c, tail, rfl, hblank, hbracket⟩ := hitem.starts
    have hread := readItems_takes.read_eq (by decide) (.cons hitem hitems) (List.cons_ne_nil _ _)
      rest (show _ ≤ fuel by omega)
    obtain ⟨tail', htail⟩ := exists_intercalate_eq_cons c tail items
    rw [htail, List.cons_append] at hread ⊢
    simp only [skipBlanks_cons hblank]
    split
    · next heq => exact absurd (List.cons.inj heq).1 hbracket
    · rw [hread]
      rfl

/-! ### Objects -/

/-- A character that stands for itself in a string. -/
def Plain (c : Char) : Prop := c ≠ '"' ∧ c ≠ '\\' ∧ 32 ≤ c.toNat

theorem readPieces_cons {c : Char} (h : Plain c) {rest last : List Char} {pieces : List Piece}
    (hrest : readPieces rest = some (pieces, last)) :
    readPieces (c :: rest) = some (.char c :: pieces, last) := by
  obtain ⟨hquote, hescape, hcontrol⟩ := h
  rw [readPieces.eq_def]
  split
  · next heq => cases heq
  · next heq => exact absurd (List.cons.inj heq).1 hquote
  · next heq => exact absurd (List.cons.inj heq).1 hescape
  · next heq => exact absurd (List.cons.inj heq).1 hescape
  · next c' rest' _ heq =>
    obtain ⟨rfl, rfl⟩ := List.cons.inj heq
    simp [hescape, hcontrol, hrest]

theorem readPieces_append {cs : List Char} (h : ∀ c ∈ cs, Plain c) (rest : List Char) :
    readPieces (cs ++ '"' :: rest) = some (cs.map .char, rest) := by
  induction cs with
  | nil => rfl
  | cons c cs ih =>
    obtain ⟨hc, hcs⟩ := List.forall_mem_cons.mp h
    exact readPieces_cons hc (ih hcs)

theorem readString_eq {name : String} (h : ∀ c ∈ name.toList, Plain c) (rest : List Char) :
    readString (name.toList ++ '"' :: rest) = some (some name, rest) := by
  have hjoin : ∀ cs : List Char, joinPieces (cs.map .char) = some cs := by
    intro cs
    induction cs with
    | nil => rfl
    | cons c cs ih =>
      rw [List.map_cons, joinPieces, ih]
      rfl
  rw [readString, readPieces_append h]
  simp [hjoin]

/-- The text of a member, from its name and the text of its value. -/
def memberText (name : String) (body : List Char) : List Char :=
  '"' :: (name.toList ++ '"' :: ':' :: body)

/-- The characters write a member: its name, of plain characters, and its value. -/
inductive WritesMember : List Char → Option String × Json → Prop
  | intro {name : String} {body : List Char} {value : Json} (hname : ∀ c ∈ name.toList, Plain c)
      (hbody : Writes body value) : WritesMember (memberText name body) (some name, value)

theorem readMembers_takes : TakesParts WritesMember '\x7d' readMembers := by
  rintro _ _ @⟨name, body, value, hname, hbody⟩ fuel c hc rest hfuel
  simp only [memberText, List.length_cons, List.length_append] at hfuel
  have hcolon : ∀ tail, skipBlanks (':' :: tail) = ':' :: tail := skipBlanks_cons (by decide)
  have hvalue : readValue fuel (body ++ c :: rest) = some (value, c :: rest) := by
    refine hbody.read fuel _ (by omega) (delimits_cons ?_)
    rcases hc with rfl | rfl <;> decide
  rw [memberText, List.cons_append, List.append_assoc, List.cons_append, List.cons_append,
    readMembers, skipBlanks_cons (by decide)]
  simp only [readString_eq hname, hcolon, hvalue, Option.bind_eq_bind, Option.bind_some]
  rcases hc with rfl | rfl
  · simp only [skipBlanks_cons (show isBlank ',' = false by decide), if_pos]
    cases readMembers fuel rest <;> rfl
  · simp [skipBlanks_cons (show isBlank '\x7d' = false by decide)]

/-- The text of an object, from the texts of its members. -/
def objectText (texts : List (List Char)) : List Char :=
  '\x7b' :: ([','].intercalate texts ++ ['\x7d'])

theorem writes_object {texts : List (List Char)} {members : List (Option String × Json)}
    (h : List.Forall₂ WritesMember texts members) :
    Writes (objectText texts) (.object members) := by
  refine ⟨⟨'\x7b', _, rfl, by decide, by decide⟩, fun fuel rest hfuel _ => ?_⟩
  obtain _ | fuel := fuel
  · exact absurd hfuel (Nat.not_lt_zero _)
  simp only [objectText, List.length_cons, List.length_append, List.length_nil] at hfuel
  rw [objectText, List.cons_append, List.append_assoc, List.singleton_append, readValue,
    skipBlanks_cons (by decide)]
  cases h with
  | nil => rfl
  | @cons text member texts members hmember hmembers =>
    have hread := readMembers_takes.read_eq (by decide) (.cons hmember hmembers)
      (List.cons_ne_nil _ _) rest (show _ ≤ fuel by omega)
    obtain @⟨name, body, value, -, -⟩ := hmember
    obtain ⟨tail, htail⟩ :=
      exists_intercalate_eq_cons '"' (name.toList ++ '"' :: ':' :: body) texts
    rw [memberText, htail, List.cons_append] at hread ⊢
    simp only [skipBlanks_cons (show isBlank '"' = false by decide)]
    split
    · next heq => exact absurd (List.cons.inj heq).1 (by decide)
    · rw [hread]
      rfl

/-- A text that writes a value is read as the value. -/
theorem Writes.read_eq {text : String} {value : Json} (h : Writes text.toList value) :
    Json.read text = some value := by
  have hread := h.read (2 * text.toList.length + 1) [] (by omega) delimits_nil
  rw [List.append_nil] at hread
  rw [Json.read, hread]
  rfl

/-! ### Records -/

/-- What a field of a record holds: a whole number, or a list of them. -/
inductive Field where
  | number (n : Nat)
  | numbers (ns : List Nat)

/-- The characters of a field, without blanks. -/
def Field.text : Field → List Char
  | number n => Nat.toDigits 10 n
  | numbers ns => arrayText (ns.map fun n => Nat.toDigits 10 n)

/-- The value of a field. -/
def Field.value : Field → Json
  | number n => .number (some n)
  | numbers ns => .array (ns.map fun n => .number (some n))

theorem Field.writes (field : Field) : Writes field.text field.value := by
  cases field with
  | number n => exact writes_number n
  | numbers ns =>
    apply writes_array
    rw [List.forall₂_map_left_iff, List.forall₂_map_right_iff, List.forall₂_same]
    exact fun n _ => writes_number n

/-- The characters of a record, without blanks. -/
def recordText (record : List (String × Field)) : List Char :=
  objectText (record.map fun field => memberText field.1 field.2.text)

/-- The value of a record. -/
def recordValue (record : List (String × Field)) : Json :=
  .object (record.map fun field => (some field.1, field.2.value))

/-- A record whose names have plain characters is read as it was written. -/
def ReadsRecords (read : String → Option Json) : Prop :=
  ∀ record : List (String × Field), (∀ field ∈ record, ∀ c ∈ field.1.toList, Plain c) →
    read (String.ofList (recordText record)) = some (recordValue record)

theorem readsRecords_read : ReadsRecords Json.read := by
  intro record hplain
  apply Writes.read_eq
  rw [String.toList_ofList]
  apply writes_object
  rw [List.forall₂_map_left_iff, List.forall₂_map_right_iff, List.forall₂_same]
  exact fun field hfield => .intro (hplain field hfield) field.2.writes

end LogicSynthesis.Json
