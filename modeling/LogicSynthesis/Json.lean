/-!
# JSON documents

A JSON text is read into a tree that keeps what settings and tables need of it: whole numbers
written without sign, point or exponent, the characters of a string, and the members of an
object in their order, repeated names included.

## Main definitions

- `Json` — the tree of a document
- `Json.read` — the tree of a text, if the text is one JSON value between blanks
- `Json.fields` — the fields of a record written as an object or as an array

## Design notes

A string that escapes half of a surrogate pair is well formed but stands for no text, so
`Json.string` and the names in `Json.object` hold an optional text.
-/

namespace LogicSynthesis

/-- A JSON value. -/
inductive Json where
  | null
  | bool (value : Bool)
  /-- A number; `natural` is its value when it is written as a plain whole number. -/
  | number (natural : Option Nat)
  /-- A string; `text` is absent when its escapes stand for no text. -/
  | string (text : Option String)
  | array (items : List Json)
  | object (members : List (Option String × Json))

namespace Json

/-- Blanks may stand before and after every token. -/
def isBlank (c : Char) : Bool := c == ' ' || c == '\t' || c == '\n' || c == '\r'

def skipBlanks (cs : List Char) : List Char := cs.dropWhile isBlank

/-- Drops a leading `word`. -/
def dropWord : List Char → List Char → Option (List Char)
  | [], cs => some cs
  | _ :: _, [] => none
  | w :: ws, c :: cs => if w = c then dropWord ws cs else none

/-- The value of a hexadecimal digit of either case. -/
def hexValue (c : Char) : Option Nat :=
  if '0' ≤ c && c ≤ '9' then some (c.toNat - '0'.toNat)
  else if 'a' ≤ c && c ≤ 'f' then some (c.toNat - 'a'.toNat + 10)
  else if 'A' ≤ c && c ≤ 'F' then some (c.toNat - 'A'.toNat + 10)
  else none

/-- Reads the four digits of a `\u` escape. -/
def readHex4 : List Char → Option (Nat × List Char)
  | a :: b :: c :: d :: rest => do
    let a ← hexValue a
    let b ← hexValue b
    let c ← hexValue c
    let d ← hexValue d
    return (((a * 16 + b) * 16 + c) * 16 + d, rest)
  | _ => none

/-- The character that a one-letter escape stands for. -/
def escapedChar (c : Char) : Option Char :=
  if c == '"' || c == '\\' || c == '/' then some c
  else if c == 'b' then some (Char.ofNat 8)
  else if c == 'f' then some (Char.ofNat 12)
  else if c == 'n' then some '\n'
  else if c == 'r' then some '\r'
  else if c == 't' then some '\t'
  else none

/-- A piece of a string: a character, or a 16-bit unit written as a `\u` escape. -/
inductive Piece where
  | char (c : Char)
  | unit (value : Nat)

/-- Reads the pieces of a string up to its closing quote. -/
def readPieces : List Char → Option (List Piece × List Char)
  | [] => none
  | '"' :: rest => some ([], rest)
  | '\\' :: 'u' :: a :: b :: c :: d :: rest => do
    let (value, _) ← readHex4 [a, b, c, d]
    let (pieces, rest) ← readPieces rest
    return (.unit value :: pieces, rest)
  | '\\' :: e :: rest => do
    let c ← escapedChar e
    let (pieces, rest) ← readPieces rest
    return (.char c :: pieces, rest)
  | c :: rest =>
    if c.toNat < 32 || c == '\\' then none
    else do
      let (pieces, rest) ← readPieces rest
      return (.char c :: pieces, rest)

def isHighSurrogate (n : Nat) : Bool := 0xD800 ≤ n && n < 0xDC00

def isLowSurrogate (n : Nat) : Bool := 0xDC00 ≤ n && n < 0xE000

/-- Joins surrogate pairs; a surrogate without its partner stands for no text. -/
def joinPieces : List Piece → Option (List Char)
  | [] => some []
  | .char c :: rest => (joinPieces rest).map (c :: ·)
  | .unit high :: .unit low :: rest =>
    if isHighSurrogate high then
      if isLowSurrogate low then
        let code := 0x10000 + (high - 0xD800) * 0x400 + (low - 0xDC00)
        (joinPieces rest).map (Char.ofNat code :: ·)
      else none
    else if isLowSurrogate high then none
    else (joinPieces (.unit low :: rest)).map (Char.ofNat high :: ·)
  | .unit value :: rest =>
    if isHighSurrogate value || isLowSurrogate value then none
    else (joinPieces rest).map (Char.ofNat value :: ·)

/-- Reads a string after its opening quote. -/
def readString (cs : List Char) : Option (Option String × List Char) := do
  let (pieces, rest) ← readPieces cs
  return ((joinPieces pieces).map String.ofList, rest)

/-- The number that decimal digits write. -/
def decimalValue (digits : List Char) : Nat :=
  digits.foldl (fun n c => 10 * n + (c.toNat - '0'.toNat)) 0

/-- Reads at least one digit. -/
def readDigits (cs : List Char) : Option (List Char × List Char) :=
  let digits := cs.takeWhile Char.isDigit
  if digits.isEmpty then none else some (digits, cs.dropWhile Char.isDigit)

/-- Reads the whole part of a number, which starts with `0` only when it is `0`. -/
def readWhole (cs : List Char) : Option (Nat × List Char) := do
  let (digits, rest) ← readDigits cs
  if digits.head? = some '0' && digits.length ≠ 1 then none
  return (decimalValue digits, rest)

/-- Drops a fraction, if there is one. -/
def dropFraction : List Char → Option (Bool × List Char)
  | '.' :: rest => (readDigits rest).map fun (_, rest) => (true, rest)
  | cs => some (false, cs)

/-- Drops an exponent, if there is one. -/
def dropExponent : List Char → Option (Bool × List Char)
  | c :: rest =>
    if c == 'e' || c == 'E' then
      let digits :=
        match rest with
        | s :: tail => if s == '+' || s == '-' then tail else rest
        | [] => []
      (readDigits digits).map fun (_, rest) => (true, rest)
    else some (false, c :: rest)
  | [] => some (false, [])

/-- Reads a number. -/
def readNumber (cs : List Char) : Option (Json × List Char) := do
  let (negative, unsigned) :=
    match cs with
    | '-' :: rest => (true, rest)
    | _ => (false, cs)
  let (n, rest) ← readWhole unsigned
  let (fraction, rest) ← dropFraction rest
  let (exponent, rest) ← dropExponent rest
  return (.number (if negative || fraction || exponent then none else some n), rest)

mutual

/-- Reads one value at the start of the characters; `fuel` bounds the nesting. -/
def readValue : Nat → List Char → Option (Json × List Char)
  | 0, _ => none
  | fuel + 1, cs =>
    match skipBlanks cs with
    | 'n' :: rest => (dropWord ['u', 'l', 'l'] rest).map fun rest => (.null, rest)
    | 't' :: rest => (dropWord ['r', 'u', 'e'] rest).map fun rest => (.bool true, rest)
    | 'f' :: rest => (dropWord ['a', 'l', 's', 'e'] rest).map fun rest => (.bool false, rest)
    | '"' :: rest => (readString rest).map fun (text, rest) => (.string text, rest)
    | '[' :: rest =>
      match skipBlanks rest with
      | ']' :: rest => some (.array [], rest)
      | rest => (readItems fuel rest).map fun (items, rest) => (.array items, rest)
    | '\x7b' :: rest =>
      match skipBlanks rest with
      | '\x7d' :: rest => some (.object [], rest)
      | rest => (readMembers fuel rest).map fun (members, rest) => (.object members, rest)
    | cs => readNumber cs

/-- Reads the items of an array up to its closing bracket. -/
def readItems : Nat → List Char → Option (List Json × List Char)
  | 0, _ => none
  | fuel + 1, cs => do
    let (item, rest) ← readValue fuel cs
    match skipBlanks rest with
    | ']' :: rest => return ([item], rest)
    | ',' :: rest =>
      let (items, rest) ← readItems fuel rest
      return (item :: items, rest)
    | _ => none

/-- Reads the members of an object up to its closing brace. -/
def readMembers : Nat → List Char → Option (List (Option String × Json) × List Char)
  | 0, _ => none
  | fuel + 1, cs =>
    match skipBlanks cs with
    | '"' :: rest => do
      let (name, rest) ← readString rest
      match skipBlanks rest with
      | ':' :: rest =>
        let (value, rest) ← readValue fuel rest
        match skipBlanks rest with
        | '\x7d' :: rest => return ([(name, value)], rest)
        | ',' :: rest =>
          let (members, rest) ← readMembers fuel rest
          return ((name, value) :: members, rest)
        | _ => none
      | _ => none
    | _ => none

end

/-- The value of a text, which holds nothing else but blanks. -/
def read (text : String) : Option Json := do
  let cs := text.toList
  let (value, rest) ← readValue (2 * cs.length + 1) cs
  if (skipBlanks rest).isEmpty then some value else none

/-- A whole number of at most 64 bits. -/
def toNat? : Json → Option Nat
  | number (some n) => if n < 1 <<< 64 then some n else none
  | _ => none

def toBool? : Json → Option Bool
  | bool value => some value
  | _ => none

def toList? : Json → Option (List Json)
  | array items => some items
  | _ => none

/-- The value of each named field of a record. An object gives fields by name, and may give
others; an array gives them by position. No field may be given twice. -/
def fields (names : List String) : Json → Option (List (Option Json))
  | object members => do
    let named ← members.mapM fun (name, value) => name.map (·, value)
    names.mapM fun name =>
      match named.filter (·.1 == name) with
      | [] => some none
      | [(_, value)] => some (some value)
      | _ => none
  | array items =>
    if names.length < items.length then none
    else some (names.zipIdx.map fun (_, i) => items[i]?)
  | _ => none

/-- A field that may be left out. -/
def orDefault {α : Type} (field : Option Json) (default : α) (decode : Json → Option α) :
    Option α :=
  match field with
  | none => some default
  | some value => decode value

end Json

end LogicSynthesis
