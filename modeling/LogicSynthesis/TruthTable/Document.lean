import LogicSynthesis.Json
import LogicSynthesis.TruthTable.Basic

/-!
# Tables as JSON documents

A table is written as an object that gives its number of variables and its words. What a text says
is for a reader to tell. Its answer is taken as it stands, so the table of a text need not be
canonical.

## Main definitions

- `TruthTable.toJson` — the text of a table
- `TruthTable.RecordReader` — a reader of texts
- `TruthTable.ofJson?` — the table of a text
-/

namespace LogicSynthesis.TruthTable

/-- The compact text of a table. -/
def toJson (t : TruthTable) : String :=
  let n := toString t.numVars
  let words := ",".intercalate (t.words.toList.map fun w => toString w.toNat)
  s!"\x7b\"num_vars\":{n},\"words\":[{words}]\x7d"

/-- A reader of texts: it finds the document that a text is, and the number of variables and the
words that a document gives. -/
structure RecordReader where
  document? : String → Option Json
  fields? : Json → Option (Nat × List Nat)

namespace RecordReader

/-- What a text gives. -/
def record? (reader : RecordReader) (text : String) : Option (Nat × List Nat) :=
  reader.document? text >>= reader.fields?

/-- The fields of a document, when both are there and all numbers have 64 bits at most. -/
def fieldsOf? (document : Json) : Option (Nat × List Nat) := do
  match ← document.fields ["num_vars", "words"] with
  | [some numVars, some words] =>
    let n ← numVars.toNat?
    let ws ← (← words.toList?).mapM Json.toNat?
    return (n, ws)
  | _ => none

/-- The reader that goes by the grammar of documents. -/
def standard : RecordReader := ⟨Json.read, fieldsOf?⟩

end RecordReader

/-- The table with the given number of variables and words. -/
def ofRecord (n : Nat) (ws : List Nat) : TruthTable := ⟨n, (ws.map UInt64.ofNat).toArray⟩

/-- The table that a text describes. -/
def ofJson? (reader : RecordReader) (text : String) : Option TruthTable :=
  (reader.record? text).map fun (n, ws) => ofRecord n ws

end LogicSynthesis.TruthTable
