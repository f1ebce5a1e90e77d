import LogicSynthesis.TruthTable.Checked

/-!
# Hexadecimal text of a table

A table is written as one hexadecimal number, the bits of the highest assignments first. Four
assignments make a digit, and a function of fewer than two variables still takes one digit.

## Main definitions

- `TruthTable.toHex` — the digits of a table
-/

namespace LogicSynthesis.TruthTable

/-- The lower-case digit of a number below sixteen. -/
def hexDigit (n : Nat) : Char :=
  if n < 10 then Char.ofNat ('0'.toNat + n) else Char.ofNat ('a'.toNat + (n - 10))

/-- The `i`-th digit of a table, counted from the lowest assignments. -/
def nibble (t : TruthTable) (i : Nat) : Nat :=
  codeOf ((List.range 4).map fun b => t.bit (4 * i + b))

def digitCount (t : TruthTable) : Nat := max 1 (t.numBits / 4)

/-- The digits of a table, those of the highest assignments first. -/
def toHex (t : TruthTable) : String :=
  String.ofList ((List.range t.digitCount).reverse.map fun i => hexDigit (t.nibble i))

/-- The digits of a table whose words are all stored. -/
def Checked.toHex (t : TruthTable) : Except Fault String := do
  require (t.numVars < 64) .overflow
  require (t.digitCount ≤ 16 * t.words.size) .missingEntry
  return t.toHex

end LogicSynthesis.TruthTable
