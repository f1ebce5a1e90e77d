import LogicSynthesis.Fault
import LogicSynthesis.TruthTable.Compose

/-!
# Checked table operations

The operations on truth tables with their conditions: how many variables a table may have, which
indices exist, which arities go together. A table that was read from outside need not be
canonical, and an operation that needs a word which such a table does not store has no result.
On canonical tables of matching arity every operation here agrees with its total counterpart.

## Main definitions

- `Checked.const0`, `Checked.var`, `Checked.ofWord` — tables within the limits
- `Checked.not`, `Checked.and`, `Checked.or`, `Checked.xor` — the operations on tables of one
  arity
- `Checked.minBase`, `Checked.expand`, `Checked.compose` — changes of variables

## Design notes

Word indices have 64 bits, so a table of 64 or more variables has no number of assignments, and
the whole-word cofactors end at variable 69.
-/

namespace LogicSynthesis.TruthTable

/-- Whether the word that `trim` changes is there. -/
def trimmable (t : TruthTable) : Bool := 6 ≤ t.numVars || !t.words.isEmpty

/-- Whether every assignment has a stored word. -/
def complete (t : TruthTable) : Bool := t.numBits ≤ 64 * t.words.size

namespace Checked

def const0 (numVars : Nat) : Except Fault TruthTable := do
  require (numVars ≤ maxVars) (.tooManyVariables numVars)
  return zero numVars

def const1 (numVars : Nat) : Except Fault TruthTable := do
  require (numVars ≤ maxVars) (.tooManyVariables numVars)
  return one numVars

def var (numVars index : Nat) : Except Fault TruthTable := do
  require (index < numVars) (.variableOutOfRange index numVars)
  require (numVars ≤ maxVars) (.tooManyVariables numVars)
  return proj numVars index

def ofWord (numVars : Nat) (w : UInt64) : Except Fault TruthTable := do
  require (numVars ≤ 6) .tooWideForWord
  return TruthTable.ofWord numVars w

def numBits (t : TruthTable) : Except Fault Nat := do
  require (t.numVars < 64) .overflow
  return t.numBits

/-- The word that holds bit `i` must be stored. -/
def checkBit (t : TruthTable) (i : Nat) : Except Fault Unit := do
  require (i < (← numBits t)) .requirement
  require (i / 64 < t.words.size) .missingEntry

def bit (t : TruthTable) (i : Nat) : Except Fault Bool := do
  checkBit t i
  return t.bit i

def setBit (t : TruthTable) (i : Nat) (value : Bool) : Except Fault TruthTable := do
  checkBit t i
  return t.setBit i value

protected def not (t : TruthTable) : Except Fault TruthTable := do
  require t.trimmable .missingEntry
  return t.not

def withPolarity (t : TruthTable) (negate : Bool) : Except Fault TruthTable :=
  if negate then Checked.not t else return t

def isConst1 (t : TruthTable) : Except Fault Bool := do
  return (← Checked.not t).isConst0

/-- Both tables have the arity of the result, and their words suffice for it. -/
def zipWords (op : UInt64 → UInt64 → UInt64) (a b : TruthTable) : Except Fault TruthTable := do
  require (a.numVars == b.numVars) .arityMismatch
  require (a.trimmable && b.trimmable) .missingEntry
  return TruthTable.zipWords op a b

protected def and (a b : TruthTable) : Except Fault TruthTable := zipWords (· &&& ·) a b

protected def or (a b : TruthTable) : Except Fault TruthTable := zipWords (· ||| ·) a b

protected def xor (a b : TruthTable) : Except Fault TruthTable := zipWords (· ^^^ ·) a b

def maj (a b c : TruthTable) : Except Fault TruthTable := do
  let ab ← Checked.and a b
  let ac ← Checked.and a c
  let either ← Checked.or ab ac
  let bc ← Checked.and b c
  Checked.or either bc

protected def ite (condition thenPart elsePart : TruthTable) : Except Fault TruthTable := do
  let onTrue ← Checked.and condition thenPart
  let onFalse ← Checked.and (← Checked.not condition) elsePart
  Checked.or onTrue onFalse

/-- The conditions under which the cofactors with respect to `var` exist. -/
def checkCofactor (t : TruthTable) (var : Nat) : Except Fault Unit := do
  require (var < t.numVars) .requirement
  require (var < 70) .overflow
  require t.trimmable .missingEntry

def cofactor0 (t : TruthTable) (var : Nat) : Except Fault TruthTable := do
  checkCofactor t var
  return t.cofactor0 var

def cofactor1 (t : TruthTable) (var : Nat) : Except Fault TruthTable := do
  checkCofactor t var
  return t.cofactor1 var

def hasVar (t : TruthTable) (var : Nat) : Except Fault Bool := do
  checkCofactor t var
  return t.hasVar var

def support (t : TruthTable) : Except Fault (List Nat) := do
  require (t.numVars ≤ 70) .overflow
  require (t.numVars == 0 || t.trimmable) .missingEntry
  return t.support

def minBase (t : TruthTable) : Except Fault (TruthTable × List Nat) := do
  let vars ← support t
  if vars.length = t.numVars then return (t, vars)
  require (vars.length ≤ maxVars) (.tooManyVariables vars.length)
  require (t.numVars < 64) .overflow
  require (t.complete || (List.range (1 <<< vars.length)).all
    fun code => scatter vars code / 64 < t.words.size) .missingEntry
  return t.minBase

def expand (t : TruthTable) (positions : List Nat) (numVars : Nat) : Except Fault TruthTable := do
  require (positions.length == t.numVars) .positionCount
  require (positions.all (· < numVars)) .requirement
  require (numVars ≤ maxVars) (.tooManyVariables numVars)
  require (t.numVars < 64) .overflow
  require (t.complete || (List.range (1 <<< numVars)).all
    fun code => codeOf (positions.map code.testBit) / 64 < t.words.size) .missingEntry
  return t.expand positions numVars

/-- The conditions under which the minterm coded by `code` exists over `numVars` variables. -/
def checkMinterm (numVars : Nat) (inputs : List TruthTable) (code : Nat) : Except Fault Unit :=
  inputs.zipIdx.forM fun (input, k) => do
    let literal ← withPolarity input (!code.testBit k)
    require (numVars == literal.numVars) .arityMismatch
    require literal.trimmable .missingEntry

def compose (t : TruthTable) (inputs : List TruthTable) : Except Fault TruthTable := do
  require (inputs.length == t.numVars) .requirement
  let n := commonVars inputs
  require (n ≤ maxVars) (.tooManyVariables n)
  require (t.numVars < 64) .overflow
  let stored := min t.numBits (64 * t.words.size)
  match (List.range stored).find? t.bit with
  | some code => checkMinterm n inputs code
  | none => pure ()
  require t.complete .missingEntry
  return t.compose inputs

def composeWord (t : TruthTable) (inputs : List UInt64) : Except Fault UInt64 := do
  require (inputs.length == t.numVars) .requirement
  require (t.numVars < 64) .overflow
  require t.complete .missingEntry
  return t.composeWord inputs

end Checked

end LogicSynthesis.TruthTable
