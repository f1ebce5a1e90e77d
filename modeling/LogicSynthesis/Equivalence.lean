import LogicSynthesis.Random
import LogicSynthesis.Simulation
import LogicSynthesis.TruthTable.Text

/-!
# Equivalence checking

Two networks with few inputs are compared on every assignment. Larger ones are compared on rounds
of words from a random source, which can find a difference and cannot exclude one.

## Main definitions

- `Difference` — what was found to differ
- `Network.checkEquivalence` — the comparison
-/

namespace LogicSynthesis

/-- How two networks differ. An assignment lists the values of the combinational inputs. -/
inductive Difference where
  | inputCount (left right : Nat)
  | outputCount (left right : Nat)
  | onAssignment (output : Nat) (left right : TruthTable) (assignment : List Bool)
  | inRound (output round : Nat) (assignment : List Bool)
  deriving Repr

namespace Difference

/-- The values of the combinational inputs in words. -/
def describe (assignment : List Bool) : String :=
  " ".intercalate (assignment.zipIdx.map fun (b, i) =>
    let bit := b.toNat
    s!"ci{i}={bit}")

def message : Difference → String
  | inputCount left right => s!"input count mismatch: {left} vs {right}"
  | outputCount left right => s!"output count mismatch: {left} vs {right}"
  | onAssignment output left right assignment =>
    let l := left.toHex
    let r := right.toHex
    let a := describe assignment
    s!"output {output} differs: {l} vs {r}; counterexample {a}"
  | inRound output round assignment =>
    let a := describe assignment
    s!"output {output} differs in random round {round}; counterexample {a}"

end Difference

namespace Network

/-- The first position at which two lists differ, with the two entries. -/
def firstDifference {α : Type} [DecidableEq α] (left right : List α) : Option (Nat × α × α) :=
  ((left.zip right).zipIdx.find? fun ((a, b), _) => a ≠ b).map fun ((a, b), i) => (i, a, b)

/-- Compares all outputs on all assignments. -/
def compareExhaustively (a b : Network) : Except Fault (Option Difference) := do
  let left ← a.simulateOutputs
  let right ← b.simulateOutputs
  match firstDifference left right with
  | none => return none
  | some (output, x, y) =>
    let difference ← TruthTable.Checked.xor x y
    let code := ((List.range difference.numBits).find? difference.bit).getD 0
    return some (.onAssignment output x y ((List.range a.numCis).map code.testBit))

/-- Compares all outputs on one word for each input. -/
def compareWords (a b : Network) (round : Nat) (words : List UInt64) :
    Except Fault (Option Difference) := do
  let left ← a.simulateWords words
  let right ← b.simulateWords words
  match firstDifference left right with
  | none => return none
  | some (output, x, y) =>
    let lane := ((List.range 64).find? (TruthTable.wordBit (x ^^^ y))).getD 0
    return some (.inRound output round (words.map (TruthTable.wordBit · lane)))

variable {σ : Type}

/-- Compares the outputs in random rounds, numbered from `round` on, until they differ. -/
def compareRounds (a b : Network) (source : WordSource σ) (round : Nat) :
    Nat → σ → Except Fault (Option Difference)
  | 0, _ => return none
  | rounds + 1, state => do
    let (words, state) := source.words a.numCis state
    match ← compareWords a b round words with
    | some difference => return some difference
    | none => compareRounds a b source (round + 1) rounds state

/-- Looks for a difference between the combinational outputs of two networks. -/
def checkEquivalence (a b : Network) (source : WordSource σ) (rounds : Nat) (seed : UInt64) :
    Except Fault (Option Difference) := do
  if a.numCis ≠ b.numCis then return some (.inputCount a.numCis b.numCis)
  if a.numCos ≠ b.numCos then return some (.outputCount a.numCos b.numCos)
  if a.numCis ≤ maxExhaustiveInputs then compareExhaustively a b
  else compareRounds a b source 0 rounds (source.ofSeed seed)

end Network

end LogicSynthesis
