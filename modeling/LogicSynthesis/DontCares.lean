import LogicSynthesis.Simulation
import LogicSynthesis.Window

/-!
# Satisfiability don't-cares

Some nodes may never take certain combinations of values. Simulating a window above them shows
which combinations the window produces; all others are don't-cares.

## Main definitions

- `Network.dontCares` — the combinations that cannot occur, as a table over the leaves
-/

namespace LogicSynthesis

/-- The bound on the window when rewriting asks for don't-cares. -/
def defaultWindowInputs : Nat := 16

namespace Network

/-- The table that holds the patterns which the given tables form together. -/
def producedPatterns (numAssignments : Nat) (tables : List TruthTable) (start : TruthTable) :
    TruthTable :=
  (List.range numAssignments).foldl
    (fun care m => care.setBit (codeOf (tables.map (·.bit m))) true) start

/-- The assignments of `leaves` that no assignment of the window produces. Variable `i` of the
table is `leaves[i]`. -/
def dontCares (net : Network) (leaves : List NodeId) (maxInputs : Nat) :
    Except Fault (TruthTable × Network) := do
  let (window, net) ← net.window leaves { cutSize := max maxInputs leaves.length }
  let tables ← net.simulateCone window leaves
  let none ← TruthTable.Checked.const0 leaves.length
  return ((producedPatterns (1 <<< window.length) tables none).not, net)

end Network

end LogicSynthesis
