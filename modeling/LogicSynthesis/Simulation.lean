import LogicSynthesis.Network.Walk

/-!
# Simulation

The values of nodes as functions of chosen inputs. Simulation of a cone gives every input its own
variable and composes the functions of the gates in between. Exhaustive simulation does so for
all combinational inputs. Simulation by words evaluates 64 input assignments at once.

## Main definitions

- `Network.simulateCone` — the tables of some targets over the inputs of a window
- `Network.simulateNodes`, `Network.simulateOutputs` — the tables over all inputs
- `Network.simulateWords` — the outputs on 64 assignments
-/

namespace LogicSynthesis

/-- The largest number of inputs that is simulated exhaustively. -/
def maxExhaustiveInputs : Nat := 16

namespace Network

/-- The value found for `n`. -/
def lookUp {α : Type} (values : Std.HashMap NodeId α) (n : NodeId) : Except Fault α :=
  match values[n]? with
  | some a => .ok a
  | none => .error .missingEntry

/-- The table of an edge, from the table of its driver. -/
def edgeTable (values : Std.HashMap NodeId TruthTable) (s : Signal) : Except Fault TruthTable :=
  (lookUp values s.node).map (·.withPolarity s.negated)

/-- The table of a node over `numVars` inputs, from the tables of its fanins. -/
def evaluateNode (net : Network) (numVars : Nat) (values : Std.HashMap NodeId TruthTable)
    (n : NodeId) : Except Fault TruthTable := do
  let node ← net.node n
  match node.kind with
  | .constant value =>
    if value then TruthTable.Checked.const1 numVars else TruthTable.Checked.const0 numVars
  | .primaryInput | .registerOutput => throw (.inputOutsideWindow n)
  | .gate =>
    let fanins ← node.fanins.mapM (edgeTable values)
    TruthTable.Checked.compose (← net.functions.get node.function) fanins

/-- Evaluates a node and keeps its table. -/
def evaluateInto (net : Network) (numVars : Nat) (values : Std.HashMap NodeId TruthTable)
    (n : NodeId) : Except Fault (Std.HashMap NodeId TruthTable) := do
  return values.insert n (← net.evaluateNode numVars values n)

/-- The tables of the window inputs, each a variable of its own. -/
def inputTables (inputs : List NodeId) : Except Fault (Std.HashMap NodeId TruthTable) :=
  inputs.zipIdx.foldlM
    (fun values (n, i) => return values.insert n (← TruthTable.Checked.var inputs.length i)) ∅

/-- The tables of `targets` over `inputs`, of which the `i`-th is variable `i`. -/
def simulateCone (net : Network) (inputs targets : List NodeId) :
    Except Fault (List TruthTable) := do
  let start ← inputTables inputs
  net.checkNodes (inputs ++ targets)
  let values ← (net.coneOrder inputs targets).foldlM (net.evaluateInto inputs.length) start
  targets.mapM (lookUp values)

/-- All combinational inputs, if they are few enough to try every assignment. -/
def exhaustiveInputs (net : Network) : Except Fault (List NodeId) := do
  require (net.numCis ≤ maxExhaustiveInputs) (.tooManyInputs net.numCis)
  return net.cis

/-- The table of every node over the combinational inputs. -/
def simulateNodes (net : Network) : Except Fault (List TruthTable) := do
  net.simulateCone (← net.exhaustiveInputs) net.nodeIds

/-- The table of every combinational output, its polarity applied. -/
def simulateOutputs (net : Network) : Except Fault (List TruthTable) := do
  let tables ← net.simulateCone (← net.exhaustiveInputs) (net.cos.map Signal.node)
  return List.zipWith (fun t s => t.withPolarity s.negated) tables net.cos

/-- The word of an edge, from the word of its driver. -/
def edgeWord (values : Std.HashMap NodeId UInt64) (s : Signal) : Except Fault UInt64 :=
  (lookUp values s.node).map fun w => if s.negated then ~~~w else w

/-- The word of a node, from the words of its fanins. -/
def evaluateWord (net : Network) (values : Std.HashMap NodeId UInt64) (n : NodeId) :
    Except Fault UInt64 := do
  let node ← net.node n
  match node.kind with
  | .constant value => return if value then 0xFFFFFFFFFFFFFFFF else 0
  | _ =>
    let fanins ← node.fanins.mapM (edgeWord values)
    TruthTable.Checked.composeWord (← net.functions.get node.function) fanins

/-- The combinational outputs on 64 assignments, given by one word for each combinational
input. -/
def simulateWords (net : Network) (inputWords : List UInt64) : Except Fault (List UInt64) := do
  require (inputWords.length == net.numCis) .wordCount
  let start := (net.cis.zip inputWords).foldl
    (fun values (n, w) => values.insert n w) (∅ : Std.HashMap NodeId UInt64)
  let values ← (net.coneOrder net.cis (net.cos.map Signal.node)).foldlM
    (fun values n => return values.insert n (← net.evaluateWord values n)) start
  net.cos.mapM (edgeWord values)

end Network

end LogicSynthesis
