import LogicSynthesis.NodeKind

/-!
# Faults

A fault is the reason why an operation has no result: an argument it does not accept, or a
check of its own that failed. Every operation that can stop returns its result in
`Except Fault`.

## Main definitions

- `Fault` — the causes
- `Fault.message` — the report that goes with a cause; the plain causes have none
-/

namespace LogicSynthesis

/-- Why an operation stopped. -/
inductive Fault where
  /-- An index, node or key with nothing behind it. -/
  | missingEntry
  /-- A number left the range of its type. -/
  | overflow
  /-- A requirement on the arguments does not hold. -/
  | requirement
  | tooManyVariables (numVars : Nat)
  | variableOutOfRange (index numVars : Nat)
  | tooWideForWord
  | arityMismatch
  | positionCount
  | nodeOutOfBounds (node size : Nat)
  | notAGate (node : Nat)
  | notConstant (node : Nat) (kind : NodeKind)
  | andChildCount (node : Nat)
  | majorityChildCount (node : Nat)
  | lutArity
  | counterUnderflow (node : Nat)
  | unbalancedCone (node : Nat)
  | removedTwice (vertex : Nat)
  | emptyPivots
  | cutTooLarge (leaves bound : Nat)
  | inputOutsideWindow (node : Nat)
  | tooManyInputs (count : Nat)
  | wordCount
  | noTrivialCut
  | cycleIntroduced
  | leafCount
  | noSupport
  | mapIndex (node size : Nat)
  | noMapEntry (node : Nat)
  | noInputs
  | inputSignalCount (signals inputs : Nat)
  | notYetCopied (node : Nat)
  deriving DecidableEq, Repr

namespace Fault

/-- The word for a kind in the report of a constant that is none. -/
def kindWord : NodeKind → String
  | .constant value => if value then "Constant(true)" else "Constant(false)"
  | .primaryInput => "Pi"
  | .registerOutput => "Ro"
  | .gate => "Gate"

/-- The report that goes with a fault. Missing entries, overflows and unmet requirements are
reported without words. -/
def message : Fault → Option String
  | missingEntry | overflow | requirement => none
  | tooManyVariables numVars =>
    some s!"truth table with {numVars} variables exceeds the limit of 20"
  | variableOutOfRange index numVars =>
    some s!"variable index {index} out of range for {numVars} variables"
  | tooWideForWord => some "from_u64 supports at most 6 variables"
  | arityMismatch => some "binary operation on truth tables of different arity"
  | positionCount => some "expand needs one position per variable"
  | nodeOutOfBounds node size => some s!"node {node} out of bounds for network of size {size}"
  | notAGate node => some s!"substitute_node: node {node} is not a gate"
  | notConstant node kind =>
    let word := kindWord kind
    some s!"node NodeRef \x7b id: {node} \x7d is not a constant: {word}"
  | andChildCount node => some s!"AIG node {node} must be cloned with two children"
  | majorityChildCount node => some s!"MIG node {node} must be cloned with three children"
  | lutArity => some "LUT function arity does not match its fanin count"
  | counterUnderflow node => some s!"reference counter underflow at node {node}"
  | unbalancedCone node => some s!"mffc_size: deref/ref mismatch at node {node}"
  | removedTwice vertex => some s!"vertex {vertex} removed twice"
  | emptyPivots => some "reconvergence_driven_cut: empty pivot set"
  | cutTooLarge leaves bound => some s!"cut-size overflow: {leaves} leaves for a bound of {bound}"
  | inputOutsideWindow node =>
    some s!"simulation window reaches input {node} outside its boundary"
  | tooManyInputs count =>
    some s!"exhaustive simulation of {count} inputs exceeds the limit of 16"
  | wordCount => some "one word per combinational input"
  | noTrivialCut => some "cut_limit must leave room for the trivial cut"
  | cycleIntroduced => some "cut_rewriting: substitutions introduced a cycle"
  | leafCount => some "function arity does not match the number of leaves"
  | noSupport =>
    some "internal error: entered unreachable code: non-terminal function without support"
  | mapIndex node size =>
    some s!"node map access at {node} out of bounds ({size} entries); resize the map after growing the network"
  | noMapEntry node => some s!"node {node} has no entry in the map"
  | noInputs => some "random network needs at least one input"
  | inputSignalCount signals inputs =>
    some s!"cleanup_dangling_into: {signals} input signals for {inputs} combinational inputs"
  | notYetCopied node => some s!"cleanup_dangling_into: node {node} used before it was copied"

end Fault

/-- Stops with `fault` unless `condition` holds. -/
def require (condition : Bool) (fault : Fault) : Except Fault Unit :=
  if condition then .ok () else .error fault

end LogicSynthesis
