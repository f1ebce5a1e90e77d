import LogicSynthesis.Fault
import LogicSynthesis.Signal

/-!
# Scratch state of a network

Every node has two numbers that walks may use. Its value is a free counter of 32 bits, which
cost estimation uses as a reference count. Its mark says when it was last visited: the current
walk is the one whose number is `walk`, and a node is visited in it when its mark is that number.
The numbers of walks have 32 bits too, and no number is used again.

## Main definitions

- `Scratch` — values, marks and the number of the current walk
- `Scratch.increment`, `Scratch.decrement` — counting within the range of a value
- `Scratch.beginWalk` — a new walk, if there is a number for it
-/

namespace LogicSynthesis

/-- Values and marks of the nodes of a network, by node. -/
structure Scratch where
  values : Array Nat := #[]
  marks : Array Nat := #[]
  walk : Nat := 0
  deriving DecidableEq, Repr

namespace Scratch

/-- The first number that no value, mark or walk has. -/
def valueBound : Nat := 4294967296

/-- Room for one more node. -/
def grow (s : Scratch) : Scratch := { s with values := s.values.push 0, marks := s.marks.push 0 }

def value (s : Scratch) (n : NodeId) : Except Fault Nat :=
  match s.values[n]? with
  | some v => .ok v
  | none => .error .missingEntry

def setValue (s : Scratch) (n : NodeId) (v : Nat) : Except Fault Scratch := do
  require (n < s.values.size) .missingEntry
  return { s with values := s.values.setIfInBounds n v }

/-- Adds one to a value and returns what it was. -/
def increment (s : Scratch) (n : NodeId) : Except Fault (Nat × Scratch) := do
  let v ← s.value n
  require (v + 1 < valueBound) .overflow
  return (v, { s with values := s.values.setIfInBounds n (v + 1) })

/-- Takes one from a value and returns what is left. -/
def decrement (s : Scratch) (n : NodeId) : Except Fault (Nat × Scratch) := do
  let v ← s.value n
  require (0 < v) (.counterUnderflow n)
  return (v - 1, { s with values := s.values.setIfInBounds n (v - 1) })

def clearValues (s : Scratch) : Scratch := { s with values := s.values.map fun _ => 0 }

def mark (s : Scratch) (n : NodeId) : Except Fault Nat :=
  match s.marks[n]? with
  | some v => .ok v
  | none => .error .missingEntry

def setMark (s : Scratch) (n : NodeId) (v : Nat) : Except Fault Scratch := do
  require (n < s.marks.size) .missingEntry
  return { s with marks := s.marks.setIfInBounds n v }

def clearMarks (s : Scratch) : Scratch := { s with marks := s.marks.map fun _ => 0 }

/-- The state in the walk after the current one. -/
def nextWalk (s : Scratch) : Scratch := { s with walk := s.walk + 1 }

/-- Begins a new walk. After the last number of 32 bits there is none. -/
def beginWalk (s : Scratch) : Except Fault Scratch := do
  require (s.walk + 1 < valueBound) .overflow
  return s.nextWalk

/-- Whether a node still waits to be visited in the current walk. -/
def isFresh (s : Scratch) (n : NodeId) : Bool :=
  match s.marks[n]? with
  | some m => m != s.walk
  | none => false

/-- Marks a node as visited in the current walk. -/
def visit (s : Scratch) (n : NodeId) : Scratch :=
  { s with marks := s.marks.setIfInBounds n s.walk }

end Scratch

end LogicSynthesis
