import LogicSynthesis.Fault
import LogicSynthesis.Signal
import LogicSynthesis.TruthTable.Basic

/-!
# Cuts

A cut of a node is a set of leaves together with the function that gives the value of the node
from the values of the leaves. A cut whose leaves all belong to another cut makes the other one
superfluous: it dominates it.

## Main definitions

- `Cut` — leaves in ascending order, with the function over them
- `Cut.dominates` — inclusion of leaves
- `Cut.insertInto` — adds a cut to a set that keeps no dominated cut
- `mergeLeaves` — the union of some leaf sets, within a limit
-/

namespace LogicSynthesis

/-- Leaves in ascending order, a word that has a bit for each leaf, and the function over the
leaves, of which the `i`-th is variable `i`. -/
structure Cut where
  leaves : List NodeId
  signature : UInt64
  function : TruthTable
  deriving DecidableEq, Repr

namespace Cut

/-- Each leaf sets the bit of its number modulo 64. -/
def signatureOf (leaves : List NodeId) : UInt64 :=
  leaves.foldl (fun word n => word ||| TruthTable.unitWord (n % 64)) 0

def make (leaves : List NodeId) (function : TruthTable) : Cut :=
  ⟨leaves, signatureOf leaves, function⟩

/-- The cut whose only leaf is the node itself. -/
def trivial (n : NodeId) : Cut := make [n] (TruthTable.proj 1 0)

/-- The cut without leaves of a constant. -/
def constant (value : Bool) : Cut := make [] ((TruthTable.zero 0).withPolarity value)

def size (c : Cut) : Nat := c.leaves.length

/-- Whether every leaf of `a` is a leaf of `b`. Sizes and signatures decide most cases. -/
def dominates (a b : Cut) : Bool :=
  a.size ≤ b.size && (a.signature &&& b.signature == a.signature) &&
    a.leaves.all b.leaves.contains

/-- Adds a cut to a set ordered by size, after the cuts of its size, unless some cut of the set
dominates it. The cuts that it dominates leave the set. -/
def insertInto (set : List Cut) (c : Cut) : List Cut :=
  if set.any (·.dominates c) then set
  else
    let kept := set.filter fun other => !c.dominates other
    kept.takeWhile (·.size ≤ c.size) ++ c :: kept.dropWhile (·.size ≤ c.size)

end Cut

/-- Adds a leaf to leaves in ascending order. -/
def insertLeaf (n : NodeId) : List NodeId → List NodeId
  | [] => [n]
  | m :: ms => if n < m then n :: m :: ms else if n = m then m :: ms else m :: insertLeaf n ms

/-- The union of leaf sets, if it has at most `limit` leaves. -/
def mergeLeaves (parts : List (List NodeId)) (limit : Nat) : Option (List NodeId) :=
  let merged := parts.foldl (fun merged part => part.foldl (fun m n => insertLeaf n m) merged) []
  if merged.length ≤ limit then some merged else none

end LogicSynthesis
