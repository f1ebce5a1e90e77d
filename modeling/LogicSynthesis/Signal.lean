/-!
# Signals

A signal is an edge of a logic network: the node that drives it and whether its value is
complemented on the way.

## Main definitions

- `Signal` — a node with a polarity
- `Signal.retarget` — the edge moved to another driver, with polarities composed
- `Signal.sort` — the order in which the fanins of a symmetric gate are kept
-/

namespace LogicSynthesis

/-- Nodes are numbered in the order of their creation. -/
abbrev NodeId := Nat

/-- A possibly complemented reference to a node. -/
structure Signal where
  node : NodeId
  negated : Bool
  deriving DecidableEq, Hashable, Repr

namespace Signal

/-- The uncomplemented signal of a node. -/
def ofNode (n : NodeId) : Signal := ⟨n, false⟩

def negate (s : Signal) : Signal := { s with negated := !s.negated }

/-- The signal complemented when `negate` is set. -/
def withPolarity (s : Signal) (negate : Bool) : Signal := if negate then s.negate else s

/-- The edge `s` with `target` in place of its driver. -/
def retarget (s target : Signal) : Signal := ⟨target.node, target.negated ^^ s.negated⟩

/-- Signals are ordered by node, the uncomplemented one first. -/
def le (a b : Signal) : Bool :=
  a.node < b.node || (a.node == b.node && (!a.negated || b.negated))

def sort (signals : List Signal) : List Signal := signals.mergeSort le

end Signal

end LogicSynthesis
