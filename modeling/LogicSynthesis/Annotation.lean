import LogicSynthesis.Network.Basic

/-!
# Annotations of nodes

Maps from nodes to values. A dense map has an entry for every node that the network had when the
map was sized, and does not follow its growth by itself. A sparse map has entries for some nodes.

## Main definitions

- `NodeMap` — a dense map
- `SparseNodeMap` — a sparse map
-/

namespace LogicSynthesis

/-- An annotation of every node of a network. -/
structure NodeMap (α : Type) where
  entries : Array α
  deriving DecidableEq, Repr

namespace NodeMap

variable {α : Type}

/-- The same value for every node. -/
def constant (net : Network) (a : α) : NodeMap α := ⟨Array.replicate net.size a⟩

/-- Entries for the nodes added since, all with the value `a`. -/
def resize (m : NodeMap α) (net : Network) (a : α) : NodeMap α :=
  ⟨m.entries ++ Array.replicate (net.size - m.entries.size) a⟩

def size (m : NodeMap α) : Nat := m.entries.size

def isEmpty (m : NodeMap α) : Bool := m.entries.isEmpty

def get? (m : NodeMap α) (n : NodeId) : Option α := m.entries[n]?

/-- The entry of a node, which must be there. -/
def get (m : NodeMap α) (n : NodeId) : Except Fault α :=
  match m.entries[n]? with
  | some a => .ok a
  | none => .error (.mapIndex n m.size)

/-- Changes the entry of a node, which must be there. -/
def set (m : NodeMap α) (n : NodeId) (a : α) : Except Fault (NodeMap α) := do
  require (n < m.size) (.mapIndex n m.size)
  return ⟨m.entries.setIfInBounds n a⟩

end NodeMap

/-- An annotation of some nodes. -/
structure SparseNodeMap (α : Type) where
  entries : Std.HashMap NodeId α

namespace SparseNodeMap

variable {α : Type}

def empty : SparseNodeMap α := ⟨∅⟩

def size (m : SparseNodeMap α) : Nat := m.entries.size

def isEmpty (m : SparseNodeMap α) : Bool := m.entries.isEmpty

def contains (m : SparseNodeMap α) (n : NodeId) : Bool := m.entries.contains n

def get? (m : SparseNodeMap α) (n : NodeId) : Option α := m.entries[n]?

/-- The entry of a node, which must be there. -/
def get (m : SparseNodeMap α) (n : NodeId) : Except Fault α :=
  match m.entries[n]? with
  | some a => .ok a
  | none => .error (.noMapEntry n)

/-- Sets the entry of a node and returns the former one. -/
def insert (m : SparseNodeMap α) (n : NodeId) (a : α) : Option α × SparseNodeMap α :=
  (m.get? n, ⟨m.entries.insert n a⟩)

/-- Removes the entry of a node and returns it. -/
def erase (m : SparseNodeMap α) (n : NodeId) : Option α × SparseNodeMap α :=
  (m.get? n, ⟨m.entries.erase n⟩)

end SparseNodeMap

end LogicSynthesis
