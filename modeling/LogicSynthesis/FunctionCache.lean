import LogicSynthesis.TruthTable.Checked
import Std.Data.HashMap

/-!
# Function cache

Gates share their functions through a cache. A function is known by a literal, twice the index
of an entry plus a complement bit. Entries have the value false on assignment `0`, so a function
and its complement share one entry and their literals differ in the lowest bit.

## Main definitions

- `FunctionCache` — the entries in the order of their first insertion
- `FunctionCache.insert` — the literal of a function, which enters the cache if it is new
- `FunctionCache.get?` — the function of a literal
-/

namespace LogicSynthesis

/-- Functions under shared literals. -/
structure FunctionCache where
  entries : Array TruthTable
  index : Std.HashMap TruthTable Nat

namespace FunctionCache

/-- The literal of the constant false, the first entry of every cache. -/
def falseLiteral : Nat := 0

/-- The literal of the constant true. -/
def trueLiteral : Nat := 1

/-- The literal of the identity on one variable, the second entry of every cache. -/
def identityLiteral : Nat := 2

/-- Looks a function up, adding an entry if there is none. -/
def insert (c : FunctionCache) (t : TruthTable) : Nat × FunctionCache :=
  let complement := t.bit 0
  let entry := t.withPolarity complement
  match c.index[entry]? with
  | some i => (2 * i + complement.toNat, c)
  | none =>
    let i := c.entries.size
    (2 * i + complement.toNat,
      { entries := c.entries.push entry, index := c.index.insert entry i })

/-- The cache that holds the constant false and the identity. -/
def base : FunctionCache :=
  let empty : FunctionCache := { entries := #[], index := ∅ }
  let (_, withFalse) := empty.insert (TruthTable.zero 0)
  (withFalse.insert (TruthTable.proj 1 0)).2

/-- The function of a literal. -/
def get? (c : FunctionCache) (literal : Nat) : Option TruthTable :=
  (c.entries[literal / 2]?).map fun entry => entry.withPolarity (literal % 2 == 1)

/-- The function of a literal that must have an entry. -/
def get (c : FunctionCache) (literal : Nat) : Except Fault TruthTable :=
  match c.get? literal with
  | some t => .ok t
  | none => .error .missingEntry

def size (c : FunctionCache) : Nat := c.entries.size

end FunctionCache

end LogicSynthesis
