import LogicSynthesis.Resynthesis.Oracle

/-!
# Collapsing into one table

A function becomes a single lookup table over the leaves on which it depends. A projection is the
leaf itself and a constant the constant node.

## Main definitions

- `Oracle.collapse` — the oracle, for networks of lookup tables
-/

namespace LogicSynthesis

/-- The lookup table of a function over the leaves that it needs. -/
def collapseInto (function : TruthTable) (leaves : List Signal) : Build Signal := do
  let (small, vars) := function.minBase
  let fanins := vars.filterMap fun v => leaves[v]?
  match fanins with
  | [leaf] => if small = TruthTable.proj 1 0 then return leaf else Build.lut fanins small
  | _ => Build.lut fanins small

namespace Oracle

/-- Proposes exactly one signal for every function. -/
def collapse : Oracle Unit :=
  ofFunction fun function leaves net =>
    if function.numVars ≠ leaves.length then .stop .requirement
    else .single (collapseInto function leaves) () net

end Oracle

end LogicSynthesis
