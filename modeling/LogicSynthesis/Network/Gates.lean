import LogicSynthesis.Network.Construction

/-!
# Gate constructors

Negation, conjunction and the operators made of them, over every basis. A conjunction or a
majority whose value needs no gate is folded, and its fanins are sorted. A majority keeps at most
one complemented fanin and complements its output instead. A lookup table holds its operator as
it stands.

## Main definitions

- `Build.conjunction`, `Build.majority` — the gates of the two symmetric bases
- `Build.lut` — a lookup table of given fanins
- `Build.not`, `Build.and`, `Build.or`, `Build.xor`, `Build.ite`, `Build.maj` — the operators
- `Build.cloneNode` — a node of another network over given fanins
-/

namespace LogicSynthesis.Build

/-- The conjunction of two signals over the conjunction basis. The constant node comes first in
the order of signals. -/
def conjunction (a b : Signal) : Build Signal :=
  let (a, b) := if a.le b then (a, b) else (b, a)
  if a.node = b.node then
    if a.negated = b.negated then return a else constant false
  else if a.node = 0 then
    if a.negated then return b else constant false
  else
    Signal.ofNode <$> node [a, b] Basis.gateLiteral

/-- The majority of three sorted signals of which no two have one driver. -/
def distinctMajority (signals : List Signal) : Build Signal :=
  if 2 ≤ signals.countP Signal.negated then do
    let n ← node (signals.map Signal.negate) Basis.gateLiteral
    return ⟨n, true⟩
  else
    Signal.ofNode <$> node signals Basis.gateLiteral

/-- The majority of three signals over the majority basis. Two equal signals decide it, and two
complementary ones leave it to the third. -/
def majority (x y z : Signal) : Build Signal :=
  match Signal.sort [x, y, z] with
  | [a, b, c] =>
    if a.node = b.node then return if a.negated = b.negated then a else c
    else if b.node = c.node then return if b.negated = c.negated then b else a
    else if a.node = c.node then return if a.negated = c.negated then a else b
    else distinctMajority [a, b, c]
  | _ => throw .requirement

/-- A lookup table with one fanin for each variable of its function. Without fanins it is a
constant. -/
def lut (fanins : List Signal) (t : TruthTable) : Build Signal := do
  ask fun _ => require (fanins.length == t.numVars) .lutArity
  if fanins.isEmpty then
    constant (t.bit 0)
  else
    let literal ← function t
    Signal.ofNode <$> node fanins literal

protected def not (a : Signal) : Build Signal := do
  match (← get).basis with
  | .andInverter | .majorityInverter => return a.negate
  | .lookupTable => lut [a] (TruthTable.proj 1 0).not

protected def and (a b : Signal) : Build Signal := do
  match (← get).basis with
  | .andInverter => conjunction a b
  | .majorityInverter => majority (← constant false) a b
  | .lookupTable => lut [a, b] (TruthTable.ofWord 2 0x8)

protected def or (a b : Signal) : Build Signal := do
  match (← get).basis with
  | .andInverter =>
    let na ← Build.not a
    let nb ← Build.not b
    Build.not (← Build.and na nb)
  | .majorityInverter => majority (← constant true) a b
  | .lookupTable => lut [a, b] (TruthTable.ofWord 2 0xE)

protected def xor (a b : Signal) : Build Signal := do
  match (← get).basis with
  | .andInverter | .majorityInverter =>
    let nb ← Build.not b
    let na ← Build.not a
    let left ← Build.and a nb
    let right ← Build.and na b
    Build.or left right
  | .lookupTable => lut [a, b] (TruthTable.ofWord 2 0x6)

protected def ite (condition thenPart elsePart : Signal) : Build Signal := do
  match (← get).basis with
  | .andInverter | .majorityInverter =>
    let otherwise ← Build.not condition
    let left ← Build.and condition thenPart
    let right ← Build.and otherwise elsePart
    Build.or left right
  | .lookupTable => lut [condition, thenPart, elsePart] (TruthTable.ofWord 3 0xD8)

def maj (a b c : Signal) : Build Signal := do
  match (← get).basis with
  | .andInverter =>
    let both ← Build.and a b
    let either ← Build.or a b
    let third ← Build.and c either
    Build.or both third
  | .majorityInverter => majority a b c
  | .lookupTable => lut [a, b, c] (TruthTable.ofWord 3 0xE8)

/-- The signal complemented when `negate` is set. -/
def withPolarity (s : Signal) (negate : Bool) : Build Signal :=
  if negate then Build.not s else return s

/-- The function of a node of `other` over `fanins`, which stand for its fanins. -/
def cloneNode (other : Network) (source : NodeId) (fanins : List Signal) : Build Signal := do
  match (← get).basis, fanins with
  | .andInverter, [a, b] => Build.and a b
  | .andInverter, _ => throw (.andChildCount source)
  | .majorityInverter, [a, b, c] => maj a b c
  | .majorityInverter, _ => throw (.majorityChildCount source)
  | .lookupTable, _ => lut fanins (← ask fun _ => other.nodeFunction source)

end LogicSynthesis.Build
