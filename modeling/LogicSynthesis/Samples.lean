import LogicSynthesis.Network.Gates
import LogicSynthesis.Random

/-!
# Sample networks

Small networks with known properties, and random ones.

## Main definitions

- `Sample.simple`, `Sample.majorityOfMajority`, `Sample.redundant` — the fixed samples, each with
  its signals
- `Sample.random` — a network whose gates read random signals
-/

namespace LogicSynthesis.Sample

/-- Three conjunctions of neighbouring inputs, and the conjunction of the first two, which is an
output together with the third. -/
def simple : Build (List Signal) := do
  let i0 ← Build.pi
  let i1 ← Build.pi
  let i2 ← Build.pi
  let i3 ← Build.pi
  let a ← Build.and i0 i1
  let b ← Build.and i1 i2
  let c ← Build.and i2 i3
  let o ← Build.and a b
  let _ ← Build.po o
  let _ ← Build.po c
  return [i0, i1, i2, i3, a, b, c, o]

/-- A majority that reads a majority of the same inputs and equals it. -/
def majorityOfMajority : Build (List Signal) := do
  let a ← Build.pi
  let b ← Build.pi
  let c ← Build.pi
  let inner ← Build.maj a b c
  let top ← Build.maj a inner c
  let _ ← Build.po top
  return [a, b, c, inner, top]

/-- Six conjunctions for `i0 ∧ (i1 ∨ i2)`. -/
def redundant : Build (List Signal) := do
  let i0 ← Build.pi
  let i1 ← Build.pi
  let i2 ← Build.pi
  let ab ← Build.and i0 i1
  let abc ← Build.and ab i2
  let abnc ← Build.and ab i2.negate
  let ac ← Build.and i0 i2
  let t ← Build.or abc abnc
  let o ← Build.or t ac
  let _ ← Build.po o
  return [i0, i1, i2, o]

/-- One of the signals with a random polarity. -/
def pick (signals : Array Signal) (random : Random) : Build (Signal × Random) := do
  let (i, random) := random.below signals.size
  let (negate, random) := random.coin
  match signals[i]? with
  | some s => return (← Build.withPolarity s negate, random)
  | none => throw .missingEntry

/-- A gate over three picked signals: a majority of all, or a conjunction of the first two. -/
def randomGate (signals : Array Signal) (random : Random) : Build (Signal × Random) := do
  let (x, random) ← pick signals random
  let (y, random) ← pick signals random
  let (z, random) ← pick signals random
  let s ←
    match (← get).basis with
    | .majorityInverter => Build.maj x y z
    | _ => Build.and x y
  return (s, random)

/-- Adds gates, each over the signals before it. -/
def randomGates : Nat → Array Signal → Random → Build (Array Signal)
  | 0, signals, _ => return signals
  | count + 1, signals, random => do
    let (s, random) ← randomGate signals random
    randomGates count (signals.push s) random

/-- A random network. Its outputs are the latest signals, the last one first. -/
def random (inputs gates outputs : Nat) (seed : UInt64) : Build Unit := do
  Build.ask fun _ => require (0 < inputs) .noInputs
  let pis ← (List.range inputs).mapM fun _ => Build.pi
  let signals ← randomGates gates pis.toArray (.ofSeed seed)
  (signals.toList.reverse.take outputs).forM fun s => discard (Build.po s)

end LogicSynthesis.Sample
