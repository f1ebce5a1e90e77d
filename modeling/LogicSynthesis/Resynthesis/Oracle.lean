import LogicSynthesis.Network.Gates

/-!
# Resynthesis oracles

An oracle is asked for implementations of a function of given leaves. It may extend the network
with gates, and it proposes signals one at a time. The asker answers every proposal, and hands
back a network in which it may have taken notes; with the answer `false` it asks the oracle to
stop.

## Main definitions

- `Query` — the function, its leaves and the assignments that do not matter
- `Dialogue` — what an oracle does in answer to one query
- `Dialogue.listen` — plays the part of the asker
- `Oracle` — an oracle, with the memory that it keeps between queries

## Design notes

A dialogue is a tree whose branches are the answers of the asker, so every dialogue ends.
-/

namespace LogicSynthesis

/-- What an oracle is asked. Leaf `i` drives variable `i` of the function. On the don't-cares the
proposals may have any value. -/
structure Query where
  function : TruthTable
  leaves : List Signal
  dontCares : Option TruthTable := none

/-- What an oracle does in answer to a query: it ends, it stops with a fault, or it proposes a
signal and goes on from the answer. -/
inductive Dialogue (μ : Type) where
  | finish (memory : μ) (net : Network)
  | stop (fault : Fault)
  | propose (net : Network) (candidate : Signal) (resume : Bool → Network → Dialogue μ)

namespace Dialogue

variable {μ σ : Type}

/-- Builds one signal and proposes it. -/
def single (build : Build Signal) (memory : μ) (net : Network) : Dialogue μ :=
  match build net with
  | .error fault => .stop fault
  | .ok (s, net) => .propose net s fun _ net => .finish memory net

/-- Hears every proposal, in a state that the hearing changes. -/
def listen (hear : σ → Signal → Network → Except Fault (Bool × σ × Network)) :
    Dialogue μ → σ → Except Fault (μ × σ × Network)
  | finish memory net, state => .ok (memory, state, net)
  | stop fault, _ => .error fault
  | propose net candidate resume, state => do
    let (more, state, net) ← hear state candidate net
    (resume more net).listen hear state

end Dialogue

/-- An oracle. Don't-cares are worked out only for an oracle that makes use of them. -/
structure Oracle (μ : Type) where
  usesDontCares : Bool
  answer : μ → Query → Network → Dialogue μ

namespace Oracle

/-- An oracle that answers from a function and leaves alone. -/
def ofFunction (answer : TruthTable → List Signal → Network → Dialogue Unit) : Oracle Unit :=
  { usesDontCares := false
    answer := fun _ query net => answer query.function query.leaves net }

/-- An oracle that answers from a function, its don't-cares and its leaves. A query without
don't-cares has none. -/
def withDontCares (answer : TruthTable → TruthTable → List Signal → Network → Dialogue Unit) :
    Oracle Unit :=
  { usesDontCares := true
    answer := fun _ query net =>
      answer query.function (query.dontCares.getD (.zero query.function.numVars)) query.leaves
        net }

/-- Proposes nothing. -/
def silent : Oracle Unit := ofFunction fun _ _ net => .finish () net

/-- Proposes each of the signals until told to stop. -/
def proposeEach : List Signal → Network → Dialogue Unit
  | [], net => .finish () net
  | s :: rest, net =>
    .propose net s fun more net => if more then proposeEach rest net else .finish () net

/-- Proposes each leaf. -/
def eachLeaf : Oracle Unit := ofFunction fun _ leaves net => proposeEach leaves net

/-- Proposes the constant that the function is on the assignment `0`. -/
def originValue : Oracle Unit :=
  ofFunction fun function _ net => .single (Build.constant (function.bit 0)) () net

/-- The conjunction of the leaves, taken from the first on. -/
def conjoin : List Signal → Build Signal
  | [] => throw .missingEntry
  | s :: rest => rest.foldlM Build.and s

/-- Proposes the conjunction of all leaves. -/
def conjunctionChain : Oracle Unit :=
  ofFunction fun _ leaves net => .single (conjoin leaves) () net

end Oracle

end LogicSynthesis
