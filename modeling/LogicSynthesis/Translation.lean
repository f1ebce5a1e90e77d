import LogicSynthesis.Cleanup
import LogicSynthesis.Resynthesis.Oracle
import LogicSynthesis.Settings
import LogicSynthesis.TruthTable.Text

/-!
# Translation between bases

A network is rebuilt over another basis, gate by gate. Every gate that an output reads is handed
to an oracle with the function it computes of its fanins, and the last signal proposed takes its
place. The oracle is asked to stop after each proposal.

## Main definitions

- `TranslationReport` — how many gates were translated, and how many came out
- `TranslationError` — why a network has no translation
- `Network.translate` — the translation
-/

namespace LogicSynthesis

structure TranslationReport where
  nodes : Nat
  gates : Nat
  deriving DecidableEq, Repr

/-- Why a translation failed. -/
inductive TranslationError where
  | usedBeforeTranslation (node : NodeId)
  | noImplementation (node : NodeId) (function : TruthTable)
  | untranslatedOutput (output : Nat) (node : NodeId)
  deriving DecidableEq, Repr

def TranslationError.message : TranslationError → String
  | usedBeforeTranslation node =>
    s!"node_resynthesis: node {node} used before it was translated"
  | noImplementation node function =>
    let hex := function.toHex
    s!"node_resynthesis: no implementation for node {node} with function {hex}"
  | untranslatedOutput output node =>
    s!"node_resynthesis: output {output} reads untranslated node {node}"

/-- A computation that may fail or stop. -/
abbrev Attempt := ExceptT TranslationError (Except Fault)

/-- A translation in the course of its work. -/
structure Translation (μ : Type) where
  memory : μ
  dest : Network
  images : Network.Images
  count : Nat

namespace Network

/-- Keeps a proposal and asks the oracle to stop. -/
def takeProposal (_ : Option Signal) (s : Signal) (net : Network) :
    Except Fault (Bool × Option Signal × Network) :=
  .ok (false, some s, net)

/-- The signals that stand for the fanins of a gate. -/
def faninImages (images : Images) (fanins : List Signal) (dest : Network) :
    Attempt (List Signal × Network) := do
  match fanins.find? fun s => !images.contains s.node with
  | some s => throw (.usedBeforeTranslation s.node)
  | none => fanins.mapM (edgeImage images) dest

/-- Translates one node of `src`, whose fanins are translated already. -/
def translateNode {μ : Type} (src : Network) (oracle : Oracle μ) (state : Translation μ)
    (n : NodeId) : Attempt (Translation μ) := do
  let ⟨memory, dest, images, count⟩ := state
  let node ← (src.node n : Except Fault Node)
  match node.kind with
  | .constant value =>
    let image := dest.basis.constant value
    return ⟨memory, dest, images.insert n image, count⟩
  | .primaryInput | .registerOutput => return ⟨memory, dest, images, count⟩
  | .gate =>
    let (leaves, dest) ← faninImages images node.fanins dest
    let function ← (src.functions.get node.function : Except Fault TruthTable)
    let (memory, image, dest) ←
      ((oracle.answer memory { function, leaves } dest).listen takeProposal none :
        Except Fault (μ × Option Signal × Network))
    match image with
    | none => throw (.noImplementation n function)
    | some image => return ⟨memory, dest, images.insert n image, count + 1⟩

/-- The translated outputs, provided that every output reads a translated node. -/
def outputImages (src : Network) (images : Images) (dest : Network) :
    Attempt (List Signal × Network) := do
  match src.cos.zipIdx.find? fun (s, _) => !images.contains s.node with
  | some (s, i) => throw (.untranslatedOutput i s.node)
  | none => src.cos.mapM (edgeImage images) dest

/-- A network over `basis` with the same inputs and outputs. -/
def translate {μ : Type} (src : Network) (basis : Basis) (oracle : Oracle μ) (memory : μ) :
    Attempt (TranslationReport × μ × Network) := do
  let (cis, dest) ← (copyInputs src (.new basis) : Except Fault (List Signal × Network))
  let images := (src.cis.zip cis).foldl (fun images (n, s) => images.insert n s) (∅ : Images)
  let ⟨memory, dest, images, count⟩ ←
    src.topoOrder.foldlM (translateNode src oracle) ⟨memory, dest, images, 0⟩
  let (outputs, dest) ← outputImages src images dest
  let (_, dest) ← (addOutputs src outputs dest : Except Fault (Unit × Network))
  return ({ nodes := count, gates := dest.numGates }, memory, dest)

end Network

end LogicSynthesis
