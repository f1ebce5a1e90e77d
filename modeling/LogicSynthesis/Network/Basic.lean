import LogicSynthesis.FunctionCache
import LogicSynthesis.Network.Events
import LogicSynthesis.Network.Scratch

/-!
# Logic networks

A logic network is a numbered sequence of nodes. The first nodes are constants; inputs and gates
follow in the order of their creation. A gate reads its fanins through signals, and its function
is a literal of the network's function cache. Three bases of gates share this form:
two-input conjunctions, three-input majorities, and lookup tables of any width.

Conjunctions and majorities are symmetric. Their fanins are kept sorted and complementation is
free on every edge. A lookup table reads plain nodes in a fixed order, and complementation is a
table of its own.

## Main definitions

- `Basis` — the kind of gate a network is made of
- `Node`, `Network` — the nodes and the network
- `Network.new` — the network that holds constants only
- `cis`, `cos` — combinational inputs and outputs
-/

namespace LogicSynthesis

/-- The gates of which a network is made. -/
inductive Basis where
  | andInverter
  | majorityInverter
  | lookupTable
  deriving DecidableEq, Repr

namespace Basis

/-- The values of the constant nodes. -/
def constants : Basis → List Bool
  | andInverter | majorityInverter => [false]
  | lookupTable => [false, true]

/-- Whether the order of the fanins does not matter to any gate. -/
def isSymmetric : Basis → Bool
  | andInverter | majorityInverter => true
  | lookupTable => false

/-- The signal of a constant. -/
def constant (basis : Basis) (value : Bool) : Signal :=
  match basis with
  | andInverter | majorityInverter => ⟨0, value⟩
  | lookupTable => .ofNode value.toNat

/-- The one function that every gate has, if the basis fixes it. -/
def gateFunction? : Basis → Option TruthTable
  | andInverter => some ((TruthTable.proj 2 0).and (TruthTable.proj 2 1))
  | majorityInverter =>
    some (TruthTable.maj (TruthTable.proj 3 0) (TruthTable.proj 3 1) (TruthTable.proj 3 2))
  | lookupTable => none

/-- The literal of that function. It enters the cache of a new network first. -/
def gateLiteral : Nat := 4

end Basis

/-- A node with its fanins, the literal of its function and the number of edges that read it. -/
structure Node where
  kind : NodeKind
  fanins : List Signal
  function : Nat
  fanout : Nat
  deriving DecidableEq, Repr

/-- A network, with an index that finds the gate of given fanins and function. -/
structure Network where
  basis : Basis
  nodes : Array Node
  pis : Array NodeId
  ros : Array NodeId
  pos : Array Signal
  ris : Array Signal
  index : Std.HashMap (List Signal × Nat) NodeId
  functions : FunctionCache
  scratch : Scratch
  events : Events

namespace Network

/-- The node of a constant. -/
def constantNode (value : Bool) : Node :=
  { kind := .constant value
    fanins := []
    function := if value then FunctionCache.trueLiteral else FunctionCache.falseLiteral
    fanout := 0 }

/-- The network that holds the constants of its basis and nothing else. -/
def new (basis : Basis) : Network :=
  { basis
    nodes := (basis.constants.map constantNode).toArray
    pis := #[]
    ros := #[]
    pos := #[]
    ris := #[]
    index := ∅
    functions :=
      match basis.gateFunction? with
      | some t => (FunctionCache.base.insert t).2
      | none => FunctionCache.base
    scratch := basis.constants.foldl (fun scratch _ => scratch.grow) {}
    events := {} }

def size (net : Network) : Nat := net.nodes.size

/-- The number of gates, dangling ones included. -/
def numGates (net : Network) : Nat :=
  net.size - net.basis.constants.length - net.pis.size - net.ros.size

/-- The combinational inputs: primary inputs, then register outputs. -/
def cis (net : Network) : List NodeId := net.pis.toList ++ net.ros.toList

/-- The combinational outputs: primary outputs, then register inputs. -/
def cos (net : Network) : List Signal := net.pos.toList ++ net.ris.toList

def numCis (net : Network) : Nat := net.pis.size + net.ros.size

def numCos (net : Network) : Nat := net.pos.size + net.ris.size

/-- Every node, in the order of creation. -/
def nodeIds (net : Network) : List NodeId := List.range net.size

/-- The node `n`, which must exist. -/
def node (net : Network) (n : NodeId) : Except Fault Node :=
  match net.nodes[n]? with
  | some node => .ok node
  | none => .error (.nodeOutOfBounds n net.size)

/-- Whether `n` exists and its kind satisfies `p`. -/
def kindIs (net : Network) (p : NodeKind → Bool) (n : NodeId) : Bool :=
  match net.nodes[n]? with
  | some node => p node.kind
  | none => false

def isConstant (net : Network) (n : NodeId) : Bool := net.kindIs NodeKind.isConstant n

def isInput (net : Network) (n : NodeId) : Bool := net.kindIs NodeKind.isInput n

def isGate (net : Network) (n : NodeId) : Bool := net.kindIs NodeKind.isGate n

/-- Whether every fanin path through `n` ends there. -/
def isTerminal (net : Network) (n : NodeId) : Bool := net.kindIs NodeKind.isTerminal n

/-- The value of a constant node. -/
def constantValue (net : Network) (n : NodeId) : Except Fault Bool := do
  match (← net.node n).kind with
  | .constant value => return value
  | kind => throw (.notConstant n kind)

/-- The fanins of `n`; none where no node exists. -/
def fanins (net : Network) (n : NodeId) : List Signal :=
  match net.nodes[n]? with
  | some node => node.fanins
  | none => []

/-- The nodes that drive the fanins of `n`. -/
def faninNodes (net : Network) (n : NodeId) : List NodeId := (net.fanins n).map Signal.node

/-- The function of a node over its fanins. -/
def nodeFunction (net : Network) (n : NodeId) : Except Fault TruthTable := do
  net.functions.get (← net.node n).function

/-- Enters a function into the cache and returns its literal. -/
def insertFunction (net : Network) (t : TruthTable) : Nat × Network :=
  let (literal, functions) := net.functions.insert t
  (literal, { net with functions })

/-- A copy of the network that nobody watches. -/
def copy (net : Network) : Network := { net with events := {} }

/-- Changes the scratch state. -/
def withScratch (net : Network) (scratch : Scratch) : Network := { net with scratch }

/-- Works on the scratch state by itself, next to a network without it, and puts it back. -/
def onScratch {α : Type} (net : Network)
    (work : Network → Scratch → Except Fault (α × Scratch)) : Except Fault (α × Network) :=
  let scratch := net.scratch
  let rest := net.withScratch {}
  (work rest scratch).map fun (a, scratch) => (a, rest.withScratch scratch)

/-- Stops unless every one of the given nodes exists. -/
def checkNodes (net : Network) (ns : List NodeId) : Except Fault Unit :=
  require (ns.all (· < net.size)) .missingEntry

end Network

end LogicSynthesis
