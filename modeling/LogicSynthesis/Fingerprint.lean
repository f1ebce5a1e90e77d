import LogicSynthesis.Blake3
import LogicSynthesis.Network.Walk

/-!
# Fingerprints

A fingerprint is a digest of everything that the outputs of a network read. Each node has a
digest made from its function and the digests of its fanins, so node numbers and dangling nodes
do not matter. Inputs are told apart by their positions. Where the order of fanins does not
matter, digests are sorted first.

## Main definitions

- `HashScheme` — what fingerprints need of a hash function
- `Network.fingerprintWith` — the fingerprint under a scheme
- `Network.fingerprint` — the fingerprint under BLAKE3

## Design notes

A message is a list of pieces, some of them digests, and a scheme decides how pieces become
bytes. The theory needs only that different messages have different digests.
-/

namespace LogicSynthesis

/-- A part of a message: bytes, or the digest of another message. -/
inductive MessagePiece (δ : Type) where
  | bytes (bytes : List UInt8)
  | digest (d : δ)

/-- A hash function on messages whose digests are of type `δ`, with an order of digests. -/
structure HashScheme (δ : Type) where
  hash : List (MessagePiece δ) → δ
  le : δ → δ → Bool

/-- The eight bytes of a word, the lowest first. -/
def littleEndian (w : UInt64) : List UInt8 :=
  (List.range 8).map fun i => (w >>> (UInt64.ofNat (8 * i))).toUInt8

namespace HashScheme

/-- The bytes of a message in which a digest stands for its own bytes. -/
def flatten (message : List (MessagePiece (List UInt8))) : List UInt8 :=
  message.flatMap fun
    | .bytes bytes => bytes
    | .digest d => d

/-- Whether the first of two byte strings does not come after the second. -/
def bytesLe : List UInt8 → List UInt8 → Bool
  | [], _ => true
  | _ :: _, [] => false
  | a :: as, b :: bs => a < b || (a == b && bytesLe as bs)

/-- Digests of 32 bytes, ordered byte by byte. -/
def blake3 : HashScheme (List UInt8) :=
  { hash := fun message => Blake3.hash (flatten message)
    le := bytesLe }

end HashScheme

namespace Network

variable {δ : Type}

/-- A fanin in a message: the digest of its node and its polarity. -/
abbrev FaninDigest (δ : Type) := δ × Bool

/-- Fanins are ordered by digest, the uncomplemented one first. -/
def faninLe (scheme : HashScheme δ) (a b : FaninDigest δ) : Bool :=
  if scheme.le a.1 b.1 then
    if scheme.le b.1 a.1 then !a.2 || b.2 else true
  else false

def flagByte (b : Bool) : UInt8 := if b then 1 else 0

def faninPieces (fanin : FaninDigest δ) : List (MessagePiece δ) :=
  [.digest fanin.1, .bytes [flagByte fanin.2]]

/-- The message of a constant. -/
def constantMessage (value : Bool) : List (MessagePiece δ) := [.bytes [2, flagByte value]]

/-- The message of an input, from its class and its position among all inputs. -/
def inputMessage (isRegister : Bool) (position : Nat) : List (MessagePiece δ) :=
  [.bytes [1, flagByte isRegister], .bytes (littleEndian (UInt64.ofNat position))]

/-- The message of a gate, from the table of its function and its fanins. -/
def gateMessage (function : TruthTable) (fanins : List (FaninDigest δ)) :
    List (MessagePiece δ) :=
  .bytes [0] :: .bytes (function.words.toList.flatMap littleEndian) :: fanins.flatMap faninPieces

/-- The digest found for `n`. -/
def digestOf (digests : Std.HashMap NodeId δ) (n : NodeId) : Except Fault δ :=
  match digests[n]? with
  | some d => .ok d
  | none => .error .missingEntry

/-- The digest of a constant or a gate, from the digests of its fanins. -/
def nodeDigest (net : Network) (scheme : HashScheme δ) (digests : Std.HashMap NodeId δ)
    (n : NodeId) : Except Fault δ := do
  let node ← net.node n
  match node.kind with
  | .constant value => return scheme.hash (constantMessage value)
  | .primaryInput | .registerOutput => throw .missingEntry
  | .gate =>
    let fanins ← node.fanins.mapM fun s => return (← digestOf digests s.node, s.negated)
    let ordered :=
      if net.basis.isSymmetric then fanins.mergeSort (faninLe scheme) else fanins
    return scheme.hash (gateMessage (← net.functions.get node.function) ordered)

/-- The digests of the combinational inputs. -/
def inputDigests (net : Network) (scheme : HashScheme δ) : Std.HashMap NodeId δ :=
  net.cis.zipIdx.foldl
    (fun digests (n, i) => digests.insert n (scheme.hash (inputMessage (net.pis.size ≤ i) i))) ∅

/-- The message of a network, from its numbers of primary inputs, primary outputs and registers
and the digests of its outputs. -/
def networkMessage (net : Network) (outputs : List (FaninDigest δ)) : List (MessagePiece δ) :=
  let counts := [net.pis.size, net.pos.size, net.ris.size]
  .bytes (counts.flatMap fun n => littleEndian (UInt64.ofNat n)) :: outputs.flatMap faninPieces

/-- The digest of everything that the combinational outputs read. -/
def fingerprintWith (net : Network) (scheme : HashScheme δ) : Except Fault δ := do
  let digests ← (net.coneOrder net.cis (net.cos.map Signal.node)).foldlM
    (fun digests n => return digests.insert n (← net.nodeDigest scheme digests n))
    (net.inputDigests scheme)
  let outputs ← net.cos.mapM fun s => return (← digestOf digests s.node, s.negated)
  return scheme.hash (net.networkMessage outputs)

/-- The fingerprint of a network in 32 bytes. -/
def fingerprint (net : Network) : Except Fault (List UInt8) := net.fingerprintWith .blake3

end Network

end LogicSynthesis
