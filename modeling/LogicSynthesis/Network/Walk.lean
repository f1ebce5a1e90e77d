import LogicSynthesis.Network.Basic

/-!
# Depth-first walks

Walks along fanins that list every node after its fanins. A walk keeps a stack of tasks: to enter
a node, or to list a node whose fanins are done. A node is entered once, and the nodes that are
marked as seen from the start bound the walk.

## Main definitions

- `Network.walk` — the walk
- `Network.topoOrder` — constants, inputs and the gates that some output reads, fanins first
- `Network.coneOrder` — the nodes that feed some roots above a boundary
- `Network.cutGates` — the gates between a root and a set of leaves
- `Network.inTransitiveFanin` — whether a node is read, however indirectly, by a root
-/

namespace LogicSynthesis.Network

/-- A step of a walk that waits to be taken. -/
inductive Task where
  | enter (n : NodeId)
  | list (n : NodeId)
  deriving DecidableEq, Repr

/-- The nodes seen so far, and the nodes listed so far. -/
structure Walk where
  seen : Array Bool
  order : Array NodeId

namespace Walk

/-- Nothing seen and nothing listed. -/
def start (net : Network) : Walk := ⟨Array.replicate net.size false, #[]⟩

/-- Whether `n` exists and is not seen yet. -/
def isNew (w : Walk) (n : NodeId) : Bool := w.seen[n]? == some false

def see (w : Walk) (n : NodeId) : Walk := { w with seen := w.seen.setIfInBounds n true }

def emit (w : Walk) (n : NodeId) : Walk := { w with order := w.order.push n }

def seeAll (w : Walk) (ns : List NodeId) : Walk := ns.foldl see w

/-- The number of nodes not seen yet. -/
def remaining (w : Walk) : Nat := w.seen.countP (!·)

theorem remaining_see {w : Walk} {n : NodeId} (h : w.isNew n = true) :
    (w.see n).remaining < w.remaining := by
  have hn : w.seen[n]? = some false := by simpa only [isNew, beq_iff_eq] using h
  obtain ⟨hlt, hget⟩ := Array.getElem?_eq_some_iff.mp hn
  have hpos : 0 < w.seen.countP (!·) :=
    Array.countP_pos_iff.mpr ⟨false, hget ▸ Array.getElem_mem hlt, rfl⟩
  simp only [remaining, see, Array.setIfInBounds, hlt, ↓reduceDIte, Array.countP_set, hget,
    Bool.not_true, Bool.not_false, Bool.false_eq_true, ↓reduceIte]
  omega

end Walk

/-- Takes the tasks in order. Entering a node comes down to entering its fanins and then listing
the node. -/
def walk (net : Network) (tasks : List Task) (w : Walk) : Walk :=
  match tasks with
  | [] => w
  | .list n :: rest => walk net rest (w.emit n)
  | .enter n :: rest =>
    if h : w.isNew n then
      walk net ((net.faninNodes n).map .enter ++ .list n :: rest) (w.see n)
    else walk net rest w
  termination_by (w.remaining, tasks.length)
  decreasing_by
    · exact Prod.Lex.right _ (Nat.lt_succ_self _)
    · exact Prod.Lex.left _ _ (Walk.remaining_see h)
    · exact Prod.Lex.right _ (Nat.lt_succ_self _)

/-- Enters each of the roots in turn. -/
def walkFrom (net : Network) (roots : List NodeId) (w : Walk) : Walk :=
  net.walk (roots.map .enter) w

/-- The live part of the network: constants, then combinational inputs in their order, then every
gate that some combinational output reads, each after its fanins. -/
def topoOrder (net : Network) : List NodeId :=
  let first := net.nodeIds.filter net.isConstant ++ net.cis
  let start := ((Walk.start net).seeAll first)
  let done := net.walkFrom (net.cos.map Signal.node) { start with order := first.toArray }
  done.order.toList

/-- The nodes that feed `roots` without passing the boundary, each after its fanins. Boundary
nodes are not listed. -/
def coneOrder (net : Network) (boundary roots : List NodeId) : List NodeId :=
  (net.walkFrom roots ((Walk.start net).seeAll boundary)).order.toList

/-- The gates in the cone of `root` above `leaves`, each after its fanins. The walk stops at
leaves and at terminals, and `root` is listed unless it is a leaf. -/
def cutGates (net : Network) (leaves : List NodeId) (root : NodeId) : List NodeId :=
  net.coneOrder (leaves ++ net.nodeIds.filter net.isTerminal) [root]

/-- Whether `target` is `root` or feeds it. -/
def reaches (net : Network) (root target : NodeId) : Bool :=
  (net.walkFrom [root] (Walk.start net)).seen[target]? == some true

/-- Whether `target` is `root` or lies in its transitive fanin. -/
def inTransitiveFanin (net : Network) (root target : NodeId) : Except Fault Bool := do
  if root = target then return true
  net.checkNodes [root]
  return net.reaches root target

/-- Whether every fanin of `n` is settled. -/
def faninsSettled (net : Network) (settled : Array Bool) (n : NodeId) : Bool :=
  (net.faninNodes n).all fun m => settled[m]? == some true

/-- Settles, in ascending order, every node whose fanins are settled. -/
def settleOnce (net : Network) (settled : Array Bool) : Array Bool :=
  net.nodeIds.foldl
    (fun settled n => if net.faninsSettled settled n then settled.setIfInBounds n true else settled)
    settled

/-- Settles nodes until a round settles no more, for at most `rounds` rounds. -/
def settle (net : Network) : Nat → Array Bool → Array Bool
  | 0, settled => settled
  | rounds + 1, settled =>
    let next := net.settleOnce settled
    if next.countP id = settled.countP id then settled else net.settle rounds next

/-- The nodes from which a fanin path leads into a cycle, in ascending order. A node is free of
cycles when all its fanins are, so none is left exactly when the network is acyclic. -/
def cycleNodes (net : Network) : List NodeId :=
  let settled := net.settle net.size (Array.replicate net.size false)
  net.nodeIds.filter fun n => settled[n]? == some false

end LogicSynthesis.Network
