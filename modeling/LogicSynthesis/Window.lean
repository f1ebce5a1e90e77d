import LogicSynthesis.Network.Basic
import LogicSynthesis.Settings

/-!
# Reconvergence-driven windows

A window separates some pivots from the inputs of the network by few nodes. It starts at the
pivots and moves towards the inputs. The next leaf to be replaced by its fanins is the one that
adds the fewest leaves, and the window stops where a replacement would exceed the bound.

## Main definitions

- `Network.expansionCost` — what replacing a leaf adds to the window
- `Network.window` — the leaves at which the walk ends

## Design notes

The walk marks the nodes that it meets, so a leaf that was replaced never returns. Every
replacement takes one leaf away and turns fresh nodes into leaves, so the leaves and the fresh
nodes together become fewer. Marks of former walks are told apart by the number of the walk, so
there is no window when the numbers are used up.
-/

namespace LogicSynthesis

/-- The largest number of leaves for which room can be made. -/
def windowBound : Nat := 1152921504606846976

namespace Scratch

/-- The number of nodes that the current walk has not met. -/
def freshCount (s : Scratch) : Nat := s.marks.countP (· != s.walk)

theorem freshCount_visit {s : Scratch} {n : NodeId} (h : s.isFresh n = true) :
    (s.visit n).freshCount + 1 = s.freshCount := by
  unfold isFresh at h
  cases hm : s.marks[n]? with
  | none => simp only [hm, Bool.false_eq_true] at h
  | some m =>
    simp only [hm] at h
    obtain ⟨hlt, hget⟩ := Array.getElem?_eq_some_iff.mp hm
    have hpos : 0 < s.marks.countP (· != s.walk) :=
      Array.countP_pos_iff.mpr ⟨m, hget ▸ Array.getElem_mem hlt, h⟩
    simp only [freshCount, visit, Array.setIfInBounds, hlt, ↓reduceDIte, Array.countP_set, hget,
      h, ↓reduceIte, bne_self_eq_false, Bool.false_eq_true]
    omega

end Scratch

namespace Network

/-- Leaves in their order, with the marks as they are now. -/
abbrev Frontier := List NodeId × Scratch

/-- Whether replacing a leaf makes `n` a leaf: constants never are. -/
def joinsFrontier (net : Network) (scratch : Scratch) (n : NodeId) : Bool :=
  scratch.isFresh n && !net.isConstant n

/-- The change in the number of leaves when `n` gives way to its fanins. -/
def expansionCost (net : Network) (scratch : Scratch) (n : NodeId) : Int :=
  ((net.faninNodes n).countP (net.joinsFrontier scratch) : Int) - 1

/-- Leaves that cannot be replaced come last; the others are ordered by cost. -/
def leafOrder (net : Network) (scratch : Scratch) (a b : NodeId) : Bool :=
  match net.isTerminal a, net.isTerminal b with
  | false, true => true
  | true, false => false
  | _, _ => net.expansionCost scratch a ≤ net.expansionCost scratch b

/-- The leaves with the best to replace first. Equally good leaves keep their order. -/
def sortLeaves (net : Network) (scratch : Scratch) (leaves : List NodeId) : List NodeId :=
  leaves.mergeSort (net.leafOrder scratch)

/-- Makes `n` a leaf if it is fresh and no constant. -/
def addLeaf (net : Network) (state : Frontier) (n : NodeId) : Frontier :=
  let (leaves, scratch) := state
  if net.joinsFrontier scratch n then (leaves ++ [n], scratch.visit n) else (leaves, scratch)

theorem addLeaf_measure (net : Network) (state : Frontier) (n : NodeId) :
    (net.addLeaf state n).1.length + (net.addLeaf state n).2.freshCount =
      state.1.length + state.2.freshCount := by
  obtain ⟨leaves, scratch⟩ := state
  unfold addLeaf
  cases hj : net.joinsFrontier scratch n with
  | false => simp only [hj, Bool.false_eq_true, ↓reduceIte]
  | true =>
    have hf : scratch.isFresh n = true := by
      simp only [joinsFrontier, Bool.and_eq_true] at hj
      exact hj.1
    have := Scratch.freshCount_visit hf
    simp only [hj, ↓reduceIte, List.length_append, List.length_cons, List.length_nil]
    omega

theorem foldl_addLeaf_measure (net : Network) (ns : List NodeId) (state : Frontier) :
    (ns.foldl net.addLeaf state).1.length + (ns.foldl net.addLeaf state).2.freshCount =
      state.1.length + state.2.freshCount := by
  induction ns generalizing state with
  | nil => rfl
  | cons n ns ih => rw [List.foldl_cons, ih, addLeaf_measure]

/-- Replaces leaves as long as the bound admits it. -/
def growWindow (net : Network) (bound : Nat) (state : Frontier) : Except Fault Frontier :=
  let (leaves, scratch) := state
  if bound < leaves.length then .error (.cutTooLarge leaves.length bound)
  else
    match _ : net.sortLeaves scratch leaves with
    | [] => .ok ([], scratch)
    | n :: rest =>
      if net.isTerminal n ∨
          (bound : Int) < (rest.length + 1 : Nat) + net.expansionCost scratch n then
        .ok (n :: rest, scratch)
      else growWindow net bound ((net.faninNodes n).foldl net.addLeaf (rest, scratch))
  termination_by state.1.length + state.2.freshCount
  decreasing_by
    rw [foldl_addLeaf_measure]
    have hlen := congrArg List.length ‹net.sortLeaves scratch leaves = n :: rest›
    simp only [sortLeaves, List.length_mergeSort, List.length_cons] at hlen
    simp only
    omega

/-- Marks a pivot and makes it a leaf, unless it was marked before. -/
def addPivot (state : Frontier) (n : NodeId) : Except Fault Frontier := do
  let (leaves, scratch) := state
  if (← scratch.mark n) = scratch.walk then return (leaves, scratch)
  return (leaves ++ [n], scratch.visit n)

/-- The leaves of a window for `pivots`. -/
def window (net : Network) (pivots : List NodeId) (settings : WindowSettings) :
    Except Fault (List NodeId × Network) := do
  require (!pivots.isEmpty) .emptyPivots
  require (settings.cutSize < windowBound) .overflow
  net.onScratch fun net scratch => do
    net.growWindow settings.cutSize (← pivots.foldlM addPivot ([], ← scratch.beginWalk))

end Network

end LogicSynthesis
