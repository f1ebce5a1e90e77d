import LogicSynthesis.ConflictGraph.Basic
import LogicSynthesis.LeftistHeap

/-!
# Independent sets

Two ways to choose pairwise compatible vertices. Each choice removes the chosen vertex together
with its neighbours, and choosing goes on until no vertex is left.

## Main definitions

- `Rank` — a vertex with what it is chosen by: weight per degree plus one, then degree
- `gwmin` — takes the vertex of the best rank first
- `maximal` — takes the vertices in their order

## Design notes

`gwmin` keeps ranks in a heap and never updates an entry in place. A vertex whose degree drops
is entered again, and an entry that no longer states the degree of a live vertex is passed over.
Ranks are compared by cross-multiplication, so equal ratios are recognised exactly.
-/

namespace LogicSynthesis

/-- A vertex with its weight and its degree at the time of the entry. -/
structure Rank where
  weight : Nat
  degree : Nat
  vertex : Nat
  deriving DecidableEq, Repr

namespace Rank

/-- Compares `weight / (degree + 1)`, then the degree, and prefers the earlier vertex. -/
def order (a b : Rank) : Ordering :=
  (compare (a.weight * (b.degree + 1)) (b.weight * (a.degree + 1))).then
    ((compare a.degree b.degree).then (compare b.vertex a.vertex))

def le (a b : Rank) : Bool := (a.order b).isLE

end Rank

namespace ConflictGraph

def rankOf (g : ConflictGraph) (v : Nat) : Rank := ⟨g.weight v, g.degree v, v⟩

/-- The ratio that ranks a vertex, as a floating-point number. -/
def ratio (g : ConflictGraph) (v : Nat) : Float :=
  Float.ofNat (g.weight v) / Float.ofNat (g.degree v + 1)

/-- The live vertices in ascending order. -/
def liveVertices (g : ConflictGraph) : List Nat := (List.range g.capacity).filter g.isLive

/-- Whether an entry states the present degree of a live vertex. -/
def isCurrent (g : ConflictGraph) (r : Rank) : Bool :=
  g.isLive r.vertex && g.degree r.vertex == r.degree

/-- The neighbours of the neighbours of a vertex: those that lose degree when it is taken. -/
def secondNeighbors (g : ConflictGraph) (v : Nat) : List Nat :=
  ((g.neighbors v).foldl
    (fun found w => (g.neighbors w).foldl (fun found u => found.insert u) found)
    (∅ : Std.TreeSet Nat)).toList

/-- Enters the live ones of `vertices` with their present ranks. -/
def enter (g : ConflictGraph) (vertices : List Nat) (heap : LeftistHeap Rank) :
    LeftistHeap Rank :=
  (vertices.filter g.isLive).foldl (fun heap u => heap.insert Rank.le (g.rankOf u)) heap

/-- Takes vertices in the order of the heap until it is empty. The chosen vertices come last
first. -/
def gwminLoop (g : ConflictGraph) (heap : LeftistHeap Rank) (chosen : List Nat) :
    Except Fault (List Nat × ConflictGraph) :=
  match _ : heap.pop? Rank.le with
  | none => .ok (chosen, g)
  | some (top, rest) =>
    if g.isCurrent top then
      match _ : g.takeWithNeighbors top.vertex with
      | .error fault => .error fault
      | .ok next =>
        gwminLoop next (next.enter (g.secondNeighbors top.vertex) rest) (top.vertex :: chosen)
    else gwminLoop g rest chosen
  termination_by (g.liveCount, heap.size)
  decreasing_by
    · exact Prod.Lex.left _ _ (liveCount_of_takeWithNeighbors ‹_›)
    · exact Prod.Lex.right _ (LeftistHeap.size_of_pop? ‹_›)

/-- Chooses vertices by rank and returns them in the order of their choice, with the graph that
is left. -/
def gwmin (g : ConflictGraph) : Except Fault (List Nat × ConflictGraph) := do
  let heap := LeftistHeap.ofList Rank.le (g.liveVertices.map g.rankOf)
  let (chosen, rest) ← g.gwminLoop heap []
  return (chosen.reverse, rest)

/-- Takes `v` with its neighbours if it is still there. -/
def takeIfLive (state : List Nat × ConflictGraph) (v : Nat) :
    Except Fault (List Nat × ConflictGraph) :=
  let (chosen, g) := state
  if g.isLive v then (g.takeWithNeighbors v).map fun next => (v :: chosen, next)
  else .ok state

/-- Chooses vertices in their order and returns them with the graph that is left. -/
def maximal (g : ConflictGraph) : Except Fault (List Nat × ConflictGraph) := do
  let (chosen, rest) ← (List.range g.capacity).foldlM takeIfLive ([], g)
  return (chosen.reverse, rest)

end ConflictGraph

end LogicSynthesis
