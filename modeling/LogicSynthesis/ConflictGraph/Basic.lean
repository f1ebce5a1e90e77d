import LogicSynthesis.Fault
import Std.Data.TreeSet

/-!
# Conflict graphs

A vertex is a candidate with its weight, and an edge joins two candidates that exclude each
other. Vertices are numbered in the order in which they are added. A removed vertex keeps its
number and its weight, and loses its edges.

## Main definitions

- `ConflictGraph` — weights, live vertices and adjacency
- `addVertex`, `addEdge`, `removeVertex` — the edits
- `takeWithNeighbors` — removes a vertex together with its neighbours
-/

namespace LogicSynthesis

/-- An undirected graph with weighted vertices, some of them removed. -/
structure ConflictGraph where
  weights : Array Nat := #[]
  alive : Array Bool := #[]
  adjacent : Array (Std.TreeSet Nat) := #[]
  numVertices : Nat := 0
  numEdges : Nat := 0

namespace ConflictGraph

/-- The graph without vertices. -/
def empty : ConflictGraph := {}

/-- The number of vertices ever added. -/
def capacity (g : ConflictGraph) : Nat := g.weights.size

/-- Adds a vertex and returns its number. -/
def addVertex (g : ConflictGraph) (weight : Nat) : Nat × ConflictGraph :=
  (g.weights.size,
    { g with
      weights := g.weights.push weight
      alive := g.alive.push true
      adjacent := g.adjacent.push ∅
      numVertices := g.numVertices + 1 })

/-- Whether `v` was added and not removed since. -/
def isLive (g : ConflictGraph) (v : Nat) : Bool := g.alive[v]? == some true

/-- The neighbours of a vertex. -/
def adjacency (g : ConflictGraph) (v : Nat) : Std.TreeSet Nat := (g.adjacent[v]?).getD ∅

/-- The neighbours of a vertex in ascending order. -/
def neighbors (g : ConflictGraph) (v : Nat) : List Nat := (g.adjacency v).toList

def degree (g : ConflictGraph) (v : Nat) : Nat := (g.adjacency v).size

def weight (g : ConflictGraph) (v : Nat) : Nat := (g.weights[v]?).getD 0

/-- Stops unless `v` was ever added. -/
def check (g : ConflictGraph) (v : Nat) : Except Fault Unit :=
  require (v < g.capacity) .missingEntry

def hasEdge (g : ConflictGraph) (v w : Nat) : Bool := (g.adjacency v).contains w

/-- Joins two vertices. A vertex is never joined to itself, and an edge that is there already is
not counted again. -/
def addEdge (g : ConflictGraph) (v w : Nat) : Except Fault ConflictGraph := do
  if v = w then return g
  g.check v
  if g.hasEdge v w then return g
  g.check w
  return { g with
    adjacent := (g.adjacent.modify v (·.insert w)).modify w (·.insert v)
    numEdges := g.numEdges + 1 }

/-- The graph without the live vertex `v` and its edges. -/
def without (g : ConflictGraph) (v : Nat) : ConflictGraph :=
  let former := g.neighbors v
  { g with
    alive := g.alive.setIfInBounds v false
    adjacent := former.foldl (fun adjacent w => adjacent.modify w (·.erase v))
      (g.adjacent.setIfInBounds v ∅)
    numVertices := g.numVertices - 1
    numEdges := g.numEdges - former.length }

/-- Removes a live vertex and its edges. -/
def removeVertex (g : ConflictGraph) (v : Nat) : Except Fault ConflictGraph := do
  g.check v
  require (g.isLive v) (.removedTwice v)
  return g.without v

/-- Removes a vertex and then, in ascending order, those that were its neighbours. -/
def takeWithNeighbors (g : ConflictGraph) (v : Nat) : Except Fault ConflictGraph := do
  (g.neighbors v).foldlM removeVertex (← g.removeVertex v)

/-- The edges, each with its lesser end first, in ascending order. -/
def edges (g : ConflictGraph) : List (Nat × Nat) :=
  (List.range g.capacity).flatMap fun v =>
    (g.neighbors v).filterMap fun w => if v < w then some (v, w) else none

/-- The number of live vertices, counted from their marks. -/
def liveCount (g : ConflictGraph) : Nat := g.alive.countP id

theorem liveCount_without {g : ConflictGraph} {v : Nat} (h : g.isLive v = true) :
    (g.without v).liveCount < g.liveCount := by
  have hv : g.alive[v]? = some true := by simpa [isLive] using h
  obtain ⟨hlt, hget⟩ := Array.getElem?_eq_some_iff.mp hv
  have hpos : 0 < g.alive.countP id :=
    Array.countP_pos_iff.mpr ⟨true, hget ▸ Array.getElem_mem hlt, rfl⟩
  simp only [liveCount, without, Array.setIfInBounds, hlt, ↓reduceDIte, Array.countP_set, hget,
    id, Bool.false_eq_true, ↓reduceIte]
  omega

theorem liveCount_of_removeVertex {g g' : ConflictGraph} {v : Nat}
    (h : g.removeVertex v = .ok g') : g'.liveCount < g.liveCount := by
  unfold removeVertex check require at h
  by_cases hc : v < g.capacity <;> by_cases hl : g.isLive v = true <;>
    simp [hc, hl, bind, Except.bind, pure, Except.pure] at h
  exact h ▸ liveCount_without hl

theorem liveCount_of_foldlM_removeVertex {vs : List Nat} {g g' : ConflictGraph}
    (h : vs.foldlM removeVertex g = .ok g') : g'.liveCount ≤ g.liveCount := by
  induction vs generalizing g with
  | nil => simp [pure, Except.pure] at h; simp [h]
  | cons v vs ih =>
    rw [List.foldlM_cons] at h
    cases hv : g.removeVertex v with
    | error f => simp [hv, bind, Except.bind] at h
    | ok next =>
      simp only [hv, bind, Except.bind] at h
      exact Nat.le_trans (ih h) (Nat.le_of_lt (liveCount_of_removeVertex hv))

theorem liveCount_of_takeWithNeighbors {g g' : ConflictGraph} {v : Nat}
    (h : g.takeWithNeighbors v = .ok g') : g'.liveCount < g.liveCount := by
  unfold takeWithNeighbors at h
  cases hv : g.removeVertex v with
  | error f => simp [hv, bind, Except.bind] at h
  | ok next =>
    simp only [hv, bind, Except.bind] at h
    exact Nat.lt_of_le_of_lt (liveCount_of_foldlM_removeVertex h) (liveCount_of_removeVertex hv)

end ConflictGraph

end LogicSynthesis
