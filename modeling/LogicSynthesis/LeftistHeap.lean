/-!
# Leftist heaps

A priority queue that hands out its greatest element first, for an order given by a Boolean
test. Every node is at least as great as the nodes below it, and the right spine of a subtree is
its shortest, so that `merge` walks few nodes.

## Main definitions

- `LeftistHeap` — the heap
- `LeftistHeap.insert`, `LeftistHeap.pop?` — adding an element, taking a greatest one
-/

namespace LogicSynthesis

/-- A binary tree whose nodes carry an element and the length of their right spine. -/
inductive LeftistHeap (α : Type) where
  | leaf
  | node (rank : Nat) (left : LeftistHeap α) (top : α) (right : LeftistHeap α)

namespace LeftistHeap

variable {α : Type}

/-- The number of elements. -/
def size : LeftistHeap α → Nat
  | leaf => 0
  | node _ left _ right => left.size + right.size + 1

def rank : LeftistHeap α → Nat
  | leaf => 0
  | node rank _ _ _ => rank

/-- A node over two subtrees, the one of the shorter right spine on the right. -/
def join (top : α) (a b : LeftistHeap α) : LeftistHeap α :=
  if b.rank ≤ a.rank then node (b.rank + 1) a top b else node (a.rank + 1) b top a

/-- The elements of two heaps in one. -/
def merge (le : α → α → Bool) : LeftistHeap α → LeftistHeap α → LeftistHeap α
  | leaf, b => b
  | a, leaf => a
  | node ra la ta ta', node rb lb tb tb' =>
    if le tb ta then join ta la (merge le ta' (node rb lb tb tb'))
    else join tb lb (merge le (node ra la ta ta') tb')
  termination_by a b => a.size + b.size
  decreasing_by all_goals simp only [size]; omega

def insert (le : α → α → Bool) (a : α) (heap : LeftistHeap α) : LeftistHeap α :=
  merge le (node 1 leaf a leaf) heap

/-- A greatest element and the heap without it. -/
def pop? (le : α → α → Bool) : LeftistHeap α → Option (α × LeftistHeap α)
  | leaf => none
  | node _ left top right => some (top, merge le left right)

def ofList (le : α → α → Bool) (xs : List α) : LeftistHeap α :=
  xs.foldl (fun heap x => heap.insert le x) leaf

theorem size_join (top : α) (a b : LeftistHeap α) :
    (join top a b).size = a.size + b.size + 1 := by
  unfold join
  split
  · simp only [size]
  · simp only [size, Nat.add_comm]

theorem size_merge (le : α → α → Bool) (a b : LeftistHeap α) :
    (merge le a b).size = a.size + b.size := by
  fun_induction merge le a b with
  | case1 => simp [size]
  | case2 => simp [size]
  | case3 ra la ta ta' rb lb tb tb' h ih => simp only [size_join, ih, size]; omega
  | case4 ra la ta ta' rb lb tb tb' h ih => simp only [size_join, ih, size]; omega

theorem size_insert (le : α → α → Bool) (a : α) (heap : LeftistHeap α) :
    (insert le a heap).size = heap.size + 1 := by
  simp only [insert, size_merge, size]
  omega

theorem size_of_pop? {le : α → α → Bool} {heap rest : LeftistHeap α} {top : α}
    (h : heap.pop? le = some (top, rest)) : rest.size < heap.size := by
  cases heap with
  | leaf => simp [pop?] at h
  | node r left a right =>
    simp only [pop?, Option.some.injEq, Prod.mk.injEq] at h
    rw [← h.2, size_merge]
    simp only [size]
    omega

end LeftistHeap

end LogicSynthesis
