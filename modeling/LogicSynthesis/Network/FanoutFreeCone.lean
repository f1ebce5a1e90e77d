import LogicSynthesis.Network.Basic

/-!
# Fanout-free cones

The cost of the logic that only one node needs. Walks use the scratch values as reference
counts. Releasing a node takes one reference from each of its fanins, and goes on with every gate
whose last reference this was. Acquiring a node is the reverse: it adds the references, and goes
on with every gate that had none.

## Main definitions

- `NodeCost` — what a gate costs
- `Network.release`, `Network.acquire` — dropping and restoring a node, with the cost of the
  gates concerned
- `Network.coneCost` — the cost of the cone that dies with a node
- `Network.initReferenceCounts` — sets every value to the fanout of its node

## Design notes

Releases and acquisitions terminate on every network, cyclic or not: a release uses up the
references that are there, and an acquisition the gates without references.
-/

namespace LogicSynthesis

/-- The cost of each gate, which is the same throughout a pass. So it must not read the values and
marks, which change while costs are added up, nor the fanouts, which change when gates are made. -/
abbrev NodeCost := NodeId → Nat

/-- Every gate costs one. -/
def unitCost : NodeCost := fun _ => 1

/-- Sums of costs stay below this number. -/
def costBound : Nat := 4294967296

/-- The sum of two costs, if it is in range. -/
def addCost (a b : Nat) : Except Fault Nat := do
  require (a + b < costBound) .overflow
  return a + b

/-- The sum of a list of numbers. -/
def tally : List Nat → Nat
  | [] => 0
  | n :: ns => n + tally ns

theorem tally_set {ns : List Nat} {i v : Nat} (h : i < ns.length) :
    tally (ns.set i v) + ns[i] = tally ns + v := by
  induction ns generalizing i with
  | nil => exact absurd h (Nat.not_lt_zero _)
  | cons n ns ih =>
    cases i with
    | zero => simp only [List.set_cons_zero, List.getElem_cons_zero, tally]; omega
    | succ i =>
      have := ih (Nat.lt_of_succ_lt_succ h)
      simp only [List.set_cons_succ, List.getElem_cons_succ, tally]
      omega

namespace Scratch

/-- All references that are there. -/
def references (s : Scratch) : Nat := tally s.values.toList

/-- The number of nodes without references. -/
def unreferenced (s : Scratch) : Nat := s.values.countP (· == 0)

theorem references_of_decrement {s s' : Scratch} {n v : Nat} (h : s.decrement n = .ok (v, s')) :
    s'.references + 1 = s.references := by
  unfold decrement value require at h
  cases hv : s.values[n]? with
  | none => simp only [hv, bind, Except.bind, reduceCtorEq] at h
  | some x =>
    by_cases hx : 0 < x
    · simp only [hv, bind, Except.bind, hx, decide_true, ↓reduceIte, pure, Except.pure,
        Except.ok.injEq, Prod.mk.injEq] at h
      obtain ⟨hlt, hget⟩ := Array.getElem?_eq_some_iff.mp hv
      have hset := @tally_set s.values.toList n (x - 1) hlt
      rw [← h.2]
      simp only [references, Array.toList_setIfInBounds]
      simp only [Array.getElem_toList, hget] at hset
      omega
    · simp only [hv, bind, Except.bind, hx, decide_false, Bool.false_eq_true, ↓reduceIte,
        reduceCtorEq] at h

theorem unreferenced_of_increment {s s' : Scratch} {n v : Nat}
    (h : s.increment n = .ok (v, s')) :
    s'.unreferenced + (if v = 0 then 1 else 0) = s.unreferenced := by
  unfold increment value require at h
  cases hv : s.values[n]? with
  | none => simp only [hv, bind, Except.bind, reduceCtorEq] at h
  | some x =>
    by_cases hx : x + 1 < valueBound
    · simp only [hv, bind, Except.bind, hx, decide_true, ↓reduceIte, pure, Except.pure,
        Except.ok.injEq, Prod.mk.injEq] at h
      obtain ⟨hlt, hget⟩ := Array.getElem?_eq_some_iff.mp hv
      obtain ⟨rfl, rfl⟩ := h
      have hpos : x = 0 → 0 < s.values.countP (· == 0) := fun h0 =>
        Array.countP_pos_iff.mpr ⟨x, hget ▸ Array.getElem_mem hlt, by simp only [h0, beq_self_eq_true]⟩
      simp only [unreferenced, Array.setIfInBounds, hlt, ↓reduceDIte, Array.countP_set, hget]
      by_cases h0 : x = 0
      · have := hpos h0
        subst h0
        simp only [beq_self_eq_true, ↓reduceIte, Nat.zero_add, Nat.reduceBEq, Bool.false_eq_true]
        omega
      · have h1 : (x == 0) = false := by simp only [beq_eq_false_iff_ne, ne_eq, h0, not_false_eq_true]
        have h2 : (x + 1 == 0) = false := rfl
        simp only [h0, h1, h2, Bool.false_eq_true, ↓reduceIte]
        omega
    · simp only [hv, bind, Except.bind, hx, decide_false, Bool.false_eq_true, ↓reduceIte,
        reduceCtorEq] at h

end Scratch

namespace Network

/-- The gates that wait to be processed, latest first, with the counts as they are now. -/
abbrev Worklist := List NodeId × Scratch

/-- Takes one reference from the driver of an edge. The driver joins the list when it is a gate
that loses its last reference. -/
def releaseEdge (net : Network) (state : Worklist) (s : Signal) : Except Fault Worklist := do
  let (pending, scratch) := state
  let (left, scratch) ← scratch.decrement s.node
  let joins := left == 0 && !net.isTerminal s.node
  return (if joins then s.node :: pending else pending, scratch)

/-- Adds one reference to the driver of an edge. The driver joins the list when it is a gate that
had none. -/
def acquireEdge (net : Network) (state : Worklist) (s : Signal) : Except Fault Worklist := do
  let (pending, scratch) := state
  let (former, scratch) ← scratch.increment s.node
  let joins := former == 0 && !net.isTerminal s.node
  return (if joins then s.node :: pending else pending, scratch)

theorem releaseEdge_measure {net : Network} {state next : Worklist} {s : Signal}
    (h : net.releaseEdge state s = .ok next) :
    next.1.length + next.2.references ≤ state.1.length + state.2.references := by
  obtain ⟨pending, scratch⟩ := state
  unfold releaseEdge at h
  cases hd : scratch.decrement s.node with
  | error f => simp only [hd, bind, Except.bind, reduceCtorEq] at h
  | ok r =>
    obtain ⟨left, rest⟩ := r
    simp only [hd, bind, Except.bind, pure, Except.pure, Except.ok.injEq] at h
    have := Scratch.references_of_decrement hd
    subst h
    cases hj : (left == 0 && !net.isTerminal s.node) <;>
      simp only [Bool.false_eq_true, ↓reduceIte, List.length_cons] <;> omega

theorem acquireEdge_measure {net : Network} {state next : Worklist} {s : Signal}
    (h : net.acquireEdge state s = .ok next) :
    next.1.length + next.2.unreferenced ≤ state.1.length + state.2.unreferenced := by
  obtain ⟨pending, scratch⟩ := state
  unfold acquireEdge at h
  cases hd : scratch.increment s.node with
  | error f => simp only [hd, bind, Except.bind, reduceCtorEq] at h
  | ok r =>
    obtain ⟨former, rest⟩ := r
    simp only [hd, bind, Except.bind, pure, Except.pure, Except.ok.injEq] at h
    have hu := Scratch.unreferenced_of_increment hd
    subst h
    cases hj : (former == 0 && !net.isTerminal s.node) with
    | false =>
      simp only [Bool.false_eq_true, ↓reduceIte]
      omega
    | true =>
      simp only [Bool.and_eq_true, beq_iff_eq] at hj
      simp only [hj.1, ↓reduceIte] at hu
      simp only [↓reduceIte, List.length_cons]
      omega

/-- A measure that no step increases is not increased by a fold. -/
theorem foldlM_measure {σ α : Type} (m : σ → Nat) (step : σ → α → Except Fault σ)
    (hstep : ∀ s s' a, step s a = .ok s' → m s' ≤ m s) {as : List α} {s s' : σ}
    (h : as.foldlM step s = .ok s') : m s' ≤ m s := by
  induction as generalizing s with
  | nil =>
    simp only [List.foldlM_nil, pure, Except.pure, Except.ok.injEq] at h
    exact h ▸ Nat.le_refl _
  | cons a as ih =>
    rw [List.foldlM_cons] at h
    cases ha : step s a with
    | error f => simp only [ha, bind, Except.bind, reduceCtorEq] at h
    | ok next =>
      simp only [ha, bind, Except.bind] at h
      exact Nat.le_trans (ih h) (hstep _ _ _ ha)

/-- Releases the gates on the list and those that lose their last reference meanwhile. -/
def releaseLoop (net : Network) (cost : NodeCost) (total : Nat) (state : Worklist) :
    Except Fault (Nat × Scratch) :=
  match state with
  | ([], scratch) => .ok (total, scratch)
  | (x :: rest, scratch) =>
    match addCost total (cost x), _ : (net.fanins x).foldlM net.releaseEdge (rest, scratch) with
    | .ok total, .ok next => releaseLoop net cost total next
    | .error fault, _ => .error fault
    | _, .error fault => .error fault
  termination_by state.1.length + state.2.references
  decreasing_by
    have := foldlM_measure (fun s : Worklist => s.1.length + s.2.references)
      net.releaseEdge (fun _ _ _ => releaseEdge_measure) ‹_›
    simp only [List.length_cons] at this ⊢
    omega

/-- Acquires the gates on the list and those that had no reference before, and tells whether
`target` is among them or among their fanins. -/
def acquireLoop (net : Network) (cost : NodeCost) (target : NodeId) (total : Nat) (found : Bool)
    (state : Worklist) : Except Fault ((Nat × Bool) × Scratch) :=
  match state with
  | ([], scratch) => .ok ((total, found), scratch)
  | (x :: rest, scratch) =>
    match addCost total (cost x), _ : (net.fanins x).foldlM net.acquireEdge (rest, scratch) with
    | .ok total, .ok next =>
      acquireLoop net cost target total
        (found || x == target || (net.faninNodes x).contains target) next
    | .error fault, _ => .error fault
    | _, .error fault => .error fault
  termination_by state.1.length + state.2.unreferenced
  decreasing_by
    have := foldlM_measure (fun s : Worklist => s.1.length + s.2.unreferenced)
      net.acquireEdge (fun _ _ _ => acquireEdge_measure) ‹_›
    simp only [List.length_cons] at this ⊢
    omega

/-- Drops `n` and every gate that no other node needs. Returns their cost. -/
def release (net : Network) (cost : NodeCost) (n : NodeId) : Except Fault (Nat × Network) := do
  if (← net.node n).kind.isTerminal then return (0, net)
  net.onScratch fun net scratch => net.releaseLoop cost 0 ([n], scratch)

/-- Restores `n` and every gate that comes into use with it. Returns their cost, and whether
`target` is one of these gates or a fanin of one. -/
def acquireContaining (net : Network) (cost : NodeCost) (n target : NodeId) :
    Except Fault ((Nat × Bool) × Network) := do
  if (← net.node n).kind.isTerminal then return ((0, false), net)
  net.onScratch fun net scratch => net.acquireLoop cost target 0 false ([n], scratch)

/-- Restores `n` and every gate that comes into use with it. Returns their cost. -/
def acquire (net : Network) (cost : NodeCost) (n : NodeId) : Except Fault (Nat × Network) := do
  let ((total, _), net) ← net.acquireContaining cost n n
  return (total, net)

/-- The cost of the gates that die with `n`. The values are as before afterwards. -/
def coneCost (net : Network) (cost : NodeCost) (n : NodeId) : Except Fault (Nat × Network) := do
  let (released, net) ← net.release cost n
  let (restored, net) ← net.acquire cost n
  require (released == restored) (.unbalancedCone n)
  return (released, net)

/-- Sets every value to the fanout of its node. -/
def initReferenceCounts (net : Network) : Except Fault Network := do
  require (net.nodes.all (·.fanout < Scratch.valueBound)) .overflow
  return net.withScratch { net.scratch with values := net.nodes.map Node.fanout }

end Network

end LogicSynthesis
