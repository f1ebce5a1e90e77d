import LogicSynthesis.ConflictGraph.Selection
import LogicSynthesis.Proofs.Outcome
import Mathlib

/-!
# Conflict graphs

A conflict graph is symmetric and joins live vertices alone. Edits keep this, so a vertex that is
taken with its neighbours never meets one that is gone. What is left of a graph has the edges
between the vertices that are left.

## Main definitions

- `ConflictGraph.WellFormed` — the invariant
- `ConflictGraph.Joins` — a graph with more edges
- `ConflictGraph.Remnant` — what is left of a graph when some vertices are gone
- `ConflictGraph.Independent` — different live vertices, of which no two are joined

## Main statements

- `WellFormed.addVertex`, `addEdge_ends`, `Remnant.without` — the edits
- `takeWithNeighbors_ends` — taking a vertex with its neighbours
-/

namespace LogicSynthesis.ConflictGraph

variable {g : ConflictGraph} {permitted : Fault → Prop} {u v w : Nat}

/-- Live vertices are joined both ways, and never to themselves. -/
structure WellFormed (g : ConflictGraph) : Prop where
  alive : g.alive.size = g.capacity
  adjacent : g.adjacent.size = g.capacity
  live : ∀ v w, w ∈ g.adjacency v → g.isLive w = true
  symmetric : ∀ v w, w ∈ g.adjacency v → v ∈ g.adjacency w
  irreflexive : ∀ v, v ∉ g.adjacency v

theorem mem_neighbors : w ∈ g.neighbors v ↔ w ∈ g.adjacency v := Std.TreeSet.mem_toList

theorem nodup_neighbors (g : ConflictGraph) (v : Nat) : (g.neighbors v).Nodup := by
  refine (Std.TreeSet.distinct_toList (t := g.adjacency v)).imp ?_
  rintro a b hne rfl
  exact hne (Std.ReflCmp.compare_self)

theorem WellFormed.lt_of_isLive (h : g.WellFormed) (hv : g.isLive v = true) : v < g.capacity := by
  rw [isLive, beq_iff_eq] at hv
  rw [← h.alive]
  exact (Array.getElem?_eq_some_iff.mp hv).1

theorem wellFormed_empty : empty.WellFormed := by
  have hnone : ∀ v w, w ∉ empty.adjacency v := by
    intro v w
    rw [adjacency, empty, Array.getElem?_empty]
    exact Std.TreeSet.not_mem_emptyc
  exact ⟨rfl, rfl, fun v w hw => absurd hw (hnone v w), fun v w hw => absurd hw (hnone v w),
    fun v => hnone v v⟩

/-! ### Rows -/

/-- The neighbours that a table of rows gives to a vertex. -/
def row (rows : Array (Std.TreeSet Nat)) (u : Nat) : Std.TreeSet Nat := (rows[u]?).getD ∅

theorem mem_row_insert {rows : Array (Std.TreeSet Nat)} (hv : v < rows.size) (x : Nat) :
    w ∈ row (rows.modify v (·.insert x)) u ↔ (u = v ∧ w = x) ∨ w ∈ row rows u := by
  rw [row, row, Array.getElem?_modify]
  by_cases heq : v = u
  · subst heq
    rw [if_pos rfl, Array.getElem?_eq_getElem hv]
    rw [Option.map_some, Option.getD_some, Std.TreeSet.mem_insert,
      Std.LawfulEqCmp.compare_eq_iff_eq, eq_comm]
    simp
  · rw [if_neg heq]
    simp only [Ne.symm heq, false_and, false_or]

theorem mem_row_erase (rows : Array (Std.TreeSet Nat)) (v x : Nat) :
    w ∈ row (rows.modify v (·.erase x)) u ↔ w ∈ row rows u ∧ (u = v → w ≠ x) := by
  rw [row, row, Array.getElem?_modify]
  by_cases heq : v = u
  · subst heq
    rw [if_pos rfl]
    cases rows[v]? with
    | none => simp [Std.TreeSet.not_mem_emptyc]
    | some r =>
      rw [Option.map_some, Option.getD_some, Std.TreeSet.mem_erase, ne_eq,
        Std.LawfulEqCmp.compare_eq_iff_eq, and_comm, eq_comm]
      simp
  · rw [if_neg heq]
    simp only [Ne.symm heq, false_imp_iff, and_true]

theorem mem_row_foldl_erase (former : List Nat) (rows : Array (Std.TreeSet Nat)) (x : Nat) :
    w ∈ row (former.foldl (fun rows v => rows.modify v (·.erase x)) rows) u ↔
      w ∈ row rows u ∧ (u ∈ former → w ≠ x) := by
  induction former generalizing rows with
  | nil => simp
  | cons v former ih =>
    rw [List.foldl_cons, ih, mem_row_erase, List.mem_cons, or_imp, and_assoc]

theorem size_foldl_erase (former : List Nat) (rows : Array (Std.TreeSet Nat)) (x : Nat) :
    (former.foldl (fun rows v => rows.modify v (·.erase x)) rows).size = rows.size := by
  induction former generalizing rows with
  | nil => rfl
  | cons v former ih => rw [List.foldl_cons, ih, Array.size_modify]

/-! ### Adding -/

theorem isLive_addVertex (h : g.WellFormed) (weight : Nat) :
    (g.addVertex weight).2.isLive v = (decide (v = g.capacity) || g.isLive v) := by
  rw [isLive, isLive, addVertex, Array.getElem?_push, h.alive]
  by_cases heq : v = g.capacity
  · rw [if_pos heq, decide_eq_true heq]
    rfl
  · rw [if_neg heq, decide_eq_false heq, Bool.false_or]

/-- A new vertex has no neighbours. -/
theorem adjacency_addVertex (h : g.WellFormed) (weight v : Nat) :
    (g.addVertex weight).2.adjacency v = g.adjacency v := by
  rw [adjacency, adjacency, ConflictGraph.addVertex, Array.getElem?_push, h.adjacent]
  split
  · next heq =>
    rw [Array.getElem?_eq_none (h.adjacent.le.trans heq.ge)]
    rfl
  · rfl

theorem WellFormed.addVertex (h : g.WellFormed) (weight : Nat) :
    (g.addVertex weight).2.WellFormed := by
  have hrow := adjacency_addVertex h weight
  refine ⟨?_, ?_, ?_, ?_, ?_⟩
  · rw [ConflictGraph.addVertex, capacity, Array.size_push, Array.size_push, h.alive]
    rfl
  · rw [ConflictGraph.addVertex, capacity, Array.size_push, Array.size_push, h.adjacent]
    rfl
  · intro v w hw
    rw [hrow] at hw
    rw [isLive_addVertex h, h.live v w hw, Bool.or_true]
  · intro v w hw
    rw [hrow] at hw ⊢
    exact h.symmetric v w hw
  · intro v
    rw [hrow]
    exact h.irreflexive v

/-- Every two of the vertices. -/
def Among (vertices : List Nat) (a b : Nat) : Prop := a ≠ b ∧ a ∈ vertices ∧ b ∈ vertices

/-- `g'` is `g` with more edges. -/
structure Joins (g : ConflictGraph) (joined : Nat → Nat → Prop) (g' : ConflictGraph) : Prop where
  wellFormed : g'.WellFormed
  isLive : g'.isLive = g.isLive
  capacity : g'.capacity = g.capacity
  adjacency : ∀ a b, b ∈ g'.adjacency a ↔ b ∈ g.adjacency a ∨ joined a b

theorem Joins.refl (h : g.WellFormed) {joined : Nat → Nat → Prop}
    (hjoined : ∀ a b, joined a b → b ∈ g.adjacency a) : g.Joins joined g :=
  ⟨h, rfl, rfl, fun a b => (or_iff_left_of_imp (hjoined a b)).symm⟩

theorem Joins.congr {g' : ConflictGraph} {joined joined' : Nat → Nat → Prop}
    (h : g.Joins joined g') (hsame : ∀ a b, joined a b ↔ joined' a b) : g.Joins joined' g' :=
  ⟨h.wellFormed, h.isLive, h.capacity,
    fun a b => (h.adjacency a b).trans (or_congr_right (hsame a b))⟩

theorem Joins.trans {g' g'' : ConflictGraph} {joined joined' : Nat → Nat → Prop}
    (h : g.Joins joined g') (h' : g'.Joins joined' g'') :
    g.Joins (fun a b => joined a b ∨ joined' a b) g'' :=
  ⟨h'.wellFormed, h'.isLive.trans h.isLive, h'.capacity.trans h.capacity,
    fun a b => by rw [h'.adjacency, h.adjacency, or_assoc]⟩

theorem among_pair (hne : v ≠ w) {a b : Nat} :
    Among [v, w] a b ↔ a = v ∧ b = w ∨ a = w ∧ b = v := by
  rw [Among, List.mem_pair, List.mem_pair]
  constructor
  · rintro ⟨hab, rfl | rfl, rfl | rfl⟩
    · exact absurd rfl hab
    · exact .inl ⟨rfl, rfl⟩
    · exact .inr ⟨rfl, rfl⟩
    · exact absurd rfl hab
  · rintro (⟨rfl, rfl⟩ | ⟨rfl, rfl⟩)
    · exact ⟨hne, .inl rfl, .inr rfl⟩
    · exact ⟨hne.symm, .inr rfl, .inl rfl⟩

/-- Two different live vertices, each put into the row of the other. -/
theorem joins_insert (h : g.WellFormed) (hv : g.isLive v = true) (hw : g.isLive w = true)
    (hne : v ≠ w) (numEdges : Nat) :
    g.Joins (Among [v, w]) { g with
      adjacent := (g.adjacent.modify v (·.insert w)).modify w (·.insert v)
      numEdges } := by
  have hv' := (h.lt_of_isLive hv).trans_eq h.adjacent.symm
  have hw' := (h.lt_of_isLive hw).trans_eq h.adjacent.symm
  have hmem : ∀ a b, b ∈ row ((g.adjacent.modify v (·.insert w)).modify w (·.insert v)) a ↔
      a = v ∧ b = w ∨ a = w ∧ b = v ∨ b ∈ g.adjacency a := by
    intro a b
    rw [mem_row_insert (hw'.trans_eq Array.size_modify.symm), mem_row_insert hv', or_left_comm]
    rfl
  refine ⟨⟨h.alive, ?_, ?_, ?_, ?_⟩, rfl, rfl, fun a b => ?_⟩
  · rw [Array.size_modify, Array.size_modify]
    exact h.adjacent
  · intro a b hb
    rcases (hmem a b).mp hb with ⟨-, rfl⟩ | ⟨-, rfl⟩ | hb
    · exact hw
    · exact hv
    · exact h.live a b hb
  · intro a b hb
    apply (hmem b a).mpr
    rcases (hmem a b).mp hb with ⟨rfl, rfl⟩ | ⟨rfl, rfl⟩ | hb
    · exact .inr (.inl ⟨rfl, rfl⟩)
    · exact .inl ⟨rfl, rfl⟩
    · exact .inr (.inr (h.symmetric a b hb))
  · intro a ha
    rcases (hmem a a).mp ha with ⟨rfl, rfl⟩ | ⟨rfl, rfl⟩ | ha
    · exact hne rfl
    · exact hne rfl
    · exact h.irreflexive a ha
  · rw [among_pair hne, or_comm, or_assoc]
    exact hmem a b

/-- Joining two live vertices. -/
theorem addEdge_ends (h : g.WellFormed) (hv : g.isLive v = true) (hw : g.isLive w = true) :
    Ends permitted (g.addEdge v w) (g.Joins (Among [v, w])) := by
  unfold addEdge
  split
  · next heq =>
    subst heq
    refine .refl h ?_
    rintro a b ⟨hne, ha, hb⟩
    rw [List.mem_pair, or_self] at ha hb
    exact absurd (ha.trans hb.symm) hne
  · next hne =>
    rw [check, require_of (decide_eq_true (h.lt_of_isLive hv)), ok_bind]
    split
    · next hedge =>
      have hedge : w ∈ g.adjacency v := hedge
      refine .refl h fun a b hjoined => ?_
      rcases (among_pair hne).mp hjoined with ⟨rfl, rfl⟩ | ⟨rfl, rfl⟩
      · exact hedge
      · exact h.symmetric _ _ hedge
    · rw [check, require_of (decide_eq_true (h.lt_of_isLive hw)), ok_bind]
      exact joins_insert h hv hw hne _

/-! ### Removing -/

theorem isLive_without : (g.without v).isLive w = (decide (w ≠ v) && g.isLive w) := by
  rw [isLive, isLive, without, Array.getElem?_setIfInBounds]
  by_cases heq : v = w
  · subst heq
    rw [if_pos rfl]
    split <;> simp
  · rw [if_neg heq, decide_eq_true (Ne.symm heq), Bool.true_and]

theorem mem_adjacency_without (h : g.WellFormed) :
    w ∈ (g.without v).adjacency u ↔ w ∈ g.adjacency u ∧ u ≠ v ∧ w ≠ v := by
  have hrow : w ∈ row (g.adjacent.setIfInBounds v ∅) u ↔ w ∈ g.adjacency u ∧ u ≠ v := by
    rw [row, Array.getElem?_setIfInBounds]
    by_cases heq : v = u
    · subst heq
      rw [if_pos rfl]
      split <;> simp [Std.TreeSet.not_mem_emptyc]
    · rw [if_neg heq]
      simp [adjacency, Ne.symm heq]
  refine (mem_row_foldl_erase (g.neighbors v) _ v).trans ?_
  rw [hrow, mem_neighbors, and_assoc]
  refine and_congr_right fun hw => and_congr_right fun _ => ?_
  constructor
  · rintro hne rfl
    exact hne (h.symmetric u w hw) rfl
  · exact fun hne _ => hne

theorem WellFormed.without (h : g.WellFormed) (v : Nat) : (g.without v).WellFormed := by
  refine ⟨?_, ?_, ?_, ?_, ?_⟩
  · exact Array.size_setIfInBounds.trans h.alive
  · exact ((size_foldl_erase _ _ _).trans Array.size_setIfInBounds).trans h.adjacent
  · intro a b hb
    obtain ⟨hb, -, hne⟩ := (mem_adjacency_without h).mp hb
    rw [isLive_without, decide_eq_true hne, h.live a b hb]
    rfl
  · intro a b hb
    obtain ⟨hb, hne, hne'⟩ := (mem_adjacency_without h).mp hb
    exact (mem_adjacency_without h).mpr ⟨h.symmetric a b hb, hne', hne⟩
  · exact fun a ha => h.irreflexive a ((mem_adjacency_without h).mp ha).1

theorem removeVertex_eq (h : g.WellFormed) (hv : g.isLive v = true) :
    g.removeVertex v = .ok (g.without v) := by
  rw [removeVertex, check, require_of (decide_eq_true (h.lt_of_isLive hv)), ok_bind,
    require_of hv]
  rfl

/-- What is left of `g` when the vertices of `gone` are removed. -/
structure Remnant (g : ConflictGraph) (gone : List Nat) (g' : ConflictGraph) : Prop where
  wellFormed : g'.WellFormed
  isLive : ∀ w, g'.isLive w = true ↔ g.isLive w = true ∧ w ∉ gone
  adjacency : ∀ a b, b ∈ g'.adjacency a ↔
    b ∈ g.adjacency a ∧ g'.isLive a = true ∧ g'.isLive b = true

theorem Remnant.refl (h : g.WellFormed) : g.Remnant [] g := by
  refine ⟨h, fun w => by simp, fun a b => ?_⟩
  rw [iff_self_and]
  exact fun hb => ⟨h.live b a (h.symmetric a b hb), h.live a b hb⟩

theorem Remnant.without {g' : ConflictGraph} {gone : List Nat} (h : g.Remnant gone g') (v : Nat) :
    g.Remnant (gone ++ [v]) (g'.without v) := by
  refine ⟨h.wellFormed.without v, ?_, ?_⟩
  · intro w
    rw [isLive_without, Bool.and_eq_true, decide_eq_true_iff, h.isLive, List.mem_append,
      List.mem_singleton, not_or]
    tauto
  · intro a b
    rw [mem_adjacency_without h.wellFormed, h.adjacency, isLive_without, isLive_without,
      Bool.and_eq_true, Bool.and_eq_true, decide_eq_true_iff, decide_eq_true_iff]
    tauto

/-- The neighbours of a vertex that is taken are there until their turn comes. -/
theorem takeWithNeighbors_ends (h : g.WellFormed) (hv : g.isLive v = true) :
    Ends permitted (g.takeWithNeighbors v) (g.Remnant (v :: g.neighbors v)) := by
  rw [takeWithNeighbors, removeVertex_eq h hv, ok_bind]
  refine Ends.foldlM_prefix (fun before => g.Remnant (v :: before)) ((Remnant.refl h).without v) ?_
  intro before w after g' heq hleft
  have hnodup := g.nodup_neighbors v
  rw [heq, List.nodup_append] at hnodup
  have hmem : w ∈ g.adjacency v := by
    rw [← mem_neighbors, heq]
    exact List.mem_append_right _ List.mem_cons_self
  -- No neighbour was removed before its turn: it is not the vertex, and it is listed once.
  have hout : w ∉ v :: before := by
    rw [List.mem_cons, not_or]
    constructor
    · rintro rfl
      exact h.irreflexive w hmem
    · exact fun hw => hnodup.2.2 w hw w List.mem_cons_self rfl
  rw [removeVertex_eq hleft.wellFormed ((hleft.isLive w).mpr ⟨h.live v w hmem, hout⟩)]
  exact hleft.without w

/-- Different live vertices, of which no two are joined. -/
structure Independent (g : ConflictGraph) (chosen : List Nat) : Prop where
  nodup : chosen.Nodup
  live : ∀ v ∈ chosen, g.isLive v = true
  apart : ∀ v ∈ chosen, ∀ w ∈ chosen, w ∉ g.adjacency v

end LogicSynthesis.ConflictGraph
