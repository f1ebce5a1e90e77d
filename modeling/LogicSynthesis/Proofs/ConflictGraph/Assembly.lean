import LogicSynthesis.Proofs.ConflictGraph

/-!
# Conflict graphs as they are assembled

A conflict graph is assembled by adding vertices, joining live vertices and removing vertices, in
any order. Its counters are kept step by step and never worked out anew, yet they are exact: one
counts the live vertices and the other the pairs of live vertices that are joined.

## Main definitions

- `ConflictGraph.Assembled` — the graphs that can be assembled
- `ConflictGraph.liveSet`, `ConflictGraph.livePairs` — what the two counters count
- `ConflictGraph.Counted` — both counters are exact
- `ConflictGraph.star` — a small assembled graph

## Main statements

- `Assembled.wellFormed`, `Assembled.counted` — what holds of every assembled graph
- `takeWithNeighbors_keeps` — taking a vertex keeps what removing one keeps
-/

namespace LogicSynthesis.ConflictGraph

variable {g g' : ConflictGraph} {u v w : Nat}

/-- What a user makes of the empty graph. Joining two vertices that are joined already and joining
a vertex to itself are permitted; removing a vertex that is gone has no result. -/
inductive Assembled : ConflictGraph → Prop
  | empty : Assembled .empty
  | addVertex {g : ConflictGraph} (former : Assembled g) (weight : Nat) :
      Assembled (g.addVertex weight).2
  | addEdge {g g' : ConflictGraph} {v w : Nat} (former : Assembled g) (hv : g.isLive v = true)
      (hw : g.isLive w = true) (hadd : g.addEdge v w = .ok g') : Assembled g'
  | removeVertex {g g' : ConflictGraph} {v : Nat} (former : Assembled g)
      (hremove : g.removeVertex v = .ok g') : Assembled g'

/-- The live vertices. -/
def liveSet (g : ConflictGraph) : Finset Nat := {v ∈ Finset.range g.capacity | g.isLive v}

/-- The unordered pairs of live vertices that are joined. -/
def livePairs (g : ConflictGraph) : Finset (Sym2 Nat) :=
  {p ∈ g.liveSet ×ˢ g.liveSet | g.hasEdge p.1 p.2}.image fun p => s(p.1, p.2)

/-- Both counters are exact. -/
structure Counted (g : ConflictGraph) : Prop where
  vertices : g.numVertices = g.liveSet.card
  edges : g.numEdges = g.livePairs.card

theorem hasEdge_iff : g.hasEdge v w = true ↔ w ∈ g.adjacency v := Std.TreeSet.mem_iff_contains.symm

/-! ### Removing -/

/-- A vertex that is removed was live. -/
theorem of_removeVertex (h : g.removeVertex v = .ok g') : g.isLive v = true ∧ g' = g.without v := by
  obtain ⟨u, -, h⟩ := bind_eq_ok h
  obtain ⟨u, hlive, h⟩ := bind_eq_ok h
  exact ⟨require_eq_ok hlive, (Except.ok.inj h).symm⟩

/-- Whatever the removal of a live vertex keeps, taking a vertex with its neighbours keeps. -/
theorem takeWithNeighbors_keeps {motive : ConflictGraph → Prop}
    (hstep : ∀ g g' v, g.removeVertex v = .ok g' → motive g → motive g') (h : motive g)
    (htake : g.takeWithNeighbors v = .ok g') : motive g' := by
  obtain ⟨first, hfirst, hrest⟩ := bind_eq_ok htake
  have hloop : Ends Anything ((g.neighbors v).foldlM removeVertex first) motive := by
    refine Ends.foldlM motive (hstep g first v hfirst h) fun w _ g hg => ?_
    exact ends_anything_iff.mpr fun next hnext => hstep g next w hnext hg
  exact hloop.post_of_eq hrest

/-! ### The invariant -/

theorem Assembled.wellFormed (h : g.Assembled) : g.WellFormed := by
  induction h with
  | empty => exact wellFormed_empty
  | addVertex _ weight ih => exact ih.addVertex weight
  | addEdge _ hv hw hadd ih =>
    exact ((@addEdge_ends _ Anything _ _ ih hv hw).post_of_eq hadd).wellFormed
  | removeVertex _ hremove ih =>
    obtain ⟨-, rfl⟩ := of_removeVertex hremove
    exact ih.without _

theorem WellFormed.mem_liveSet (h : g.WellFormed) : v ∈ g.liveSet ↔ g.isLive v = true := by
  rw [liveSet, Finset.mem_filter, Finset.mem_range]
  exact and_iff_right_of_imp h.lt_of_isLive

/-- A pair is joined in the one order exactly if it is in the other. -/
theorem WellFormed.mem_livePairs (h : g.WellFormed) :
    s(v, w) ∈ g.livePairs ↔ w ∈ g.adjacency v := by
  rw [livePairs, Finset.mem_image]
  constructor
  · rintro ⟨⟨a, b⟩, hp, heq⟩
    have hedge := hasEdge_iff.mp (Finset.mem_filter.mp hp).2
    rcases Sym2.eq_iff.mp heq with ⟨rfl, rfl⟩ | ⟨rfl, rfl⟩
    · exact hedge
    · exact h.symmetric _ _ hedge
  · intro hedge
    refine ⟨(v, w), Finset.mem_filter.mpr ⟨Finset.mem_product.mpr ⟨?_, ?_⟩, ?_⟩, rfl⟩
    · exact h.mem_liveSet.mpr (h.live w v (h.symmetric v w hedge))
    · exact h.mem_liveSet.mpr (h.live v w hedge)
    · exact hasEdge_iff.mpr hedge

/-- A vertex has as many neighbours as it has pairs. -/
theorem card_pairs_at (g : ConflictGraph) (v : Nat) :
    ((g.neighbors v).toFinset.image fun w => s(v, w)).card = (g.neighbors v).length := by
  rw [Finset.card_image_of_injective _ fun _ _ => Sym2.congr_right.mp,
    List.toFinset_card_of_nodup (g.nodup_neighbors v)]

theorem Counted.addVertex (hwf : g.WellFormed) (h : g.Counted) (weight : Nat) :
    (g.addVertex weight).2.Counted := by
  have hnext := hwf.addVertex weight
  have hfresh : g.capacity ∉ g.liveSet := fun hmem =>
    lt_irrefl _ (Finset.mem_range.mp (Finset.mem_filter.mp hmem).1)
  have hlive : (g.addVertex weight).2.liveSet = insert g.capacity g.liveSet := by
    ext u
    rw [hnext.mem_liveSet, isLive_addVertex hwf, Bool.or_eq_true, decide_eq_true_iff,
      Finset.mem_insert, hwf.mem_liveSet]
  have hpairs : (g.addVertex weight).2.livePairs = g.livePairs := by
    refine Finset.ext (Sym2.ind fun a b => ?_)
    rw [hnext.mem_livePairs, hwf.mem_livePairs, adjacency_addVertex hwf]
  constructor
  · rw [hlive, Finset.card_insert_of_notMem hfresh, ← h.vertices]
    rfl
  · rw [hpairs, ← h.edges]
    rfl

theorem Counted.addEdge (hwf : g.WellFormed) (h : g.Counted) (hv : g.isLive v = true)
    (hw : g.isLive w = true) (hadd : g.addEdge v w = .ok g') : g'.Counted := by
  have hjoins := (@addEdge_ends _ Anything _ _ hwf hv hw).post_of_eq hadd
  have hlive : g'.liveSet = g.liveSet := by
    rw [liveSet, liveSet, hjoins.capacity, hjoins.isLive]
  have hpairs : ∀ a b, s(a, b) ∈ g'.livePairs ↔ s(a, b) ∈ g.livePairs ∨ Among [v, w] a b := by
    intro a b
    rw [hjoins.wellFormed.mem_livePairs, hwf.mem_livePairs, hjoins.adjacency]
  unfold ConflictGraph.addEdge at hadd
  split at hadd
  · cases hadd
    exact h
  · next hne =>
    obtain ⟨_, -, hadd⟩ := bind_eq_ok hadd
    split at hadd
    · cases hadd
      exact h
    · next hedge =>
      -- The pair was not there, so the new graph has one pair more.
      obtain ⟨_, -, hadd⟩ := bind_eq_ok hadd
      have hinsert : g'.livePairs = insert s(v, w) g.livePairs := by
        refine Finset.ext (Sym2.ind fun a b => ?_)
        rw [hpairs, Finset.mem_insert, among_pair hne, Sym2.eq_iff, or_comm]
      have hfresh : s(v, w) ∉ g.livePairs := fun hmem =>
        hedge (hasEdge_iff.mpr (hwf.mem_livePairs.mp hmem))
      have hcounts : g'.numVertices = g.numVertices ∧ g'.numEdges = g.numEdges + 1 := by
        rw [← Except.ok.inj hadd]
        exact ⟨rfl, rfl⟩
      constructor
      · rw [hlive, hcounts.1, h.vertices]
      · rw [hinsert, Finset.card_insert_of_notMem hfresh, hcounts.2, h.edges]

/-- Each pair of a removed vertex was counted, so no counter falls below zero. -/
theorem Counted.without (hwf : g.WellFormed) (h : g.Counted) (hv : g.isLive v = true) :
    (g.without v).Counted := by
  have hnext := hwf.without v
  have hlive : (g.without v).liveSet = g.liveSet.erase v := by
    ext u
    rw [hnext.mem_liveSet, isLive_without, Bool.and_eq_true, decide_eq_true_iff, Finset.mem_erase,
      hwf.mem_liveSet]
  have hsub : (g.neighbors v).toFinset.image (fun w => s(v, w)) ⊆ g.livePairs := by
    intro e he
    obtain ⟨w, hw, rfl⟩ := Finset.mem_image.mp he
    exact hwf.mem_livePairs.mpr (mem_neighbors.mp (List.mem_toFinset.mp hw))
  have hpairs : (g.without v).livePairs =
      g.livePairs \ (g.neighbors v).toFinset.image fun w => s(v, w) := by
    refine Finset.ext (Sym2.ind fun a b => ?_)
    rw [hnext.mem_livePairs, mem_adjacency_without hwf, Finset.mem_sdiff, hwf.mem_livePairs,
      Finset.mem_image]
    refine and_congr_right fun hedge => ?_
    constructor
    · rintro ⟨hne, hne'⟩ ⟨w, -, heq⟩
      rcases Sym2.eq_iff.mp heq with ⟨rfl, -⟩ | ⟨rfl, -⟩
      · exact hne rfl
      · exact hne' rfl
    · have hmem : ∀ w, w ∈ g.adjacency v → ∃ w' ∈ (g.neighbors v).toFinset, s(v, w') = s(v, w) :=
        fun w hw => ⟨w, List.mem_toFinset.mpr (mem_neighbors.mpr hw), rfl⟩
      intro hnot
      constructor
      · rintro rfl
        exact hnot (hmem b hedge)
      · rintro rfl
        rw [Sym2.eq_swap] at hnot
        exact hnot (hmem a (hwf.symmetric a b hedge))
  constructor
  · rw [hlive, Finset.card_erase_of_mem (hwf.mem_liveSet.mpr hv), ← h.vertices]
    rfl
  · rw [hpairs, Finset.card_sdiff_of_subset hsub, card_pairs_at, ← h.edges]
    rfl

theorem Assembled.counted (h : g.Assembled) : g.Counted := by
  induction h with
  | empty => exact ⟨rfl, rfl⟩
  | addVertex former weight ih => exact ih.addVertex former.wellFormed weight
  | addEdge former hv hw hadd ih => exact ih.addEdge former.wellFormed hv hw hadd
  | removeVertex former hremove ih =>
    obtain ⟨hlive, rfl⟩ := of_removeVertex hremove
    exact ih.without former.wellFormed hlive

/-! ### A sample -/

/-- The graph with two live vertices joined. -/
def joined (g : ConflictGraph) (v w : Nat) : ConflictGraph :=
  if g.isLive v && g.isLive w then ((g.addEdge v w).toOption).getD g else g

theorem Assembled.joined (h : g.Assembled) (v w : Nat) : (g.joined v w).Assembled := by
  unfold ConflictGraph.joined
  split
  · next hlive =>
    rw [Bool.and_eq_true] at hlive
    cases hadd : g.addEdge v w with
    | error fault => exact h
    | ok g' => exact h.addEdge hlive.1 hlive.2 hadd
  · exact h

/-- A vertex of weight four that is joined to three others, a vertex apart, and one that was joined
to the first and is gone. The first pair is joined twice, and a vertex to itself. -/
def star : ConflictGraph :=
  let points := [4, 1, 1, 1, 1, 9].foldl
    (fun (g : ConflictGraph) weight => (g.addVertex weight).2) empty
  let edges := [(0, 1), (0, 2), (0, 3), (5, 0), (1, 0), (2, 2)]
  (edges.foldl (fun (g : ConflictGraph) (p : Nat × Nat) => g.joined p.1 p.2) points).without 5

theorem assembled_star : star.Assembled := by
  have hpoints := (((((Assembled.empty.addVertex 4).addVertex 1).addVertex 1).addVertex 1).addVertex
    1).addVertex 9
  have hedges := (((((hpoints.joined 0 1).joined 0 2).joined 0 3).joined 5 0).joined 1 0).joined 2 2
  exact hedges.removeVertex (removeVertex_eq hedges.wellFormed (by decide))

end LogicSynthesis.ConflictGraph
