import LogicSynthesis.Proofs.ConflictGraph.Assembly

/-!
# Picking vertices until none is left

Both ways of choosing vertices pick one after the other, and each pick leaves those vertices that
are neither picked nor joined to the pick. They differ in the rule for the next pick. `Picks` says
this of the graph at the start and of sets of vertices alone, whatever the rule; what a selector
works on is at all times the part of the graph at the start that `Induced` describes.

## Main definitions

- `ConflictGraph.Picks` — a sequence of picks under a rule, until none is left
- `ConflictGraph.Induced` — the part of a graph on some of its vertices
- `ConflictGraph.Completes` — what is left of a selector's run makes such picks
- `ConflictGraph.Earliest` — the rule of the plain selector

## Main statements

- `Picks.unique` — a rule that leaves no choice determines the picks
- `Picks.independent`, `Picks.covers` — the picks exclude one another and all else
- `Induced.take` — one step of a selector is one pick
- `maximal_completes` — the plain selector picks the earliest vertex each time
-/

namespace LogicSynthesis.ConflictGraph

variable {permitted : Fault → Prop} {g left next : ConflictGraph}
  {rule : Finset Nat → Nat → Prop} {S : Finset Nat} {v w : Nat} {chosen picks : List Nat}

/-- A vertex with its neighbours. -/
def closedNeighborhood (g : ConflictGraph) (v : Nat) : Finset Nat :=
  insert v (g.neighbors v).toFinset

/-- The number of neighbours of a vertex among those of a set. -/
def degreeWithin (g : ConflictGraph) (S : Finset Nat) (v : Nat) : Nat :=
  {w ∈ S | g.hasEdge v w}.card

/-- The vertices that are picked from a set, in order: each by a rule that may look at the set
that is left, and each removed from it together with its neighbours, until none is left. -/
inductive Picks (g : ConflictGraph) (rule : Finset Nat → Nat → Prop) :
    Finset Nat → List Nat → Prop
  | done : Picks g rule ∅ []
  | pick {S : Finset Nat} {v : Nat} {vs : List Nat} (mem : v ∈ S) (best : rule S v)
      (rest : Picks g rule (S \ g.closedNeighborhood v) vs) : Picks g rule S (v :: vs)

/-- The earliest vertex of a set. -/
def Earliest (S : Finset Nat) (v : Nat) : Prop := ∀ w ∈ S, v ≤ w

/-! ### Picks -/

theorem mem_closedNeighborhood : w ∈ g.closedNeighborhood v ↔ w = v ∨ w ∈ g.adjacency v := by
  rw [closedNeighborhood, Finset.mem_insert, List.mem_toFinset, mem_neighbors]

theorem mem_sdiff_closedNeighborhood :
    w ∈ S \ g.closedNeighborhood v ↔ w ∈ S ∧ w ≠ v ∧ w ∉ g.adjacency v := by
  rw [Finset.mem_sdiff, mem_closedNeighborhood, not_or]

/-- If the rule permits one vertex at most, there is one way to pick. -/
theorem Picks.unique (hrule : ∀ S, ∀ v ∈ S, ∀ w ∈ S, rule S v → rule S w → v = w)
    {picks picks' : List Nat} (h : g.Picks rule S picks) (h' : g.Picks rule S picks') :
    picks = picks' := by
  induction h generalizing picks' with
  | done =>
    cases h' with
    | done => rfl
    | pick hmem => exact absurd hmem (Finset.notMem_empty _)
  | pick hmem hbest _ ih =>
    cases h' with
    | done => exact absurd hmem (Finset.notMem_empty _)
    | pick hmem' hbest' hrest' =>
      obtain rfl := hrule _ _ hmem _ hmem' hbest hbest'
      rw [ih hrest']

theorem Picks.subset (h : g.Picks rule S picks) : ∀ v ∈ picks, v ∈ S := by
  induction h with
  | done => exact fun v hv => absurd hv List.not_mem_nil
  | pick hmem _ _ ih =>
    refine List.forall_mem_cons.mpr ⟨hmem, fun w hw => ?_⟩
    exact (mem_sdiff_closedNeighborhood.mp (ih w hw)).1

/-- Picks from live vertices are different, and no two of them are joined. -/
theorem Picks.independent (hwf : g.WellFormed) (h : g.Picks rule S picks)
    (hlive : ∀ v ∈ S, g.isLive v = true) : g.Independent picks := by
  induction h with
  | done =>
    exact ⟨List.nodup_nil, fun v hv => absurd hv List.not_mem_nil,
      fun v hv => absurd hv List.not_mem_nil⟩
  | @pick S v vs hmem _ hrest ih =>
    -- Later picks are neither this vertex nor joined to it.
    have hlater : ∀ w ∈ vs, w ∈ S ∧ w ≠ v ∧ w ∉ g.adjacency v := fun w hw =>
      mem_sdiff_closedNeighborhood.mp (hrest.subset w hw)
    have hvs := ih fun w hw => hlive w (mem_sdiff_closedNeighborhood.mp hw).1
    refine ⟨?_, ?_, ?_⟩
    · exact List.nodup_cons.mpr ⟨fun hv => (hlater v hv).2.1 rfl, hvs.nodup⟩
    · exact List.forall_mem_cons.mpr ⟨hlive v hmem, hvs.live⟩
    · intro a ha b hb hadj
      rcases List.mem_cons.mp ha with rfl | ha' <;> rcases List.mem_cons.mp hb with rfl | hb'
      · exact hwf.irreflexive _ hadj
      · exact (hlater b hb').2.2 hadj
      · exact (hlater a ha').2.2 (hwf.symmetric _ _ hadj)
      · exact hvs.apart a ha' b hb' hadj

/-- A vertex that is not picked is joined to one that is. -/
theorem Picks.covers (h : g.Picks rule S picks) :
    ∀ w ∈ S, w ∉ picks → ∃ v ∈ picks, w ∈ g.adjacency v := by
  induction h with
  | done => exact fun w hw => absurd hw (Finset.notMem_empty w)
  | @pick S v vs _ _ _ ih =>
    intro w hw hout
    obtain ⟨hne, hout⟩ := not_or.mp (mt List.mem_cons.mpr hout)
    by_cases hadj : w ∈ g.adjacency v
    · exact ⟨v, List.mem_cons_self, hadj⟩
    · obtain ⟨u, hu, hadj⟩ := ih w (mem_sdiff_closedNeighborhood.mpr ⟨hw, hne, hadj⟩) hout
      exact ⟨u, List.mem_cons_of_mem _ hu, hadj⟩

/-! ### Parts of a graph -/

/-- The graph `left` is the part of `g` on the vertices of `S`. Its counters are exact if those of
`g` are. -/
structure Induced (g : ConflictGraph) (S : Finset Nat) (left : ConflictGraph) : Prop where
  wellFormed : left.WellFormed
  isLive : ∀ v, left.isLive v = true ↔ v ∈ S
  adjacency : ∀ v w, w ∈ left.adjacency v ↔ w ∈ g.adjacency v ∧ v ∈ S ∧ w ∈ S
  weight : ∀ v, left.weight v = g.weight v
  counted : g.Counted → left.Counted

/-- Every graph is its part on its live vertices. -/
theorem Induced.start (h : g.WellFormed) : g.Induced g.liveSet g := by
  refine ⟨h, fun v => h.mem_liveSet.symm, fun v w => ?_, fun v => rfl, id⟩
  rw [h.mem_liveSet, h.mem_liveSet, iff_self_and]
  exact fun hadj => ⟨h.live w v (h.symmetric v w hadj), h.live v w hadj⟩

/-- The degree in a part counts the neighbours in that part. -/
theorem Induced.degree (h : g.Induced S left) (hv : v ∈ S) :
    left.degree v = g.degreeWithin S v := by
  have hset : (left.neighbors v).toFinset = {w ∈ S | g.hasEdge v w} := by
    ext w
    rw [List.mem_toFinset, mem_neighbors, h.adjacency, Finset.mem_filter, hasEdge_iff]
    tauto
  rw [degreeWithin, ← hset, List.toFinset_card_of_nodup (left.nodup_neighbors v), neighbors,
    Std.TreeSet.length_toList, ConflictGraph.degree]

/-- Taking a vertex leaves the part of the graph without it and its neighbours. -/
theorem Induced.take (h : g.Induced S left) (hv : v ∈ S) :
    Ends permitted (left.takeWithNeighbors v) (g.Induced (S \ g.closedNeighborhood v)) := by
  refine (takeWithNeighbors_ends h.wellFormed ((h.isLive v).mpr hv)).mono_eq ?_
  intro next htake hnext
  have hlive : ∀ w, next.isLive w = true ↔ w ∈ S \ g.closedNeighborhood v := by
    intro w
    rw [hnext.isLive, h.isLive, mem_sdiff_closedNeighborhood, List.mem_cons, not_or, mem_neighbors,
      h.adjacency]
    tauto
  -- Weights stay, and the counters stay exact, with each removal.
  have hkept : next.WellFormed ∧ (∀ w, next.weight w = g.weight w) ∧
      (g.Counted → next.Counted) := by
    refine takeWithNeighbors_keeps (motive := fun left => left.WellFormed ∧
      (∀ w, left.weight w = g.weight w) ∧ (g.Counted → left.Counted)) ?_
      ⟨h.wellFormed, h.weight, h.counted⟩ htake
    rintro left next u hremove ⟨hwf, hweight, hcounted⟩
    obtain ⟨hu, rfl⟩ := of_removeVertex hremove
    exact ⟨hwf.without u, hweight, fun hg => (hcounted hg).without hwf hu⟩
  refine ⟨hnext.wellFormed, hlive, fun a b => ?_, hkept.2.1, hkept.2.2⟩
  rw [hnext.adjacency, h.adjacency, hlive, hlive, mem_sdiff_closedNeighborhood,
    mem_sdiff_closedNeighborhood]
  tauto

/-- When no vertex is left, exact counters say so. -/
theorem Induced.counters_eq_zero (h : g.Induced ∅ left) (hg : g.Counted) :
    left.numVertices = 0 ∧ left.numEdges = 0 := by
  have hlive : left.liveSet = ∅ := by
    ext v
    rw [h.wellFormed.mem_liveSet, h.isLive]
  have hpairs : left.livePairs = ∅ := by
    rw [livePairs, hlive]
    rfl
  rw [(h.counted hg).vertices, (h.counted hg).edges, hlive, hpairs]
  exact ⟨rfl, rfl⟩

/-! ### Runs of a selector -/

/-- A run that starts with the vertices of `S` left picks from them under the rule until none is
left, and puts the picks before what was chosen, the last one first. -/
def Completes (g : ConflictGraph) (rule : Finset Nat → Nat → Prop) (S : Finset Nat)
    (chosen : List Nat) (r : List Nat × ConflictGraph) : Prop :=
  ∃ picks, g.Picks rule S picks ∧ r.1 = picks.reverse ++ chosen ∧ g.Induced ∅ r.2

theorem Completes.of_empty (h : g.Induced ∅ left) : g.Completes rule ∅ chosen (chosen, left) :=
  ⟨[], .done, rfl, h⟩

theorem Completes.pick {r : List Nat × ConflictGraph} (hv : v ∈ S) (hbest : rule S v)
    (h : g.Completes rule (S \ g.closedNeighborhood v) (v :: chosen) r) :
    g.Completes rule S chosen r := by
  obtain ⟨picks, hpicks, hchosen, hleft⟩ := h
  refine ⟨v :: picks, .pick hv hbest hpicks, ?_, hleft⟩
  rw [hchosen, List.reverse_cons, List.append_assoc, List.singleton_append]

/-- The whole run, with the picks in their order. -/
theorem Completes.reverse {r : List Nat × ConflictGraph} (h : g.Completes rule S [] r) :
    g.Picks rule S r.1.reverse ∧ g.Induced ∅ r.2 := by
  obtain ⟨picks, hpicks, hchosen, hleft⟩ := h
  rw [hchosen, List.append_nil, List.reverse_reverse]
  exact ⟨hpicks, hleft⟩

/-- The plain selector goes through the vertices in their order, so the next one that is left is
the earliest of those that are left. -/
theorem foldlM_takeIfLive_completes (vs : List Nat) (hvs : vs.Pairwise (· < ·))
    (h : g.Induced S left) (hS : ∀ v ∈ S, v ∈ vs) :
    Ends permitted (vs.foldlM takeIfLive (chosen, left)) (g.Completes Earliest S chosen) := by
  induction vs generalizing S left chosen with
  | nil =>
    obtain rfl := Finset.eq_empty_of_forall_notMem fun v hv => List.not_mem_nil (hS v hv)
    exact Completes.of_empty h
  | cons v vs ih =>
    obtain ⟨hfirst, hrest⟩ := List.pairwise_cons.mp hvs
    have hlater : ∀ w ∈ S, w ≠ v → w ∈ vs := fun w hw hne =>
      (List.mem_cons.mp (hS w hw)).resolve_left hne
    rw [List.foldlM_cons]
    show Ends permitted ((if left.isLive v then _ else _) >>= _) _
    split
    · next hlive =>
      have hv := (h.isLive v).mp hlive
      have hbest : Earliest S v := by
        intro w hw
        by_cases hne : w = v
        · exact hne.ge
        · exact (hfirst w (hlater w hw hne)).le
      have hstep : Ends permitted ((left.takeWithNeighbors v).map fun next => (v :: chosen, next))
          fun r => r.1 = v :: chosen ∧ g.Induced (S \ g.closedNeighborhood v) r.2 :=
        (h.take hv).map fun next hnext => ⟨rfl, hnext⟩
      refine hstep.bind ?_
      rintro ⟨-, next⟩ ⟨rfl, hnext⟩
      refine (ih hrest hnext fun w hw => ?_).mono fun r hr => hr.pick hv hbest
      obtain ⟨hw, hne, -⟩ := mem_sdiff_closedNeighborhood.mp hw
      exact hlater w hw hne
    · next hlive =>
      refine ih hrest h fun w hw => hlater w hw ?_
      rintro rfl
      exact hlive ((h.isLive w).mpr hw)

theorem maximal_completes (h : g.WellFormed) :
    Ends permitted g.maximal fun r => g.Picks Earliest g.liveSet r.1 ∧ g.Induced ∅ r.2 := by
  refine Ends.bind (foldlM_takeIfLive_completes _ List.pairwise_lt_range (.start h) ?_) ?_
  · exact fun v hv => List.mem_range.mpr (h.lt_of_isLive (h.mem_liveSet.mp hv))
  · exact fun r hr => hr.reverse

end LogicSynthesis.ConflictGraph
