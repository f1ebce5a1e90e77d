import LogicSynthesis.ConflictGraph.Candidates
import LogicSynthesis.Proofs.ConflictGraph
import LogicSynthesis.Proofs.Network.Semantics
import LogicSynthesis.Proofs.Network.Walk

/-!
# The graph of all candidates

While the gates are gone through, each gate of a cone lists the candidates whose cones it belongs
to. No edge is there before all candidates are. Then the candidates of each list are joined, so two
of them are neighbours exactly when their cones share a gate.

## Main definitions

- `CutGraph.Tracks` — the vertices so far, and the lists of the gates
- `Network.IsCandidate` — which cuts become vertices
- `Network.touched` — the gates of the cone of a candidate
- `Network.IsCutGraph` — the finished graph

## Main statements

- `joinAll_ends` — the vertices of a list are joined
- `cutGraph_exact` — the vertices and the edges of the finished graph
-/

namespace LogicSynthesis

variable {permitted : Fault → Prop}

namespace CutGraph

variable {cone : NodeId × Nat → List NodeId} {size : Nat} {g : CutGraph}

/-! ### Vertices -/

/-- The candidates that list `m`. -/
def members (g : CutGraph) (m : NodeId) : List Nat := (g.coneOf[m]?).getD []

/-- There are no edges yet, every vertex is live, and each of the gates lists the candidates whose
cone it belongs to. -/
structure Tracks (cone : NodeId × Nat → List NodeId) (size : Nat) (g : CutGraph) : Prop where
  graph : g.graph.WellFormed
  live : ∀ v < g.graph.capacity, g.graph.isLive v = true
  edgeless : ∀ v w, w ∉ g.graph.adjacency v
  origin : g.origin.size = g.graph.capacity
  lists : g.coneOf.size = size
  members : ∀ m < size, ∀ v, v ∈ g.members m ↔ ∃ x, g.origin[v]? = some x ∧ m ∈ cone x

theorem tracks_start (cone : NodeId × Nat → List NodeId) (size : Nat) :
    (start size).Tracks cone size := by
  refine ⟨ConflictGraph.wellFormed_empty, fun v hv => absurd hv (Nat.not_lt_zero v), ?_, rfl,
    Array.size_replicate, ?_⟩
  · exact fun v w hw => Bool.false_ne_true (ConflictGraph.wellFormed_empty.live v w hw)
  · intro m hm v
    have hnone : (start size).members m = [] := by
      rw [members, start, Array.getElem?_replicate, if_pos hm]
      rfl
    rw [hnone]
    constructor
    · exact fun hv => absurd hv List.not_mem_nil
    · rintro ⟨x, hx, -⟩
      cases hx

/-- Listing a vertex with some gates. -/
theorem mem_foldl_modify (gates : List NodeId) (cones : Array (List Nat)) (w : Nat) {m v : Nat}
    (hm : m < cones.size) :
    v ∈ ((gates.foldl (fun cones n => cones.modify n (· ++ [w])) cones)[m]?).getD [] ↔
      v ∈ (cones[m]?).getD [] ∨ (m ∈ gates ∧ v = w) := by
  induction gates generalizing cones with
  | nil => simp
  | cons n gates ih =>
    rw [List.foldl_cons, ih _ (by rwa [Array.size_modify]), Array.getElem?_modify, List.mem_cons,
      Array.getElem?_eq_getElem hm]
    by_cases heq : n = m
    · subst heq
      rw [if_pos rfl, Option.map_some, Option.getD_some, Option.getD_some, List.mem_append,
        List.mem_singleton]
      tauto
    · rw [if_neg heq]
      have hne := Ne.symm heq
      tauto

theorem size_foldl_modify (gates : List NodeId) (cones : Array (List Nat)) (w : Nat) :
    (gates.foldl (fun cones n => cones.modify n (· ++ [w])) cones).size = cones.size := by
  induction gates generalizing cones with
  | nil => rfl
  | cons n gates ih => rw [List.foldl_cons, ih, Array.size_modify]

theorem Tracks.addCandidate (h : g.Tracks cone size) (pivot : NodeId) (position : Nat)
    (gain : Int) :
    (g.addCandidate pivot position gain (cone (pivot, position))).Tracks cone size := by
  have hcapacity : (g.addCandidate pivot position gain (cone (pivot, position))).graph.capacity =
      g.graph.capacity + 1 := Array.size_push _
  refine ⟨h.graph.addVertex gain.toNat, ?_, ?_, ?_, ?_, ?_⟩
  · intro v hv
    rw [hcapacity] at hv
    have hlive := ConflictGraph.isLive_addVertex h.graph gain.toNat (v := v)
    refine hlive.trans ?_
    rcases Nat.lt_succ_iff_lt_or_eq.mp hv with hv | rfl
    · rw [h.live v hv, Bool.or_true]
    · rw [decide_eq_true rfl, Bool.true_or]
  · intro v w hw
    have hrow := ConflictGraph.adjacency_addVertex h.graph gain.toNat v
    exact h.edgeless v w (hrow ▸ hw)
  · rw [hcapacity, CutGraph.addCandidate, Array.size_push, h.origin]
  · exact (size_foldl_modify _ _ _).trans h.lists
  · intro m hm v
    refine (mem_foldl_modify _ g.coneOf g.graph.weights.size (by rwa [h.lists])).trans ?_
    have hformer := h.members m hm v
    rw [CutGraph.members] at hformer
    have hsize : g.origin.size = g.graph.weights.size := h.origin
    rw [hformer, CutGraph.addCandidate, Array.getElem?_push, hsize]
    -- The new vertex has the next number, which no vertex before it has.
    constructor
    · rintro (⟨x, hx, hmem⟩ | ⟨hmem, rfl⟩)
      · have hne : v ≠ g.graph.weights.size := by
          rintro rfl
          rw [Array.getElem?_eq_none hsize.le] at hx
          cases hx
        exact ⟨x, by rw [if_neg hne, hx], hmem⟩
      · exact ⟨(pivot, position), if_pos rfl, hmem⟩
    · rintro ⟨x, hx, hmem⟩
      split at hx
      · next heq =>
        obtain rfl := Option.some.inj hx
        exact .inr ⟨hmem, heq⟩
      · exact .inl ⟨x, hx, hmem⟩

/-- The lists are those of the gates. -/
theorem Tracks.exists_members (h : g.Tracks cone size) {vertices : List Nat}
    (hmem : vertices ∈ g.coneOf.toList) : ∃ m < size, g.members m = vertices := by
  obtain ⟨m, hm⟩ := List.getElem?_of_mem hmem
  rw [Array.getElem?_toList] at hm
  refine ⟨m, ?_, by rw [CutGraph.members, hm]; rfl⟩
  rw [← h.lists]
  exact (Array.getElem?_eq_some_iff.mp hm).1

theorem Tracks.members_mem (h : g.Tracks cone size) {m : NodeId} (hm : m < size) :
    g.members m ∈ g.coneOf.toList := by
  rw [← h.lists] at hm
  rw [CutGraph.members, Array.getElem?_eq_getElem hm]
  exact Array.mem_toList_iff.mpr (Array.getElem_mem hm)

/-- Listed vertices are live. -/
theorem Tracks.live_of_mem (h : g.Tracks cone size) {vertices : List Nat}
    (hmem : vertices ∈ g.coneOf.toList) : ∀ v ∈ vertices, g.graph.isLive v = true := by
  intro v hv
  obtain ⟨m, hm, rfl⟩ := h.exists_members hmem
  obtain ⟨x, hx, -⟩ := (h.members m hm v).mp hv
  apply h.live
  rw [← h.origin]
  exact (Array.getElem?_eq_some_iff.mp hx).1

/-! ### Edges -/

/-- The place of an entry is the number of entries before it. -/
theorem place_of_zipIdx_eq {α : Type} {as : List α} {former rest : List (α × Nat)} {a : α} {i : Nat}
    (h : as.zipIdx = former ++ (a, i) :: rest) : i = former.length ∧ as[i]? = some a := by
  have hentry : as.zipIdx[former.length]? = some (a, i) := by
    rw [h, List.getElem?_append_right (Nat.le_refl _), Nat.sub_self, List.getElem?_cons_zero]
  rw [List.getElem?_zipIdx, Option.map_eq_some_iff] at hentry
  obtain ⟨b, hb, heq⟩ := hentry
  obtain ⟨rfl, hi⟩ := Prod.mk.inj heq
  rw [Nat.zero_add] at hi
  subst hi
  exact ⟨rfl, hb⟩

theorem take_of_zipIdx_eq {vertices : List Nat} {before after : List (Nat × Nat)} {w j : Nat}
    (h : vertices.zipIdx = before ++ (w, j) :: after) :
    w ∈ vertices ∧ vertices.take j = before.map Prod.fst := by
  obtain ⟨rfl, hplace⟩ := place_of_zipIdx_eq h
  have hvertices := congrArg (List.map Prod.fst) h
  rw [List.zipIdx_map_fst, List.map_append, List.map_cons] at hvertices
  refine ⟨List.mem_of_getElem? hplace, ?_⟩
  rw [hvertices, List.take_left' (List.length_map _)]

/-- Live vertices can be joined. -/
theorem joinAll_ends {vertices : List Nat} {graph : ConflictGraph} (h : graph.WellFormed)
    (hlive : ∀ v ∈ vertices, graph.isLive v = true) :
    Ends permitted (joinAll vertices graph) (graph.Joins (ConflictGraph.Among vertices)) := by
  have hloop : Ends permitted (joinAll vertices graph)
      (graph.Joins (ConflictGraph.Among (vertices.zipIdx.map Prod.fst))) := by
    refine Ends.foldlM_prefix (fun before => graph.Joins
      (ConflictGraph.Among (before.map Prod.fst))) (.refl h fun a b hab => ?_) ?_
    · exact absurd hab.2.1 List.not_mem_nil
    rintro before ⟨w, j⟩ after graph' heq hgraph'
    obtain ⟨hw, htake⟩ := take_of_zipIdx_eq heq
    show Ends permitted ((vertices.take j).foldlM (fun graph v => graph.addEdge v w) graph') _
    rw [htake]
    refine (Ends.foldlM_prefix (fun done => graph.Joins fun a b =>
      ConflictGraph.Among (before.map Prod.fst) a b ∨
        a ≠ b ∧ (a = w ∧ b ∈ done ∨ a ∈ done ∧ b = w)) (hgraph'.congr fun a b => ?_) ?_).mono ?_
    · simp
    · intro done v rest graph'' heq' hgraph''
      have hv : v ∈ vertices := by
        apply List.mem_of_mem_take (i := j)
        rw [htake, heq']
        exact List.mem_append_right _ List.mem_cons_self
      rw [← hgraph''.isLive] at hlive
      refine (ConflictGraph.addEdge_ends hgraph''.wellFormed (hlive v hv) (hlive w hw)).mono ?_
      intro graph''' hgraph'''
      refine (hgraph''.trans hgraph''').congr fun a b => ?_
      rw [ConflictGraph.Among, ConflictGraph.Among, List.mem_pair, List.mem_pair, List.mem_append,
        List.mem_append, List.mem_singleton, List.mem_singleton]
      constructor
      · rintro (hab | ⟨hne, rfl | rfl, rfl | rfl⟩)
        all_goals tauto
      · tauto
    · intro graph'' hgraph''
      refine hgraph''.congr fun a b => ?_
      rw [ConflictGraph.Among, ConflictGraph.Among, List.map_append, List.mem_append,
        List.mem_append, List.map_singleton, List.mem_singleton, List.mem_singleton]
      constructor
      · tauto
      · rintro ⟨hne, ha | rfl, hb | rfl⟩
        all_goals tauto
  rw [List.zipIdx_map_fst] at hloop
  exact hloop

/-- All lists are gone through, and the vertices of each are joined. -/
theorem joinLists_ends {lists : List (List Nat)} {graph : ConflictGraph} (h : graph.WellFormed)
    (hlive : ∀ vertices ∈ lists, ∀ v ∈ vertices, graph.isLive v = true) :
    Ends permitted (lists.foldlM (fun graph vertices => joinAll vertices graph) graph)
      (graph.Joins fun a b => ∃ vertices ∈ lists, ConflictGraph.Among vertices a b) := by
  refine Ends.foldlM_prefix (fun before => graph.Joins fun a b =>
    ∃ vertices ∈ before, ConflictGraph.Among vertices a b) (.refl h ?_) ?_
  · rintro a b ⟨vertices, hmem, -⟩
    exact absurd hmem List.not_mem_nil
  · intro before vertices after graph' heq hgraph'
    have hmem : vertices ∈ lists := by
      rw [heq]
      exact List.mem_append_right _ List.mem_cons_self
    refine (joinAll_ends hgraph'.wellFormed fun v hv => ?_).mono fun graph'' hgraph'' => ?_
    · rw [hgraph'.isLive]
      exact hlive vertices hmem v hv
    · refine (hgraph'.trans hgraph'').congr fun a b => ?_
      simp only [List.mem_append, List.mem_singleton, or_and_right, exists_or, exists_eq_left]

end CutGraph

namespace Network

variable {net : Network} {cost : NodeCost} {allowZeroGain : Bool} {gains : Gains} {sets : CutSets}

/-! ### Candidates -/

/-- The cut at place `i` among those of `p` has more than two leaves and a sufficient gain, and `p`
is a gate whose cone does not cost one. -/
structure IsCandidate (net : Network) (cost : NodeCost) (allowZeroGain : Bool) (gains : Gains)
    (sets : CutSets) (p : NodeId) (i : Nat) : Prop where
  gate : net.isGate p = true
  cone : ∃ k, net.coneCost cost p = .ok (k, net) ∧ k ≠ 1
  cut : ∃ c, (sets.of p)[i]? = some c ∧ 2 < c.size
  gain : minGain allowZeroGain ≤ gains p i

/-- The gates of the cone of a candidate, given by its gate and the place of its cut. -/
def touched (net : Network) (sets : CutSets) (x : NodeId × Nat) : List NodeId :=
  ((sets.of x.1)[x.2]?).elim [] fun c => net.cutGates c.leaves x.1

theorem lt_of_mem_touched {x : NodeId × Nat} {m : NodeId} (h : m ∈ net.touched sets x) :
    m < net.size := by
  rw [touched] at h
  cases hcut : (sets.of x.1)[x.2]? with
  | none =>
    rw [hcut] at h
    cases h
  | some c =>
    rw [hcut] at h
    exact (mem_coneOrder h).2

/-- The candidates among some cuts of a gate. -/
def positions (allowZeroGain : Bool) (gains : Gains) (pivot : NodeId) (entries : List (Cut × Nat)) :
    List (NodeId × Nat) :=
  (entries.filter fun e => !decide (e.1.size ≤ 2 ∨ gains pivot e.2 < minGain allowZeroGain)).map
    fun e => (pivot, e.2)

theorem mem_positions {pivot p : NodeId} {i : Nat} :
    (p, i) ∈ positions allowZeroGain gains pivot (sets.of pivot).zipIdx ↔ p = pivot ∧
      (∃ c, (sets.of p)[i]? = some c ∧ 2 < c.size) ∧ minGain allowZeroGain ≤ gains p i := by
  rw [positions, List.mem_map]
  constructor
  · rintro ⟨⟨c, j⟩, hmem, heq⟩
    obtain ⟨rfl, rfl⟩ := Prod.mk.inj heq
    obtain ⟨hmem, hgood⟩ := List.mem_filter.mp hmem
    rw [Bool.not_eq_true', decide_eq_false_iff_not, not_or, Nat.not_le, Int.not_lt] at hgood
    exact ⟨rfl, ⟨c, List.mem_zipIdx_iff_getElem?.mp hmem, hgood.1⟩, hgood.2⟩
  · rintro ⟨rfl, ⟨c, hc, hsize⟩, hgain⟩
    refine ⟨(c, i), List.mem_filter.mpr ⟨List.mem_zipIdx_iff_getElem?.mpr hc, ?_⟩, rfl⟩
    rw [Bool.not_eq_true', decide_eq_false_iff_not, not_or, Nat.not_le, Int.not_lt]
    exact ⟨hsize, hgain⟩

theorem nodup_positions (pivot : NodeId) :
    (positions allowZeroGain gains pivot (sets.of pivot).zipIdx).Nodup := by
  have hplaces : ((sets.of pivot).zipIdx.map Prod.snd).Nodup := by
    rw [List.zipIdx_map_snd]
    exact List.nodup_range'
  have hsub := (hplaces.sublist (List.filter_sublist.map Prod.snd) :
    (((sets.of pivot).zipIdx.filter fun e =>
      !decide (e.1.size ≤ 2 ∨ gains pivot e.2 < minGain allowZeroGain)).map Prod.snd).Nodup)
  have hpairs := hsub.map (Prod.mk_right_injective pivot)
  rwa [List.map_map] at hpairs

/-- The candidates of a gate come after those before. -/
theorem addCandidates_tracks {g : CutGraph} (h : g.Tracks (net.touched sets) net.size)
    (pivot : NodeId) :
    let g' := net.addCandidates allowZeroGain gains (sets.of pivot) pivot g
    g'.Tracks (net.touched sets) net.size ∧ g'.origin.toList =
      g.origin.toList ++ positions allowZeroGain gains pivot (sets.of pivot).zipIdx := by
  have hcuts : ∀ e ∈ (sets.of pivot).zipIdx, net.cutGates e.1.leaves pivot =
      net.touched sets (pivot, e.2) := by
    intro e he
    rw [touched, List.mem_zipIdx_iff_getElem?.mp he]
    rfl
  simp only [addCandidates]
  generalize (sets.of pivot).zipIdx = entries at hcuts
  induction entries generalizing g with
  | nil => exact ⟨h, (List.append_nil _).symm⟩
  | cons e entries ih =>
    have hrest := fun e' he' => hcuts e' (List.mem_cons_of_mem e he')
    rw [List.foldl_cons]
    by_cases hskip : e.1.size ≤ 2 ∨ gains pivot e.2 < minGain allowZeroGain
    · have hpositions : positions allowZeroGain gains pivot (e :: entries) =
          positions allowZeroGain gains pivot entries := by
        rw [positions, positions, List.filter_cons_of_neg (by rw [decide_eq_true hskip]; decide)]
      rw [if_pos hskip, hpositions]
      exact ih h hrest
    · have hpositions : positions allowZeroGain gains pivot (e :: entries) =
          (pivot, e.2) :: positions allowZeroGain gains pivot entries := by
        rw [positions, positions, List.filter_cons_of_pos (by rw [decide_eq_false hskip]; rfl),
          List.map_cons]
      rw [if_neg hskip, hpositions, hcuts e List.mem_cons_self]
      obtain ⟨htracks, horigin⟩ := ih (h.addCandidate pivot e.2 (gains pivot e.2)) hrest
      refine ⟨htracks, horigin.trans ?_⟩
      rw [CutGraph.addCandidate, Array.toList_push, List.append_assoc, List.singleton_append]

/-! ### The finished graph -/

/-- The vertices are the candidates, each of them once, and two of them are joined when their cones
share a gate. -/
structure IsCutGraph (net : Network) (cost : NodeCost) (allowZeroGain : Bool) (gains : Gains)
    (sets : CutSets) (g : CutGraph) : Prop where
  graph : g.graph.WellFormed
  size : g.origin.size = g.graph.capacity
  nodup : g.origin.toList.Nodup
  mem_origin : ∀ p i, (p, i) ∈ g.origin ↔ net.IsCandidate cost allowZeroGain gains sets p i
  adjacency : ∀ v w x y, g.origin[v]? = some x → g.origin[w]? = some y →
    (w ∈ g.graph.adjacency v ↔ v ≠ w ∧ ∃ m ∈ net.touched sets x, m ∈ net.touched sets y)

/-- The candidates of the nodes gone through so far. -/
structure CandidatesOf (net : Network) (cost : NodeCost) (allowZeroGain : Bool) (gains : Gains)
    (sets : CutSets) (before : List NodeId) (g : CutGraph) : Prop where
  tracks : g.Tracks (net.touched sets) net.size
  nodup : g.origin.toList.Nodup
  mem_origin : ∀ p i, (p, i) ∈ g.origin.toList ↔
    p ∈ before ∧ net.IsCandidate cost allowZeroGain gains sets p i

/-- A node without candidates. -/
theorem CandidatesOf.skip {before : List NodeId} {g : CutGraph} {n : NodeId}
    (h : net.CandidatesOf cost allowZeroGain gains sets before g)
    (hnone : ∀ i, ¬ net.IsCandidate cost allowZeroGain gains sets n i) :
    net.CandidatesOf cost allowZeroGain gains sets (before ++ [n]) g := by
  refine ⟨h.tracks, h.nodup, fun p i => (h.mem_origin p i).trans ?_⟩
  rw [List.mem_append, List.mem_singleton]
  constructor
  · exact fun hp => ⟨.inl hp.1, hp.2⟩
  · rintro ⟨hp | rfl, hcandidate⟩
    · exact ⟨hp, hcandidate⟩
    · exact absurd hcandidate (hnone i)

/-- A gate whose cone does not cost one. -/
theorem CandidatesOf.add {before : List NodeId} {g : CutGraph} {n : NodeId} {k : Nat}
    (h : net.CandidatesOf cost allowZeroGain gains sets before g) (hgate : net.isGate n = true)
    (hcone : net.coneCost cost n = .ok (k, net)) (hk : k ≠ 1) (hnew : n ∉ before) :
    net.CandidatesOf cost allowZeroGain gains sets (before ++ [n])
      (net.addCandidates allowZeroGain gains (sets.of n) n g) := by
  obtain ⟨htracks, horigin⟩ := @addCandidates_tracks net allowZeroGain gains sets g h.tracks n
  refine ⟨htracks, ?_, ?_⟩
  · rw [horigin, List.nodup_append']
    refine ⟨h.nodup, nodup_positions n, ?_⟩
    rintro ⟨p, i⟩ hformer hadded
    obtain ⟨rfl, -⟩ := mem_positions.mp hadded
    exact hnew ((h.mem_origin p i).mp hformer).1
  · intro p i
    rw [horigin, List.mem_append, h.mem_origin, mem_positions, List.mem_append, List.mem_singleton]
    constructor
    · rintro (⟨hp, hcandidate⟩ | ⟨rfl, hcut, hgain⟩)
      · exact ⟨.inl hp, hcandidate⟩
      · exact ⟨.inr rfl, hgate, ⟨k, hcone, hk⟩, hcut, hgain⟩
    · rintro ⟨hp | rfl, hcandidate⟩
      · exact .inl ⟨hp, hcandidate⟩
      · exact .inr ⟨rfl, hcandidate.cut, hcandidate.gain⟩

/-- One more node is gone through. -/
theorem addPivotCandidates_ends {before : List NodeId} {g : CutGraph} {n : NodeId}
    (h : net.CandidatesOf cost allowZeroGain gains sets before g) (hsize : sets.size ≤ net.size)
    (hcone : n < sets.size → net.isGate n = true →
      Ends permitted (net.coneCost cost n) fun r => r.2 = net) (hnew : n ∉ before) :
    Ends permitted (addPivotCandidates cost allowZeroGain gains sets (g, net) n) fun state =>
      state.2 = net ∧ net.CandidatesOf cost allowZeroGain gains sets (before ++ [n]) state.1 := by
  show Ends permitted (if sets.size ≤ n ∨ net.isTerminal n then _ else _) _
  split
  · next hskip =>
    refine ⟨rfl, h.skip fun i hcandidate => ?_⟩
    have hn := lt_size_of_kindIs hcandidate.gate
    rcases hskip with hlt | hterm
    · obtain ⟨c, hc, -⟩ := hcandidate.cut
      rw [CutSets.of, Array.getElem?_eq_none hlt] at hc
      cases hc
    · rw [isTerminal_of_isGate hcandidate.gate] at hterm
      cases hterm
  · next hgoes =>
    obtain ⟨hlt, hterm⟩ := not_or.mp hgoes
    rw [Nat.not_le] at hlt
    have hgate := isGate_of_not_isTerminal (hlt.trans_le hsize) hterm
    refine (hcone hlt hgate).bind_eq ?_
    rintro ⟨k, net'⟩ hrun hnet
    obtain rfl : net = net' := hnet.symm
    dsimp only
    split
    · next hk =>
      refine ⟨rfl, h.skip fun i hcandidate => ?_⟩
      obtain ⟨k', hrun', hk'⟩ := hcandidate.cone
      rw [hrun] at hrun'
      exact hk' ((congrArg Prod.fst (Except.ok.inj hrun')).symm.trans hk)
    · next hk => exact ⟨rfl, h.add hgate hrun hk hnew⟩

/-- Two vertices are joined in some list just when their cones share a gate. -/
theorem among_iff_touched {g : CutGraph} (h : g.Tracks (net.touched sets) net.size) {v w : Nat}
    {x y : NodeId × Nat} (hx : g.origin[v]? = some x) (hy : g.origin[w]? = some y) :
    (∃ vertices ∈ g.coneOf.toList, ConflictGraph.Among vertices v w) ↔
      v ≠ w ∧ ∃ m ∈ net.touched sets x, m ∈ net.touched sets y := by
  have hmember : ∀ u z, g.origin[u]? = some z → ∀ m < net.size,
      (u ∈ g.members m ↔ m ∈ net.touched sets z) := by
    intro u z hz m hm
    rw [h.members m hm, hz]
    simp
  constructor
  · rintro ⟨vertices, hmem, hne, hv, hw⟩
    obtain ⟨m, hm, rfl⟩ := h.exists_members hmem
    exact ⟨hne, m, (hmember v x hx m hm).mp hv, (hmember w y hy m hm).mp hw⟩
  · rintro ⟨hne, m, hmx, hmy⟩
    have hm := lt_of_mem_touched hmx
    exact ⟨g.members m, h.members_mem hm, hne, (hmember v x hx m hm).mpr hmx,
      (hmember w y hy m hm).mpr hmy⟩

/-- The graph of all candidates, where the cost of each cone is found and leaves the network as it
is. -/
theorem cutGraph_exact (hsize : sets.size ≤ net.size)
    (hcone : ∀ n < sets.size, net.isGate n = true →
      Ends permitted (net.coneCost cost n) fun r => r.2 = net) :
    Ends permitted (net.cutGraph cost allowZeroGain gains sets) fun r =>
      r.2 = net ∧ net.IsCutGraph cost allowZeroGain gains sets r.1 := by
  have hloop : Ends permitted (net.nodeIds.foldlM (addPivotCandidates cost allowZeroGain gains sets)
      (.start net.size, net)) fun state : CutGraph × Network =>
        state.2 = net ∧ net.CandidatesOf cost allowZeroGain gains sets net.nodeIds state.1 := by
    refine Ends.foldlM_prefix (fun before (state : CutGraph × Network) => state.2 = net ∧
      net.CandidatesOf cost allowZeroGain gains sets before state.1) ⟨rfl, ?_⟩ ?_
    · refine ⟨CutGraph.tracks_start _ _, List.nodup_nil, fun p i => ?_⟩
      constructor
      · exact fun hmem => absurd hmem List.not_mem_nil
      · exact fun hmem => absurd hmem.1 List.not_mem_nil
    rintro before n after ⟨g, net'⟩ heq ⟨hnet, hg⟩
    obtain rfl : net = net' := hnet.symm
    refine addPivotCandidates_ends hg hsize (hcone n) fun hmem => ?_
    have hnodup : (before ++ n :: after).Nodup := heq ▸ List.nodup_range
    exact (List.nodup_append.mp hnodup).2.2 n hmem n List.mem_cons_self rfl
  refine hloop.bind ?_
  rintro ⟨g, net'⟩ ⟨hnet, hg⟩
  obtain rfl : net = net' := hnet.symm
  have htracks : g.Tracks (net.touched sets) net.size := hg.tracks
  refine (CutGraph.joinLists_ends htracks.graph fun vertices => htracks.live_of_mem).bind ?_
  intro graph hgraph
  refine ⟨rfl, hgraph.wellFormed, htracks.origin.trans hgraph.capacity.symm, hg.nodup, ?_, ?_⟩
  · intro p i
    rw [← Array.mem_toList_iff, hg.mem_origin, and_iff_right_iff_imp]
    exact fun hcandidate => List.mem_range.mpr (lt_size_of_kindIs hcandidate.gate)
  · intro v w x y hx hy
    rw [hgraph.adjacency v w, or_iff_right (htracks.edgeless v w)]
    exact among_iff_touched htracks hx hy

end Network

end LogicSynthesis
