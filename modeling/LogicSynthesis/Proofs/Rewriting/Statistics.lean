import LogicSynthesis.Proofs.Rewriting.Soundness

/-!
# The statistics of a pass are consistent

Every candidate is scored with the counts of the edges at the start, and leaves them as they were.
So the cost of a cone is the same when candidates are collected and when the conflict graph is made
out of them, and the graph has one vertex for each candidate. The batch goes through the chosen
candidates once, and these are for different gates.

## Main definitions

- `ConflictGraph.Whole` — no vertex was removed
- `Network.Tallied` — the candidates are counted, and each is for a cut that the graph has too
- `Network.KeepsCounts` — old nodes have the same counts, and new ones are not counted
- `Network.Visits`, `Network.Tries` — a pass that comes to a pivot, and to a cut of it
- `Network.Batch` — the choices that were gone through, and the gates that were replaced

## Main statements

- `vertices_eq_candidates` — the graph has the candidates as vertices
- `tries_keep_counts` — scoring a cut keeps the counts
- `scoring_keeps_statistics_consistent` — counts and statistics of a pass
-/

namespace LogicSynthesis

/-! ### Graphs without removals -/

namespace ConflictGraph

variable {g g' : ConflictGraph}

/-- No vertex was removed. -/
def Whole (g : ConflictGraph) : Prop := g.numVertices = g.capacity

theorem Whole.addVertex (h : g.Whole) (weight : Nat) : (g.addVertex weight).2.Whole := by
  rw [Whole, capacity] at h
  rw [Whole, capacity, ConflictGraph.addVertex, Array.size_push, h]

theorem Whole.addEdge (h : g.Whole) (v w : Nat) : Ends Anything (g.addEdge v w) Whole := by
  rw [ends_anything_iff]
  intro g' hrun
  unfold ConflictGraph.addEdge at hrun
  split at hrun
  · obtain rfl := Except.ok.inj hrun
    exact h
  obtain ⟨_, -, hrun⟩ := bind_eq_ok hrun
  split at hrun
  · obtain rfl := Except.ok.inj hrun
    exact h
  obtain ⟨_, -, hrun⟩ := bind_eq_ok hrun
  obtain rfl := Except.ok.inj hrun
  exact h

end ConflictGraph

namespace CutGraph

theorem whole_joinAll (vertices : List Nat) {graph : ConflictGraph} (h : graph.Whole) :
    Ends Anything (joinAll vertices graph) ConflictGraph.Whole := by
  apply Ends.foldlM ConflictGraph.Whole h
  rintro ⟨w, j⟩ - graph' h'
  apply Ends.foldlM ConflictGraph.Whole h'
  intro v _ graph'' h''
  exact h''.addEdge v w

end CutGraph

namespace Network

variable {μ : Type} {permitted : Fault → Prop} {cost : NodeCost} {base net net' : Network}

theorem whole_addCandidates {g : CutGraph} (h : g.graph.Whole) (net : Network)
    (allowZeroGain : Bool) (gains : Gains) (cuts : List Cut) (pivot : NodeId) :
    (net.addCandidates allowZeroGain gains cuts pivot g).graph.Whole := by
  unfold addCandidates
  generalize cuts.zipIdx = entries
  induction entries generalizing g with
  | nil => exact h
  | cons e entries ih =>
    rw [List.foldl_cons]
    apply ih
    dsimp only
    split
    · exact h
    · exact h.addVertex _

/-- The vertices of the graph are those that were ever added. -/
theorem whole_cutGraph (net : Network) (cost : NodeCost) (allowZeroGain : Bool) (gains : Gains)
    (sets : CutSets) :
    Ends Anything (net.cutGraph cost allowZeroGain gains sets) fun r => r.1.graph.Whole := by
  have hloop : Ends Anything (net.nodeIds.foldlM
      (addPivotCandidates cost allowZeroGain gains sets) (.start net.size, net))
      fun state : CutGraph × Network => state.1.graph.Whole := by
    have hstart : (CutGraph.start net.size).graph.Whole := rfl
    refine Ends.foldlM (fun state : CutGraph × Network => state.1.graph.Whole) hstart ?_
    rintro n - ⟨g, net'⟩ hg
    rw [ends_anything_iff]
    rintro ⟨g', net''⟩ hrun
    change (if sets.size ≤ n ∨ net'.isTerminal n then _ else _) = _ at hrun
    split at hrun
    · obtain ⟨rfl, rfl⟩ := Prod.mk.inj (Except.ok.inj hrun)
      exact hg
    obtain ⟨⟨k, mid⟩, -, hrun⟩ := bind_eq_ok hrun
    dsimp only at hrun
    split at hrun
    · obtain ⟨rfl, rfl⟩ := Prod.mk.inj (Except.ok.inj hrun)
      exact hg
    · obtain ⟨rfl, rfl⟩ := Prod.mk.inj (Except.ok.inj hrun)
      exact whole_addCandidates hg mid allowZeroGain gains _ n
  refine hloop.bind ?_
  rintro ⟨g, net'⟩ hg
  refine (Ends.foldlM ConflictGraph.Whole hg fun vertices _ graph h =>
    CutGraph.whole_joinAll vertices h).bind ?_
  exact fun graph hgraph => hgraph

/-! ### Candidates are counted -/

/-- The gate has a cone whose cost is in range and not one. -/
def Reducible (base : Network) (cost : NodeCost) (n : NodeId) : Prop :=
  ∃ k, base.FreedCost cost base.readers n k ∧ k < costBound ∧ k ≠ 1

/-- The candidates so far are counted, and are for cuts of more than two leaves, among those that
were reached, of gates that can be reduced. -/
structure Tallied (base : Network) (cost : NodeCost) (sets : CutSets)
    (reached : NodeId × Nat → Prop) (state : Collection μ) : Prop where
  count : state.count = state.candidates.size
  keys : ∀ n i, (n, i) ∈ state.candidates → reached (n, i) ∧
    (∃ c, (sets.of n)[i]? = some c ∧ 2 < c.size) ∧ base.Reducible cost n

variable {oracle : Oracle μ} {settings : RewriteSettings} {sets : CutSets}
  {reached reached' : NodeId × Nat → Prop}

theorem Tallied.mono {state : Collection μ} (h : Tallied base cost sets reached state)
    (himp : ∀ x, reached x → reached' x) : Tallied base cost sets reached' state :=
  ⟨h.count, fun n i hmem => ⟨himp _ (h.keys n i hmem).1, (h.keys n i hmem).2⟩⟩

theorem tallied_start (base : Network) (cost : NodeCost) (sets : CutSets)
    (reached : NodeId × Nat → Prop) (memory : μ) (net : Network) :
    Tallied base cost sets reached ⟨memory, net, ∅, 0, 0⟩ :=
  ⟨Std.HashMap.size_empty.symm, fun _ _ hmem => absurd hmem Std.HashMap.not_mem_empty⟩

/-- Cuts of at most two leaves have no candidates. -/
theorem two_lt_size_of_rewriteCut {memory memory' : μ} {pivot : NodeId} {cut : Cut} {c : Candidate}
    (hrun : net.rewriteCut oracle memory settings cost pivot cut = .ok (memory', some c, net')) :
    2 < cut.size := by
  unfold rewriteCut at hrun
  split at hrun
  · cases hrun
  · next hwide => exact Nat.not_le.mp hwide

/-- One more cut is reached, which had no candidate before. -/
theorem tallied_collectCut {pivot : NodeId} {cut : Cut} {i : Nat} {state : Collection μ}
    (h : Tallied base cost sets reached state) (hcut : (sets.of pivot)[i]? = some cut)
    (hpivot : base.Reducible cost pivot) (hnew : ¬ reached (pivot, i)) :
    Ends Anything (collectCut oracle settings cost pivot state (cut, i))
      (Tallied base cost sets fun x => reached x ∨ x = (pivot, i)) := by
  obtain ⟨memory, net, candidates, count, totalGain⟩ := state
  rw [ends_anything_iff]
  intro state' hrun
  have hmore : ∀ n j, (n, j) ∈ candidates → (reached (n, j) ∨ (n, j) = (pivot, i)) ∧
      (∃ c, (sets.of n)[j]? = some c ∧ 2 < c.size) ∧ base.Reducible cost n := by
    intro n j hmem
    obtain ⟨hreached, hwide⟩ := h.keys n j hmem
    exact ⟨.inl hreached, hwide⟩
  obtain ⟨⟨memory', best, net'⟩, hbest, hrun⟩ := bind_eq_ok hrun
  cases best with
  | none =>
    obtain rfl := Except.ok.inj hrun
    exact ⟨h.count, hmore⟩
  | some c =>
    obtain rfl := Except.ok.inj hrun
    have hfresh : (pivot, i) ∉ candidates := fun hmem => hnew (h.keys pivot i hmem).1
    refine ⟨?_, fun n j hmem => ?_⟩
    · rw [Std.HashMap.size_insert, if_neg hfresh]
      exact congrArg (· + 1) h.count
    · rw [Std.HashMap.mem_insert, beq_iff_eq] at hmem
      rcases hmem with heq | hmem
      · obtain ⟨rfl, rfl⟩ := Prod.mk.inj heq
        exact ⟨.inr rfl, ⟨cut, hcut, two_lt_size_of_rewriteCut hbest⟩, hpivot⟩
      · exact hmore n j hmem

/-- All cuts of a pivot are reached, one after the other. -/
theorem tallied_collectCuts {before : List NodeId} {pivot : NodeId} {state : Collection μ}
    (h : Tallied base cost sets (·.1 ∈ before) state) (hpivot : base.Reducible cost pivot)
    (hnew : pivot ∉ before) :
    Ends Anything ((sets.of pivot).zipIdx.foldlM (collectCut oracle settings cost pivot) state)
      (Tallied base cost sets (·.1 ∈ before ++ [pivot])) := by
  refine (Ends.foldlM_prefix (fun former => Tallied base cost sets fun x =>
    x.1 ∈ before ∨ x.1 = pivot ∧ x.2 < former.length) ?_ ?_).mono ?_
  · exact h.mono fun x => Or.inl
  · rintro former ⟨cut, i⟩ rest state' heq h'
    obtain ⟨rfl, hcut⟩ := CutGraph.place_of_zipIdx_eq heq
    refine (tallied_collectCut h' hcut hpivot ?_).mono fun state'' h'' => h''.mono ?_
    · rintro (hmem | ⟨-, hlt⟩)
      · exact hnew hmem
      · exact absurd hlt (Nat.lt_irrefl _)
    · rintro x ((hmem | ⟨heq, hlt⟩) | rfl)
      · exact .inl hmem
      · exact .inr ⟨heq, by rw [List.length_append]; omega⟩
      · exact .inr ⟨rfl, by rw [List.length_append]; exact Nat.lt_succ_self _⟩
  · intro state' h'
    refine h'.mono fun x hx => ?_
    rw [List.mem_append, List.mem_singleton]
    exact hx.imp_right And.left

/-- The cost of a cone at the start is found whenever the counts are those of the start. -/
theorem Counting.coneCost_eq {k : Nat} (h : Counting base permitted cost base.readers net)
    (hbase : base.Proper) {n : NodeId} (hn : base.isGate n = true)
    (hrun : net.coneCost cost n = .ok (k, net')) :
    net' = net ∧ k < costBound ∧ base.FreedCost cost base.readers n k := by
  have hlt := lt_size_of_kindIs hn
  have hends : Ends Anything (net.coneCost cost n) fun r =>
      r.2 = net ∧ r.1 < costBound ∧ net.FreedCost cost net.scratch.valueAt n r.1 := by
    refine coneCost_freed h.proper.wellFormed h.proper.acyclic (hlt.trans_le h.grown.size_le)
      (fun _ => ?_) (.inr trivial)
    obtain ⟨bound, hmem, hreleasable⟩ := h.releasable hbase hn
    exact ⟨bound, hmem, .inl hreleasable, .inr trivial⟩
  obtain ⟨hsame, hk, hfreed⟩ := hends.post_of_eq hrun
  rw [h.counts] at hfreed
  -- The cone is one of the network at the start, since nothing there changes.
  obtain ⟨k', hfreed'⟩ := exists_freedCost hbase.wellFormed hbase.acyclic hn cost
  obtain rfl : k = k' := hfreed.unique h.proper.acyclic
    (hfreed'.extends h.grown hbase.wellFormed hlt)
  exact ⟨hsame, hk, hfreed'⟩

/-- One more pivot is reached. -/
theorem tallied_collectNode {before : List NodeId} {pivot : NodeId} {state state' : Collection μ}
    (hbase : base.Proper) (hcounting : Counting base permitted cost base.readers state.net)
    (hsize : sets.size = base.size) (h : Tallied base cost sets (·.1 ∈ before) state)
    (hnew : pivot ∉ before)
    (hrun : collectNode oracle settings cost sets state pivot = .ok state') :
    Tallied base cost sets (·.1 ∈ before ++ [pivot]) state' := by
  obtain ⟨memory, net, candidates, count, totalGain⟩ := state
  have hmore : Tallied base cost sets (·.1 ∈ before ++ [pivot])
      ⟨memory, net, candidates, count, totalGain⟩ := h.mono fun x => List.mem_append_left _
  change (if sets.size ≤ pivot ∨ net.isTerminal pivot then _ else _) = _ at hrun
  split at hrun
  · obtain rfl := Except.ok.inj hrun
    exact hmore
  · next hgoes =>
    obtain ⟨hlt, hterm⟩ := not_or.mp hgoes
    rw [hsize, Nat.not_le] at hlt
    have hpivot := hcounting.isGate_of_not_terminal hlt hterm
    obtain ⟨⟨k, mid⟩, hcone, hrun⟩ := bind_eq_ok hrun
    obtain ⟨-, hk, hfreed⟩ := hcounting.coneCost_eq hbase hpivot hcone
    dsimp only at hrun
    split at hrun
    · obtain rfl := Except.ok.inj hrun
      exact ⟨hmore.count, hmore.keys⟩
    · next hne =>
      have hmid : Tallied base cost sets (·.1 ∈ before)
          ⟨memory, mid, candidates, count, totalGain⟩ := ⟨h.count, h.keys⟩
      exact (tallied_collectCuts hmid ⟨k, hfreed, hk, hne⟩ hnew).post_of_eq hrun

section Pass

variable {accepts : Query → Network → Signal → Prop} {exact : Prop} {pivots : List NodeId}
  {memory : μ}

/-- What a feasible pass has collected from some of the pivots. -/
theorem Feasible.collected (hdemands : Demands exact accepts) (hbase : base.Proper)
    (h : Feasible permitted accepts base pivots oracle memory settings cost)
    (hcuts : base.enumerateCuts settings.cuts = .ok sets) {counted : Network}
    (hcounted : base.initReferenceCounts = .ok counted) {former rest : List NodeId}
    (hpivots : pivots = former ++ rest) :
    Ends permitted
      (former.foldlM (collectNode oracle settings cost sets) ⟨memory, counted, ∅, 0, 0⟩)
      (Collected base permitted cost (passTerms permitted cost settings.cuts.cutSize accepts)
        oracle (wantsDontCares settings oracle) exact (minGain settings.allowZeroGain) pivots
          (rest.length * settings.cuts.cutLimit)) := by
  obtain ⟨hsets, -⟩ := (enumerateCuts_ends hbase.wellFormed hbase.acyclic Never h.width h.limit_pos
    h.limit_lt).post_of_eq hcuts
  obtain ⟨scratch, hscratch, rfl⟩ :=
    (initReferenceCounts_ends hbase.wellFormed h.bounded).post_of_eq hcounted
  exact collectNodes_ends hdemands hbase h.bounded h.width hsets h.limit_pos
    (collected_start hbase h.bounded hscratch h.walks h.serves) hpivots

/-- All candidates are counted. -/
theorem Feasible.tallied (hdemands : Demands exact accepts) (hbase : base.Proper)
    (hnodup : pivots.Nodup)
    (h : Feasible permitted accepts base pivots oracle memory settings cost)
    (hcuts : base.enumerateCuts settings.cuts = .ok sets) {counted : Network}
    (hcounted : base.initReferenceCounts = .ok counted) :
    Ends Anything
      (pivots.foldlM (collectNode oracle settings cost sets) ⟨memory, counted, ∅, 0, 0⟩)
      (Tallied base cost sets (·.1 ∈ pivots)) := by
  refine Ends.foldlM_run (fun before => Tallied base cost sets (·.1 ∈ before))
    (tallied_start _ _ _ _ _ _) ?_
  intro before pivot after state hpivots hrun htallied
  have hcollected := (h.collected hdemands hbase hcuts hcounted hpivots).post_of_eq hrun
  have hnew : pivot ∉ before := by
    intro hmem
    rw [hpivots] at hnodup
    exact (List.nodup_append.mp hnodup).2.2 pivot hmem pivot List.mem_cons_self rfl
  rw [ends_anything_iff]
  exact fun state' => tallied_collectNode hbase hcollected.counting
    (below_of_enumerateCuts hcuts).1 htallied hnew

/-- The counts at the start are in range when they were found. -/
theorem readers_lt_of_initReferenceCounts (hwf : base.WellFormed) {counted : Network}
    (hcounted : base.initReferenceCounts = .ok counted) (m : NodeId) :
    base.readers m < Scratch.valueBound := by
  obtain ⟨_, hall, -⟩ := bind_eq_ok hcounted
  have hall := Array.all_eq_true_iff_forall_mem.mp (require_eq_ok hall)
  cases hm : base.nodes[m]? with
  | none =>
    rw [readers_eq_zero hwf (Array.getElem?_eq_none_iff.mp hm)]
    decide
  | some node =>
    rw [← hwf.fanout m node hm]
    exact of_decide_eq_true (hall node (Array.mem_of_getElem? hm))

/-- The candidates that were collected are those that become vertices. -/
theorem Collected.mem_candidates_iff {terms : Oracle.Terms} {wanted allowZeroGain : Bool} {k : Nat}
    {state : Collection μ} (h : Collected base permitted cost terms oracle wanted exact
      (minGain allowZeroGain) pivots k state) (hbase : base.Proper)
    (hrange : ∀ m, base.readers m < Scratch.valueBound)
    (htallied : Tallied base cost sets reached state) (p : NodeId) (i : Nat) :
    (p, i) ∈ state.candidates ↔
      state.net.IsCandidate cost allowZeroGain state.candidates.gains sets p i := by
  have hnet := h.counting
  constructor
  · intro hmem
    have hc := Std.HashMap.getElem?_eq_some_getElem hmem
    generalize state.candidates[(p, i)] = c at hc
    obtain ⟨-, hgate, hoffered⟩ := h.candidates p i c hc
    obtain ⟨-, hcut, cost', hfreed, hlt, hne⟩ := htallied.keys p i hmem
    have hp := lt_size_of_kindIs hgate
    refine ⟨(hnet.grown.kindIs_eq _ hp).trans hgate, ⟨cost', ?_, hne⟩, hcut, ?_⟩
    · -- The counts are those of the start again, so the cone has the cost that it had then.
      have hfreed' := hfreed.extends hnet.grown hbase.wellFormed hp
      rw [← hnet.counts] at hfreed'
      exact hfreed'.coneCost hnet.proper.wellFormed hnet.proper.acyclic
        (hp.trans_le hnet.grown.size_le) hlt (by rwa [hnet.counts])
    · rw [Candidates.gains, hc]
      exact hoffered.saves.least
  · intro hcandidate
    by_contra hout
    have hgain := hcandidate.gain
    -- A cut without a candidate has the gain `-1`, which is never enough.
    rw [Candidates.gains, Std.HashMap.getElem?_eq_none hout] at hgain
    change minGain allowZeroGain ≤ -1 at hgain
    have hnonneg := minGain_nonneg allowZeroGain
    omega

/-- The graph has a vertex for each candidate. -/
theorem vertices_eq_candidates {terms : Oracle.Terms} {wanted allowZeroGain : Bool} {k : Nat}
    {state : Collection μ} (h : Collected base permitted cost terms oracle wanted exact
      (minGain allowZeroGain) pivots k state) (hbase : base.Proper)
    (hrange : ∀ m, base.readers m < Scratch.valueBound)
    (htallied : Tallied base cost sets reached state) {g : CutGraph}
    (hgraph : state.net.IsCutGraph cost allowZeroGain state.candidates.gains sets g)
    (hwhole : g.graph.Whole) : g.graph.numVertices = state.count := by
  have hperm : g.origin.toList.Perm state.candidates.keys := by
    refine (List.perm_ext_iff_of_nodup hgraph.nodup Std.HashMap.nodup_keys).mpr ?_
    rintro ⟨p, i⟩
    rw [Array.mem_toList_iff, hgraph.mem_origin, Std.HashMap.mem_keys,
      h.mem_candidates_iff hbase hrange htallied]
  calc g.graph.numVertices = g.graph.capacity := hwhole
    _ = g.origin.size := hgraph.size.symm
    _ = state.candidates.keys.length := hperm.length_eq
    _ = state.count := Std.HashMap.length_keys.trans htallied.count.symm

/-- Every vertex that is chosen stands for a candidate. -/
theorem length_choices {candidates : Candidates} {allowZeroGain : Bool} {g : CutGraph}
    (hgraph : net.IsCutGraph cost allowZeroGain candidates.gains sets g)
    (hcandidates : ∀ p i, net.IsCandidate cost allowZeroGain candidates.gains sets p i →
      (p, i) ∈ candidates) {selected : List Nat} (hselected : g.graph.Independent selected) :
    (selected.filterMap (choiceOf? candidates g.origin)).length = selected.length := by
  rw [List.filterMap_length_eq_length]
  intro v hv
  have hlt := hgraph.graph.lt_of_isLive (hselected.live v hv)
  rw [← hgraph.size] at hlt
  obtain ⟨⟨p, i⟩, horigin⟩ : ∃ x, g.origin[v]? = some x := ⟨_, Array.getElem?_eq_getElem hlt⟩
  have hmem := hcandidates p i ((hgraph.mem_origin p i).mp (Array.mem_of_getElem? horigin))
  have hc := Std.HashMap.getElem?_eq_some_getElem hmem
  have hchoice : choiceOf? candidates g.origin v = some (p, candidates[(p, i)]) :=
    Option.bind_eq_some_iff.mpr ⟨_, horigin, Option.bind_eq_some_iff.mpr ⟨_, hc, rfl⟩⟩
  rw [hchoice]
  rfl

/-- Independent vertices are at most all vertices. -/
theorem length_selected_le {g : ConflictGraph} (h : g.WellFormed) (hwhole : g.Whole)
    {selected : List Nat} (hselected : g.Independent selected) :
    selected.length ≤ g.numVertices := by
  have hsub : selected ⊆ List.range g.capacity :=
    fun v hv => List.mem_range.mpr (h.lt_of_isLive (hselected.live v hv))
  have hle := (hselected.nodup.subperm hsub).length_le
  rwa [List.length_range, ← hwhole] at hle

/-- A plan has a vertex for each candidate, and chooses among the vertices. -/
theorem Feasible.planRewrite_counts (hdemands : Demands exact accepts) (hbase : base.Proper)
    (hnodup : pivots.Nodup)
    (h : Feasible permitted accepts base pivots oracle memory settings cost) :
    Ends permitted (base.planRewrite pivots oracle memory settings cost) fun plan =>
      plan.vertices = plan.candidates ∧ plan.chosen.length ≤ plan.vertices := by
  refine (enumerateCuts_ends hbase.wellFormed hbase.acyclic permitted h.width h.limit_pos
    h.limit_lt).bind_eq ?_
  rintro sets hcuts ⟨hsets, -⟩
  refine (initReferenceCounts_ends hbase.wellFormed h.bounded).bind_eq ?_
  rintro counted hcounted -
  refine (h.collected hdemands hbase hcuts hcounted (List.append_nil pivots).symm).bind_eq ?_
  rintro ⟨memory', net, candidates, count, totalGain⟩ hrun hcollected
  have htallied := (h.tallied hdemands hbase hnodup hcuts hcounted).post_of_eq hrun
  have hrange := readers_lt_of_initReferenceCounts hbase.wellFormed hcounted
  refine (cutGraph_ends hbase h.bounded hcollected.counting hsets.size settings.allowZeroGain
    candidates.gains).bind_eq ?_
  rintro ⟨g, net'⟩ hgraphed ⟨-, hgraph⟩
  have hwhole := (whole_cutGraph _ _ _ _ _).post_of_eq hgraphed
  refine (select_ends hgraph.graph settings.selection).bind ?_
  intro selected hselected
  refine ⟨vertices_eq_candidates hcollected hbase hrange htallied hgraph hwhole, ?_⟩
  refine (length_choices hgraph (fun p i => ?_) hselected).trans_le
    (length_selected_le hgraph.graph hwhole hselected)
  exact (hcollected.mem_candidates_iff hbase hrange htallied p i).mpr

/-! ### Counts are kept -/

/-- No node that was there has another count, and the counts of new nodes are zero. -/
structure KeepsCounts (net net' : Network) : Prop where
  size : net.size ≤ net'.size
  older : ∀ n < net.size, ∃ k, net.scratch.value n = .ok k ∧ net'.scratch.value n = .ok k
  newer : ∀ n, net.size ≤ n → n < net'.size → net'.scratch.value n = .ok 0

/-- Nothing at the start reads a node that is new since. -/
theorem Counting.keepsCounts (h : Counting base permitted cost base.readers net)
    (hbase : base.Proper) (h' : Counting base permitted cost base.readers net')
    (hext : net.Extends net') : net.KeepsCounts net' := by
  have hvalue : ∀ {net : Network}, Counting base permitted cost base.readers net →
      ∀ n < net.size, net.scratch.value n = .ok (base.readers n) := by
    intro net h n hn
    rw [Scratch.value_eq_ok (hn.trans_eq h.proper.wellFormed.values.symm), h.counts]
  refine ⟨hext.size_le, fun n hn => ⟨_, hvalue h n hn, hvalue h' n (hn.trans_le hext.size_le)⟩, ?_⟩
  intro n hnew hn
  rw [hvalue h' n hn, readers_eq_zero hbase.wellFormed (h.grown.size_le.trans hnew)]

/-- A pass comes to a pivot, with its cuts found, its counts made and the pivots before done. -/
inductive Visits (net : Network) (pivots : List NodeId) (oracle : Oracle μ) (memory : μ)
    (settings : RewriteSettings) (cost : NodeCost) (sets : CutSets) (pivot : NodeId)
    (state : Collection μ) : Prop
  | visit {counted : Network} {before after : List NodeId}
      (hcuts : net.enumerateCuts settings.cuts = .ok sets)
      (hcounted : net.initReferenceCounts = .ok counted)
      (hpivots : pivots = before ++ pivot :: after)
      (hrun : before.foldlM (collectNode oracle settings cost sets) ⟨memory, counted, ∅, 0, 0⟩ =
        .ok state) :
      Visits net pivots oracle memory settings cost sets pivot state

/-- A pass comes to a cut of a pivot that it does not skip, with the cuts before done. -/
inductive Tries (net : Network) (pivots : List NodeId) (oracle : Oracle μ) (memory : μ)
    (settings : RewriteSettings) (cost : NodeCost) (pivot : NodeId) (cut : Cut)
    (state : Collection μ) : Prop
  | try {sets : CutSets} {visited : Collection μ} {mid : Network} {k i : Nat}
      {before after : List (Cut × Nat)}
      (hvisits : Visits net pivots oracle memory settings cost sets pivot visited)
      (hexists : pivot < sets.size) (hgate : ¬ visited.net.isTerminal pivot = true)
      (hcone : visited.net.coneCost cost pivot = .ok (k, mid)) (hne : k ≠ 1)
      (hentries : (sets.of pivot).zipIdx = before ++ (cut, i) :: after)
      (hrun : before.foldlM (collectCut oracle settings cost pivot) { visited with net := mid } =
        .ok state) :
      Tries net pivots oracle memory settings cost pivot cut state

/-- Scoring a cut keeps the counts, whatever the oracle creates. -/
theorem tries_keep_counts (hdemands : Demands exact accepts) (hbase : base.Proper)
    (h : Feasible permitted accepts base pivots oracle memory settings cost) {pivot : NodeId}
    {cut : Cut} {state : Collection μ}
    (htries : Tries base pivots oracle memory settings cost pivot cut state) :
    Ends permitted (state.net.rewriteCut oracle state.memory settings cost pivot cut) fun r =>
      state.net.KeepsCounts r.2.2 := by
  obtain @⟨sets, visited, mid, k, i, before, after, hvisits, hexists, hterm, hcone, hne, hentries,
    hrun⟩ := htries
  obtain ⟨hcuts, hcounted, hpivots, hvisited⟩ := hvisits
  obtain ⟨hsets, -⟩ := (enumerateCuts_ends hbase.wellFormed hbase.acyclic Never h.width h.limit_pos
    h.limit_lt).post_of_eq hcuts
  have hcollected := (h.collected hdemands hbase hcuts hcounted hpivots).post_of_eq hvisited
  have hmem : pivot ∈ pivots := hpivots ▸ List.mem_append_right _ List.mem_cons_self
  have hpivot := hcollected.counting.isGate_of_not_terminal (hexists.trans_eq hsets.size) hterm
  obtain ⟨rfl, -⟩ := hcollected.counting.coneCost_eq hbase hpivot hcone
  rw [List.length_cons, Nat.succ_mul] at hcollected
  have hcollected' := (collectCuts_ends hdemands hbase h.bounded h.width hsets h.limit_pos hmem
    hpivot hcollected hentries).post_of_eq hrun
  have hcut : cut ∈ sets.of pivot := by
    obtain ⟨rfl, hcut⟩ := CutGraph.place_of_zipIdx_eq hentries
    exact List.mem_of_getElem? hcut
  refine (rewriteCut_ends hdemands hbase h.bounded h.width hpivot (hsets.sound pivot cut hcut)
    (hsets.narrow pivot cut hcut) hcollected'.counting hcollected'.walks
      hcollected'.serves).mono ?_
  exact fun r hr => hcollected'.counting.keepsCounts hbase hr.1 hr.2.1

end Pass

/-! ### The batch -/

/-- The choices that were gone through, and the gates that were replaced. -/
inductive Batch (net : Network) : List (NodeId × Candidate) → List NodeId → Network → Prop
  | start : Batch net [] [] net
  | pass {chosen : List (NodeId × Candidate)} {replaced : List NodeId} {mid : Network}
      {choice : NodeId × Candidate} (former : Batch net chosen replaced mid)
      (hrun : mid.applyCandidate choice.1 choice.2.replacement = .ok none) :
      Batch net (chosen ++ [choice]) replaced mid
  | replace {chosen : List (NodeId × Candidate)} {replaced : List NodeId} {mid net' : Network}
      {choice : NodeId × Candidate} (former : Batch net chosen replaced mid)
      (hrun : mid.applyCandidate choice.1 choice.2.replacement = .ok (some net')) :
      Batch net (chosen ++ [choice]) (replaced ++ [choice.1]) net'

theorem Batch.sublist {chosen : List (NodeId × Candidate)} {replaced : List NodeId}
    (h : Batch net chosen replaced net') : replaced.Sublist (chosen.map Prod.fst) := by
  induction h with
  | start => exact .refl _
  | pass _ _ ih =>
    rw [List.map_append]
    exact ih.trans (List.sublist_append_left _ _)
  | replace _ _ ih =>
    rw [List.map_append]
    exact ih.append (.refl _)

/-- The gates that are replaced are counted. -/
theorem batch_applyChoices (net : Network) (chosen : List (NodeId × Candidate)) :
    Ends Anything (net.applyChoices chosen) fun r =>
      ∃ replaced, Batch net chosen replaced r.2 ∧ replaced.length = r.1 := by
  refine Ends.foldlM_prefix (fun before (state : Nat × Network) =>
    ∃ replaced, Batch net before replaced state.2 ∧ replaced.length = state.1) ⟨[], .start, rfl⟩ ?_
  rintro before choice after ⟨count, mid⟩ - ⟨replaced, hbatch, rfl⟩
  rw [ends_anything_iff]
  intro state' hrun
  obtain ⟨applied, happly, hrun⟩ := bind_eq_ok hrun
  cases applied with
  | none =>
    obtain rfl := Except.ok.inj hrun
    exact ⟨replaced, hbatch.pass happly, rfl⟩
  | some net' =>
    obtain rfl := Except.ok.inj hrun
    exact ⟨_, hbatch.replace happly, List.length_append⟩

/-- Scoring keeps the counts, and the statistics are consistent. In a pass over distinct pivots,
with an oracle that only creates gates, each cut is scored with no count changed, unless there is a
permitted fault. At the end there are as many vertices as candidates, not more choices than
vertices, and not more substitutions than choices. The gates that are replaced are pivots, and
different ones. -/
theorem scoring_keeps_statistics_consistent (hbuilt : net.Built) (hac : net.Acyclic)
    {pivots : List NodeId} (hnodup : pivots.Nodup) {memory : μ}
    (hfeasible : Feasible permitted Query.Existing net pivots oracle memory settings cost) :
    (∀ pivot cut state, Tries net pivots oracle memory settings cost pivot cut state →
      Ends permitted (state.net.rewriteCut oracle state.memory settings cost pivot cut) fun r =>
        state.net.KeepsCounts r.2.2) ∧
    Ends permitted (net.rewritePivots pivots oracle memory settings cost) fun r =>
      r.1.vertices = r.1.candidates ∧ r.1.selected ≤ r.1.vertices ∧
        r.1.substitutions ≤ r.1.selected ∧
          ∃ plan replaced, net.planRewrite pivots oracle memory settings cost = .ok plan ∧
            Batch plan.net plan.chosen replaced r.2.2 ∧
              replaced.length = r.1.substitutions ∧ replaced.Nodup ∧ replaced ⊆ pivots := by
  have hnet : net.Proper := ⟨hbuilt.wellFormed, hac⟩
  refine ⟨fun _ _ _ => tries_keep_counts demands_existing hnet hfeasible, ?_⟩
  have hcounts := hfeasible.planRewrite_counts demands_existing hnet hnodup
  refine (hfeasible.planRewrite_ends demands_existing hnet).bind_eq ?_
  intro plan hrun hplan
  obtain ⟨hvertices, hchosen⟩ := hcounts.post_of_eq hrun
  refine (hplan.applyChoices_ends (List.Subset.refl _)).bind_eq ?_
  rintro ⟨count, net'⟩ happly hrewired
  obtain ⟨replaced, hbatch, rfl⟩ := (batch_applyChoices _ _).post_of_eq happly
  refine (Ends.require (.inl hrewired.proper.isEmpty_cycleNodes)).bind fun _ _ => ?_
  have hsub := hbatch.sublist
  have hdistinct : (plan.chosen.map Prod.fst).Nodup := List.pairwise_map.mpr hplan.distinct
  refine ⟨hvertices, hchosen, ?_, plan, replaced, hrun, hbatch, rfl, hdistinct.sublist hsub, ?_⟩
  · have hle := hsub.length_le
    rwa [List.length_map] at hle
  · intro n hn
    obtain ⟨choice, hchoice, rfl⟩ := List.mem_map.mp (hsub.subset hn)
    exact (hplan.pivots choice hchoice).1

theorem feasible_eachLeaf_conjunctionOfThree (pivots : List NodeId) :
    Feasible Never Query.Existing conjunctionOfThree pivots .eachLeaf () {} unitCost := by
  have hbounded : Bounded Never unitCost conjunctionOfThree := .inl (by decide)
  exact feasible_default hbounded (Oracle.serves_eachLeaf (fun _ => hbounded) fun _ _ _ h => h)

/-- The outer one of two conjunctions has a cut of three leaves, which a pass over it comes to. -/
theorem exists_tries_conjunctionOfThree : ∃ cut state, cut.leaves = [1, 2, 3] ∧
    Tries conjunctionOfThree [5] .eachLeaf () {} unitCost 5 cut state := by
  have hbuilt := built_conjunctionOfThree
  have hfeasible := feasible_eachLeaf_conjunctionOfThree [5]
  obtain ⟨sets, hcuts, hsets, -⟩ := ends_never_iff.mp (enumerateCuts_ends hbuilt.wellFormed
    acyclic_conjunctionOfThree Never hfeasible.width hfeasible.limit_pos hfeasible.limit_lt)
  obtain ⟨_, hcounted, scratch, -, rfl⟩ :=
    ends_never_iff.mp (initReferenceCounts_ends hbuilt.wellFormed hfeasible.bounded)
  have hvisits : Visits conjunctionOfThree [5] .eachLeaf () {} unitCost sets 5
      ⟨(), conjunctionOfThree.withScratch scratch, ∅, 0, 0⟩ :=
    .visit hcuts hcounted (List.nil_append [5]).symm rfl
  have hleaves : (conjunctionOfThree.enumerateCuts {}).toOption.map
      (fun sets => (sets.of 5).map Cut.leaves) = some [[3, 4], [1, 2, 3], [5]] := by cbv
  rw [hcuts] at hleaves
  obtain ⟨first, rest, hof, hfirst, hrest⟩ := List.map_eq_cons_iff.mp (Option.some.inj hleaves)
  obtain ⟨cut, last, rfl, hcut, -⟩ := List.map_eq_cons_iff.mp hrest
  have hentries : (sets.of 5).zipIdx = [(first, 0)] ++ (cut, 1) :: last.zipIdx 2 := by
    rw [hof]
    rfl
  have hgate : ¬ conjunctionOfThree.isTerminal 5 = true := by decide
  have hcost : (conjunctionOfThree.initReferenceCounts >>= fun net =>
      (net.coneCost unitCost 5).map Prod.fst).toOption = some 2 := by decide +kernel
  rw [hcounted, ok_bind] at hcost
  cases hcone : (conjunctionOfThree.withScratch scratch).coneCost unitCost 5 with
  | error fault =>
    rw [hcone] at hcost
    cases hcost
  | ok r =>
    rw [hcone] at hcost
    obtain ⟨k, mid⟩ := r
    obtain rfl : k = 2 := Option.some.inj hcost
    -- The cut before it has two leaves, which is not worth a query.
    have hnarrow : first.size ≤ 2 := (congrArg List.length hfirst).le
    have hbefore : [(first, 0)].foldlM (collectCut .eachLeaf {} unitCost 5) ⟨(), mid, ∅, 0, 0⟩ =
        .ok ⟨(), mid, ∅, 0, 0⟩ := by
      rw [List.foldlM_cons, collectCut, rewriteCut, if_pos hnarrow]
      rfl
    exact ⟨cut, _, hcut,
      .try hvisits (hsets.size ▸ by decide) hgate hcone (by decide) hentries hbefore⟩

/-- The outer one of two conjunctions is replaced by an input. -/
theorem scoring_keeps_statistics_consistent_conjunctionOfThree :
    (∃ cut state r, cut.leaves = [1, 2, 3] ∧
      Tries conjunctionOfThree [5] .eachLeaf () {} unitCost 5 cut state ∧
      state.net.rewriteCut .eachLeaf state.memory {} unitCost 5 cut = .ok r ∧
      state.net.KeepsCounts r.2.2) ∧
    ∃ r, conjunctionOfThree.rewritePivots [5] .eachLeaf () {} unitCost = .ok r ∧
      r.1.substitutions = 1 ∧ r.1.substitutions ≤ r.1.selected ∧ r.1.selected ≤ r.1.vertices ∧
      r.1.vertices = r.1.candidates := by
  obtain ⟨hkeeps, hreport⟩ := scoring_keeps_statistics_consistent built_conjunctionOfThree
    acyclic_conjunctionOfThree (List.nodup_singleton 5)
    (feasible_eachLeaf_conjunctionOfThree [5])
  constructor
  · obtain ⟨cut, state, hleaves, htries⟩ := exists_tries_conjunctionOfThree
    obtain ⟨r, hrun, hr⟩ := ends_never_iff.mp (hkeeps 5 cut state htries)
    exact ⟨cut, state, r, hleaves, htries, hrun, hr⟩
  · obtain ⟨r, hrun, hvertices, hselected, hsubstitutions, -⟩ := ends_never_iff.mp hreport
    have hone : (conjunctionOfThree.rewritePivots [5] .eachLeaf () {} unitCost).toOption.map
        (fun r => r.1.substitutions) = some 1 := by cbv
    rw [hrun] at hone
    exact ⟨r, hrun, Option.some.inj hone, hsubstitutions, hselected, hvertices⟩

end Network
end LogicSynthesis
