import LogicSynthesis.Proofs.ConflictGraph.Greedy

/-!
# What the selectors guarantee

Whatever the rule, picking until no vertex is left gives a maximal independent set, so both ways of
choosing do. The greedy rule also bounds the weight from below: a pick weighs at least as much as
the ratios of all vertices that go with it add up to, since each of these is at most its own and
there are as many of them as its degree plus one. The ratios of the vertices that stay can only
grow, as they lose neighbours. So the picks together weigh at least as much as the ratios of all
vertices at the start.

## Main definitions

- `ConflictGraph.ratioWithin` — weight against degree plus one among the vertices that are left
- `ConflictGraph.MaximalIndependent` — an independent set to which no vertex can be added

## Main statements

- `Picks.sum_ratio_le` — the bound for any picks by the greedy rule
- `gwmin_outweighs_ratios` — the bound for choosing by rank
- `gwmin_ends`, `maximal_ends` — both selectors succeed
- `selectors_choose_maximal` — counters are exact, and both selectors choose maximal independent
  sets
-/

namespace LogicSynthesis.ConflictGraph

variable {permitted : Fault → Prop} {g : ConflictGraph} {S T : Finset Nat} {v w : Nat}
  {picks : List Nat}

/-! ### Weight -/

/-- The weight of a vertex against its degree plus one, when the vertices of `S` are left. -/
def ratioWithin (g : ConflictGraph) (S : Finset Nat) (v : Nat) : ℚ :=
  g.weight v / (g.degreeWithin S v + 1)

theorem Foremost.ratio_le (h : g.Foremost S v) (hw : w ∈ S) :
    g.ratioWithin S w ≤ g.ratioWithin S v := by
  rcases Prod.Lex.toLex_le_toLex.mp (h w hw) with hlt | heq
  · exact hlt.le
  · exact heq.1.le

/-- A vertex that loses neighbours has a greater ratio. -/
theorem ratioWithin_anti (hsub : T ⊆ S) (v : Nat) : g.ratioWithin S v ≤ g.ratioWithin T v := by
  have hdegree : g.degreeWithin T v ≤ g.degreeWithin S v :=
    Finset.card_le_card (Finset.filter_subset_filter _ hsub)
  have hdegree' : (g.degreeWithin T v : ℚ) + 1 ≤ g.degreeWithin S v + 1 := by
    exact_mod_cast Nat.add_le_add_right hdegree 1
  exact div_le_div_of_nonneg_left (by positivity) (by positivity) hdegree'

/-- The vertices that go with a pick: the pick and its neighbours that are left. -/
theorem card_inter_closedNeighborhood (hwf : g.WellFormed) (hv : v ∈ S) :
    (S ∩ g.closedNeighborhood v).card = g.degreeWithin S v + 1 := by
  have hset : S ∩ g.closedNeighborhood v = insert v {w ∈ S | g.hasEdge v w} := by
    ext w
    rw [Finset.mem_inter, mem_closedNeighborhood, Finset.mem_insert, Finset.mem_filter,
      hasEdge_iff]
    constructor
    · rintro ⟨hw, rfl | hadj⟩
      · exact .inl rfl
      · exact .inr ⟨hw, hadj⟩
    · rintro (rfl | ⟨hw, hadj⟩)
      · exact ⟨hv, .inl rfl⟩
      · exact ⟨hw, .inr hadj⟩
  rw [hset, Finset.card_insert_of_notMem, degreeWithin]
  rw [Finset.mem_filter, hasEdge_iff]
  exact fun hmem => hwf.irreflexive v hmem.2

/-- A pick weighs at least what the ratios of the vertices that go with it add up to. -/
theorem Foremost.sum_ratio_le (hwf : g.WellFormed) (h : g.Foremost S v) (hv : v ∈ S) :
    ∑ w ∈ S ∩ g.closedNeighborhood v, g.ratioWithin S w ≤ g.weight v :=
  calc
    _ ≤ (S ∩ g.closedNeighborhood v).card • g.ratioWithin S v :=
      Finset.sum_le_card_nsmul _ _ _ fun w hw => h.ratio_le (Finset.mem_inter.mp hw).1
    _ = (g.degreeWithin S v + 1) * g.ratioWithin S v := by
      rw [card_inter_closedNeighborhood hwf hv, nsmul_eq_mul, Nat.cast_add, Nat.cast_one]
    _ = g.weight v := mul_div_cancel₀ _ (by positivity)

/-- Picks by the greedy rule weigh at least what the ratios at the start add up to. -/
theorem Picks.sum_ratio_le (hwf : g.WellFormed) (h : g.Picks g.Foremost S picks) :
    ∑ v ∈ S, g.ratioWithin S v ≤ (picks.map fun v => (g.weight v : ℚ)).sum := by
  induction h with
  | done => exact le_rfl
  | @pick S v vs hv hbest _ ih =>
    have hstay : ∑ w ∈ S \ g.closedNeighborhood v, g.ratioWithin S w ≤
        ∑ w ∈ S \ g.closedNeighborhood v, g.ratioWithin (S \ g.closedNeighborhood v) w :=
      Finset.sum_le_sum fun w _ => ratioWithin_anti Finset.sdiff_subset w
    rw [← Finset.sum_inter_add_sum_sdiff S (g.closedNeighborhood v), List.map_cons, List.sum_cons]
    exact add_le_add (hbest.sum_ratio_le hwf hv) (hstay.trans ih)

/-- The vertices chosen by rank weigh at least as much as the ratios of all live vertices, with the
degrees at the start, add up to. -/
theorem gwmin_outweighs_ratios (h : g.Assembled) :
    ∃ chosen left, g.gwmin = .ok (chosen, left) ∧
      ∑ v ∈ g.liveSet, (g.weight v : ℚ) / (g.degree v + 1) ≤
        (chosen.map fun v => (g.weight v : ℚ)).sum := by
  obtain ⟨⟨chosen, left⟩, hrun, hpicks, -⟩ := ends_never_iff.mp (gwmin_completes h.wellFormed)
  refine ⟨chosen, left, hrun, ?_⟩
  have hratio : ∀ v ∈ g.liveSet,
      (g.weight v : ℚ) / (g.degree v + 1) = g.ratioWithin g.liveSet v := by
    intro v hv
    rw [(Induced.start h.wellFormed).degree hv, ratioWithin]
  rw [Finset.sum_congr rfl hratio]
  exact hpicks.sum_ratio_le h.wellFormed

theorem gwmin_outweighs_ratios_star :
    star.Assembled ∧ ∃ chosen left, star.gwmin = .ok (chosen, left) ∧
      ∑ v ∈ star.liveSet, (star.weight v : ℚ) / (star.degree v + 1) ≤
        (chosen.map fun v => (star.weight v : ℚ)).sum :=
  ⟨assembled_star, gwmin_outweighs_ratios assembled_star⟩

/-- With weights of 32 bits and at most `2 ^ 32` vertices, each product that compares two ranks has
at most 64 bits. -/
theorem product_lt (h : g.WellFormed) (hcapacity : g.capacity ≤ 2 ^ 32)
    (hweight : g.weight v < 2 ^ 32) (hw : g.isLive w = true) :
    g.weight v * (g.degree w + 1) < 2 ^ 64 := by
  have hmem := h.mem_liveSet.mpr hw
  have hdegree : g.degree w + 1 ≤ g.capacity := by
    rw [(Induced.start h).degree hmem, ← card_inter_closedNeighborhood h hmem]
    refine (Finset.card_le_card Finset.inter_subset_left).trans ?_
    exact (Finset.card_filter_le _ _).trans_eq (Finset.card_range _)
  calc
    g.weight v * (g.degree w + 1) ≤ g.weight v * 2 ^ 32 :=
      Nat.mul_le_mul_left _ (hdegree.trans hcapacity)
    _ < 2 ^ 32 * 2 ^ 32 := Nat.mul_lt_mul_of_pos_right hweight (by decide)
    _ = 2 ^ 64 := by decide

/-! ### Maximality -/

/-- A maximal independent set: every other live vertex is joined to a chosen one. -/
structure MaximalIndependent (g : ConflictGraph) (chosen : List Nat) : Prop
    extends g.Independent chosen where
  covers : ∀ v, g.isLive v = true → v ∉ chosen → ∃ w ∈ chosen, g.hasEdge v w = true

/-- Picking until no live vertex is left. -/
theorem Picks.maximalIndependent {rule : Finset Nat → Nat → Prop} (hwf : g.WellFormed)
    (h : g.Picks rule g.liveSet picks) : g.MaximalIndependent picks := by
  refine ⟨h.independent hwf fun v hv => hwf.mem_liveSet.mp hv, fun v hlive hout => ?_⟩
  obtain ⟨w, hw, hadj⟩ := h.covers v (hwf.mem_liveSet.mpr hlive) hout
  exact ⟨w, hw, hasEdge_iff.mpr (hwf.symmetric w v hadj)⟩

/-- Both ways of choosing find a maximal independent set and leave no vertex. -/
theorem gwmin_ends (h : g.WellFormed) :
    Ends permitted g.gwmin fun r => g.MaximalIndependent r.1 ∧ g.Induced ∅ r.2 :=
  (gwmin_completes h).mono fun _ hr => ⟨hr.1.maximalIndependent h, hr.2⟩

theorem maximal_ends (h : g.WellFormed) :
    Ends permitted g.maximal fun r => g.MaximalIndependent r.1 ∧ g.Induced ∅ r.2 :=
  (maximal_completes h).mono fun _ hr => ⟨hr.1.maximalIndependent h, hr.2⟩

/-- The counters of an assembled graph are exact, live vertices alone are joined, and both ways of
choosing find a maximal independent set and leave nothing. -/
theorem selectors_choose_maximal (h : g.Assembled) :
    g.numVertices = g.liveSet.card ∧ g.numEdges = g.livePairs.card ∧
      (∀ v w, g.hasEdge v w = true →
        v ≠ w ∧ g.hasEdge w v = true ∧ g.isLive v = true ∧ g.isLive w = true) ∧
      ∀ select ∈ [gwmin, maximal], ∃ chosen left, select g = .ok (chosen, left) ∧
        g.MaximalIndependent chosen ∧ left.numVertices = 0 ∧ left.numEdges = 0 := by
  have hwf := h.wellFormed
  refine ⟨h.counted.vertices, h.counted.edges, fun v w hedge => ?_, fun select hselect => ?_⟩
  · have hadj := hasEdge_iff.mp hedge
    have hback := hwf.symmetric v w hadj
    refine ⟨?_, hasEdge_iff.mpr hback, hwf.live w v hback, hwf.live v w hadj⟩
    rintro rfl
    exact hwf.irreflexive v hadj
  · have hends : Ends Never (select g) fun r => g.MaximalIndependent r.1 ∧ g.Induced ∅ r.2 := by
      rcases List.mem_pair.mp hselect with rfl | rfl
      · exact gwmin_ends hwf
      · exact maximal_ends hwf
    obtain ⟨⟨chosen, left⟩, hrun, hchosen, hleft⟩ := ends_never_iff.mp hends
    exact ⟨chosen, left, hrun, hchosen, hleft.counters_eq_zero h.counted⟩

theorem selectors_choose_maximal_star :
    star.Assembled ∧ star.numVertices = star.liveSet.card ∧
      star.numEdges = star.livePairs.card ∧
        (∀ v w, star.hasEdge v w = true →
          v ≠ w ∧ star.hasEdge w v = true ∧ star.isLive v = true ∧ star.isLive w = true) ∧
        ∀ select ∈ [gwmin, maximal], ∃ chosen left, select star = .ok (chosen, left) ∧
          star.MaximalIndependent chosen ∧ left.numVertices = 0 ∧ left.numEdges = 0 :=
  ⟨assembled_star, selectors_choose_maximal assembled_star⟩

end LogicSynthesis.ConflictGraph
