import LogicSynthesis.Proofs.ConflictGraph.Picks
import LogicSynthesis.Proofs.LeftistHeap

/-!
# The greedy rule

Choosing by rank follows a rule that mentions neither a heap nor entries: while vertices are left,
take the one whose weight is the greatest against its degree plus one, where the degree counts the
neighbours that are left; among equals the one of the greatest degree, and of these the earliest.

Ranks are compared by cross-multiplication, and this is the order of the ratios as rational
numbers. The heap may hold entries that are out of date, but it holds the present rank of every
vertex that is left. An entry that states the present degree of a vertex that is left is its
present rank, so the first such entry that is handed out is the greatest of all present ranks.

## Main definitions

- `Rank.key` — a rank as an element of a linear order
- `ConflictGraph.priority`, `ConflictGraph.Foremost` — the rule
- `ConflictGraph.Entered` — what the heap knows of the vertices that are left

## Main statements

- `Rank.le_iff` — the comparison of ranks is that of their keys
- `Entered.take` — every vertex that loses degree is entered again
- `gwmin_completes` — choosing by rank picks by the rule
- `gwmin_follows_greedy_rule` — the rule permits the chosen sequence and no other
-/

namespace LogicSynthesis

namespace Rank

/-- The ratio of the weight to the degree plus one, then the degree, then the vertex, of which an
earlier one counts as greater. -/
def key (r : Rank) : ℚ ×ₗ ℕ ×ₗ ℕᵒᵈ :=
  toLex ((r.weight : ℚ) / (r.degree + 1), toLex (r.degree, OrderDual.toDual r.vertex))

/-- Cross-multiplication compares the ratios exactly. -/
theorem le_iff {a b : Rank} : Rank.le a b = true ↔ a.key ≤ b.key := by
  have hpos : ∀ r : Rank, (0 : ℚ) < r.degree + 1 := fun r => by positivity
  have hlt : (a.weight : ℚ) / (a.degree + 1) < b.weight / (b.degree + 1) ↔
      a.weight * (b.degree + 1) < b.weight * (a.degree + 1) := by
    rw [div_lt_div_iff₀ (hpos a) (hpos b)]
    exact_mod_cast Iff.rfl
  have heq : (a.weight : ℚ) / (a.degree + 1) = b.weight / (b.degree + 1) ↔
      a.weight * (b.degree + 1) = b.weight * (a.degree + 1) := by
    rw [div_eq_div_iff (hpos a).ne' (hpos b).ne']
    exact_mod_cast Iff.rfl
  rw [key, key, Prod.Lex.toLex_le_toLex, Prod.Lex.toLex_le_toLex, hlt, heq, le, order,
    Ordering.isLE_then_iff_or, Ordering.isLE_then_iff_or, compare_lt_iff_lt, compare_eq_iff_eq,
    compare_lt_iff_lt, compare_eq_iff_eq, Nat.isLE_compare]
  exact Iff.rfl

theorem total (a b : Rank) : Rank.le a b = true ∨ Rank.le b a = true := by
  rw [le_iff, le_iff]
  exact le_total _ _

theorem trans (a b c : Rank) (hab : Rank.le a b = true) (hbc : Rank.le b c = true) :
    Rank.le a c = true := by
  rw [le_iff] at *
  exact hab.trans hbc

end Rank

namespace ConflictGraph

variable {permitted : Fault → Prop} {g left next : ConflictGraph} {S : Finset Nat} {u v w : Nat}
  {heap rest : LeftistHeap Rank} {r top : Rank}

/-! ### The rule -/

/-- What the rule goes by when the vertices of `S` are left: the ratio of the weight to the degree
plus one, then the degree, then the vertex, of which an earlier one counts as greater. -/
def priority (g : ConflictGraph) (S : Finset Nat) (v : Nat) : ℚ ×ₗ ℕ ×ₗ ℕᵒᵈ :=
  toLex ((g.weight v : ℚ) / (g.degreeWithin S v + 1),
    toLex (g.degreeWithin S v, OrderDual.toDual v))

/-- No vertex that is left comes before `v`. -/
def Foremost (g : ConflictGraph) (S : Finset Nat) (v : Nat) : Prop :=
  ∀ w ∈ S, g.priority S w ≤ g.priority S v

theorem priority_injective (g : ConflictGraph) (S : Finset Nat) :
    Function.Injective (g.priority S) := by
  intro v w heq
  exact congrArg (fun p => OrderDual.ofDual (ofLex (ofLex p).2).2) heq

/-- There is one foremost vertex at most. -/
theorem Foremost.unique (hv : g.Foremost S v) (hw : g.Foremost S w) (hvS : v ∈ S) (hwS : w ∈ S) :
    v = w :=
  g.priority_injective S (le_antisymm (hw v hvS) (hv w hwS))

/-- The rank of a vertex in a part of a graph is its priority there. -/
theorem Induced.key_rankOf (h : g.Induced S left) (hv : v ∈ S) :
    (left.rankOf v).key = g.priority S v := by
  rw [Rank.key, rankOf, h.degree hv, h.weight]
  rfl

/-! ### Entries -/

/-- The heap has an entry with the present rank of every vertex that is left, and no entry with a
wrong weight. -/
structure Entered (left : ConflictGraph) (S : Finset Nat) (heap : LeftistHeap Rank) : Prop where
  ordered : heap.Ordered Rank.le
  present : ∀ v ∈ S, left.rankOf v ∈ heap.toList
  weight : ∀ r ∈ heap.toList, r.weight = left.weight r.vertex

theorem mem_enter (vs : List Nat) :
    r ∈ (g.enter vs heap).toList ↔
      (∃ u ∈ vs, g.isLive u = true ∧ g.rankOf u = r) ∨ r ∈ heap.toList := by
  rw [enter, ← List.foldl_map (f := g.rankOf)
    (g := fun heap r => LeftistHeap.insert Rank.le r heap),
    LeftistHeap.mem_insertAll, List.mem_map]
  simp only [List.mem_filter, and_assoc]

/-- The vertices found are the neighbours of neighbours. -/
theorem mem_secondNeighbors :
    u ∈ g.secondNeighbors v ↔ ∃ w ∈ g.adjacency v, u ∈ g.adjacency w := by
  have hinsert : ∀ (us : List Nat) (found : Std.TreeSet Nat),
      u ∈ us.foldl (fun found u => found.insert u) found ↔ u ∈ us ∨ u ∈ found := by
    intro us
    induction us with
    | nil => simp
    | cons a us ih =>
      intro found
      rw [List.foldl_cons, ih, Std.TreeSet.mem_insert, Std.LawfulEqCmp.compare_eq_iff_eq,
        List.mem_cons, eq_comm]
      tauto
  rw [secondNeighbors, Std.TreeSet.mem_toList, ← List.foldl_flatMap, hinsert, List.mem_flatMap]
  simp only [mem_neighbors, Std.TreeSet.not_mem_emptyc, or_false]

theorem entered_ofList (h : g.Induced S left) :
    left.Entered S (LeftistHeap.ofList Rank.le (left.liveVertices.map left.rankOf)) := by
  have hmem : ∀ r, r ∈ (LeftistHeap.ofList Rank.le (left.liveVertices.map left.rankOf)).toList ↔
      ∃ u ∈ left.liveVertices, left.rankOf u = r := by
    intro r
    rw [LeftistHeap.ofList, LeftistHeap.mem_insertAll, List.mem_map]
    exact or_iff_left List.not_mem_nil
  refine ⟨LeftistHeap.Ordered.insertAll Rank.total Rank.trans _ _ trivial, fun v hv => ?_, ?_⟩
  · have hlive := (h.isLive v).mpr hv
    have hlt := h.wellFormed.lt_of_isLive hlive
    exact (hmem _).mpr ⟨v, List.mem_filter.mpr ⟨List.mem_range.mpr hlt, hlive⟩, rfl⟩
  · intro r hr
    obtain ⟨u, -, rfl⟩ := (hmem r).mp hr
    rfl

/-- An entry that states the present degree of a live vertex is its present rank. -/
theorem Entered.eq_rankOf (h : left.Entered S heap) (hr : r ∈ heap.toList)
    (hcurrent : left.isCurrent r = true) : left.rankOf r.vertex = r := by
  rw [isCurrent, Bool.and_eq_true, beq_iff_eq] at hcurrent
  rw [rankOf, hcurrent.2, ← h.weight r hr]

/-- Passing over an entry that is out of date. -/
theorem Entered.skip (h : left.Entered S heap) (hinduced : g.Induced S left)
    (hpop : heap.pop? Rank.le = some (top, rest)) (hstale : ¬ left.isCurrent top = true) :
    left.Entered S rest := by
  refine ⟨(h.ordered.of_pop? Rank.total Rank.trans hpop).1, fun v hv => ?_, fun r hr => ?_⟩
  · refine ((LeftistHeap.mem_of_pop? hpop).mp (h.present v hv)).resolve_left fun heq => hstale ?_
    rw [← heq, isCurrent, Bool.and_eq_true, beq_iff_eq]
    exact ⟨(hinduced.isLive v).mpr hv, rfl⟩
  · exact h.weight r ((LeftistHeap.mem_of_pop? hpop).mpr (.inr hr))

/-- The first entry that is not out of date is that of the foremost vertex. -/
theorem Entered.foremost (h : left.Entered S heap) (hinduced : g.Induced S left)
    (hpop : heap.pop? Rank.le = some (top, rest)) (hcurrent : left.isCurrent top = true) :
    top.vertex ∈ S ∧ g.Foremost S top.vertex := by
  have htop := h.eq_rankOf ((LeftistHeap.mem_of_pop? hpop).mpr (.inl rfl)) hcurrent
  have hlive := hcurrent
  rw [isCurrent, Bool.and_eq_true] at hlive
  have hv := (hinduced.isLive _).mp hlive.1
  refine ⟨hv, fun w hw => ?_⟩
  have hle := (h.ordered.of_pop? Rank.total Rank.trans hpop).2 _ (h.present w hw)
  rwa [← htop, Rank.le_iff, hinduced.key_rankOf hw, hinduced.key_rankOf hv] at hle

/-- A vertex that is left, and not among the neighbours of the neighbours of the one that was
taken, keeps its degree. -/
theorem degree_eq_of_not_mem_secondNeighbors (hinduced : g.Induced S left)
    (hnext : g.Induced (S \ g.closedNeighborhood v) next) (hv : v ∈ S)
    (hw : w ∈ S \ g.closedNeighborhood v) (hout : w ∉ left.secondNeighbors v) :
    next.degree w = left.degree w := by
  have hwS := (mem_sdiff_closedNeighborhood.mp hw).1
  have hsymm := hinduced.wellFormed.symmetric
  rw [hnext.degree hw, hinduced.degree hwS, degreeWithin, degreeWithin]
  congr 1
  ext u
  rw [Finset.mem_filter, Finset.mem_filter, hasEdge_iff, and_congr_left_iff]
  intro hadj
  refine ⟨fun hu => (mem_sdiff_closedNeighborhood.mp hu).1, fun hu => ?_⟩
  have hadj' : u ∈ left.adjacency w := (hinduced.adjacency w u).mpr ⟨hadj, hwS, hu⟩
  refine mem_sdiff_closedNeighborhood.mpr ⟨hu, ?_, fun hvu => hout ?_⟩
  · rintro rfl
    have hback := (hinduced.adjacency _ _).mp (hsymm _ _ hadj')
    exact (mem_sdiff_closedNeighborhood.mp hw).2.2 hback.1
  · exact mem_secondNeighbors.mpr
      ⟨u, (hinduced.adjacency v u).mpr ⟨hvu, hv, hu⟩, hsymm _ _ hadj'⟩

/-- Taking the vertex of the first entry. The vertices that lose degree are entered again, and the
entries of the others are still right. -/
theorem Entered.take (h : left.Entered S heap) (hinduced : g.Induced S left)
    (hpop : heap.pop? Rank.le = some (top, rest)) (hv : top.vertex ∈ S)
    (hnext : g.Induced (S \ g.closedNeighborhood top.vertex) next) :
    next.Entered (S \ g.closedNeighborhood top.vertex)
      (next.enter (left.secondNeighbors top.vertex) rest) := by
  have hweight : ∀ w, next.weight w = left.weight w := fun w =>
    (hnext.weight w).trans (hinduced.weight w).symm
  refine ⟨?_, fun w hw => ?_, fun r hr => ?_⟩
  · rw [enter, ← List.foldl_map (f := next.rankOf)
      (g := fun heap r => LeftistHeap.insert Rank.le r heap)]
    exact .insertAll Rank.total Rank.trans _ _ (h.ordered.of_pop? Rank.total Rank.trans hpop).1
  · obtain ⟨hwS, hne, -⟩ := mem_sdiff_closedNeighborhood.mp hw
    by_cases hsecond : w ∈ left.secondNeighbors top.vertex
    · exact (mem_enter _).mpr (.inl ⟨w, hsecond, (hnext.isLive w).mpr hw, rfl⟩)
    · have hrank : next.rankOf w = left.rankOf w := by
        rw [rankOf, rankOf, hweight,
          degree_eq_of_not_mem_secondNeighbors hinduced hnext hv hw hsecond]
      refine (mem_enter _).mpr (.inr ?_)
      rw [hrank]
      refine ((LeftistHeap.mem_of_pop? hpop).mp (h.present w hwS)).resolve_left fun heq => hne ?_
      rw [← heq]
      rfl
  · rcases (mem_enter _).mp hr with ⟨u, -, -, rfl⟩ | hr
    · rfl
    · rw [hweight]
      exact h.weight r ((LeftistHeap.mem_of_pop? hpop).mpr (.inr hr))

/-! ### The run -/

theorem gwminLoop_completes (left : ConflictGraph) (heap : LeftistHeap Rank) (chosen : List Nat)
    {S : Finset Nat} (h : g.Induced S left) (hentered : left.Entered S heap) :
    Ends permitted (left.gwminLoop heap chosen) (g.Completes g.Foremost S chosen) := by
  -- The cases are those of the loop: the heap is empty, a step fails, goes on, or is passed over.
  induction left, heap, chosen using gwminLoop.induct generalizing S with
  | case1 left heap chosen hpop =>
    have hempty := LeftistHeap.toList_of_pop?_eq_none hpop
    obtain rfl : S = ∅ := Finset.eq_empty_of_forall_notMem fun v hv =>
      List.not_mem_nil (hempty ▸ hentered.present v hv)
    rw [gwminLoop]
    split
    · exact .of_empty h
    · next hpop' => cases hpop.symm.trans hpop'
  | case2 left heap chosen top rest hpop hcurrent fault htake =>
    have hends : Ends Never (left.takeWithNeighbors top.vertex) _ :=
      h.take (hentered.foremost h hpop hcurrent).1
    rw [htake] at hends
    exact hends.elim
  | case3 left heap chosen top rest hpop hcurrent next htake ih =>
    obtain ⟨hv, hbest⟩ := hentered.foremost h hpop hcurrent
    have htaken : Ends Never (left.takeWithNeighbors top.vertex) _ := h.take hv
    have hnext := htaken.post_of_eq htake
    rw [gwminLoop]
    split
    · next hpop' => cases hpop.symm.trans hpop'
    · next hpop' =>
      cases hpop.symm.trans hpop'
      rw [if_pos hcurrent]
      split
      · next htake' => cases htake.symm.trans htake'
      · next htake' =>
        cases htake.symm.trans htake'
        exact (ih hnext (hentered.take h hpop hv hnext)).mono fun r hr => hr.pick hv hbest
  | case4 left heap chosen top rest hpop hcurrent ih =>
    rw [gwminLoop]
    split
    · next hpop' => cases hpop.symm.trans hpop'
    · next hpop' =>
      cases hpop.symm.trans hpop'
      rw [if_neg hcurrent]
      exact ih h (hentered.skip h hpop hcurrent)

/-- Choosing by rank succeeds and picks by the rule. -/
theorem gwmin_completes (h : g.WellFormed) :
    Ends permitted g.gwmin fun r => g.Picks g.Foremost g.liveSet r.1 ∧ g.Induced ∅ r.2 :=
  (gwminLoop_completes g _ [] (.start h) (entered_ofList (.start h))).bind fun _ hr => hr.reverse

/-- Choosing by rank selects exactly the sequence that the greedy rule prescribes. -/
theorem gwmin_follows_greedy_rule (h : g.Assembled) :
    ∃ chosen left, g.gwmin = .ok (chosen, left) ∧
      ∀ picks, g.Picks g.Foremost g.liveSet picks ↔ picks = chosen := by
  obtain ⟨⟨chosen, left⟩, hrun, hpicks, -⟩ := ends_never_iff.mp (gwmin_completes h.wellFormed)
  refine ⟨chosen, left, hrun, fun picks => ⟨fun hother => ?_, fun heq => heq ▸ hpicks⟩⟩
  exact hother.unique (fun S v hv w hw hbest hbest' => hbest.unique hbest' hv hw) hpicks

/-- The middle of the star and the vertex apart have the same ratio, and the middle has the greater
degree. -/
theorem picks_star : star.Picks star.Foremost star.liveSet [0, 4] := by
  refine .pick (by decide) ?_ (.pick (by decide) ?_ ?_)
  · unfold Foremost priority
    decide +kernel
  · unfold Foremost priority
    decide +kernel
  · have hnone : (star.liveSet \ star.closedNeighborhood 0) \ star.closedNeighborhood 4 = ∅ := by
      decide
    rw [hnone]
    exact .done

theorem gwmin_follows_greedy_rule_star :
    star.Assembled ∧ ∃ left, star.gwmin = .ok ([0, 4], left) := by
  obtain ⟨chosen, left, hrun, hpicks⟩ := gwmin_follows_greedy_rule assembled_star
  obtain rfl := (hpicks _).mp picks_star
  exact ⟨assembled_star, left, hrun⟩

end ConflictGraph

end LogicSynthesis
