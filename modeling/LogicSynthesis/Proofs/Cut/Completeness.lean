import LogicSynthesis.Proofs.Cut.Irredundance
import LogicSynthesis.Proofs.Network.Separation
import LogicSynthesis.Proofs.Network.TopologicalOrder

/-!
# Completeness of cut sets

The cuts of a gate come from the cuts of its fanins, and a node is visited once, after everything
that it reads. So in the end the set of every node is what its fanins' sets make of it. A search
that was not stopped has tried every choice. A cut that found no place, or lost it, has all leaves
of another one that has its place. So where no limit is hit, every set of few nodes that separates
a gate from the inputs has a stored cut in it. Without shrinking, the leaves of every stored cut
separate its node in their turn.

## Main definitions

- `Cut.Within` — all leaves of the cut are among some nodes

## Main statements

- `foldChoices_covers` — a search that was not stopped has tried every choice
- `cutsOf_of_enumerateCuts` — the equation that the stored sets satisfy
- `exists_cut_within` — a separating set of few nodes has a stored cut in it
- `separates_of_mem_cuts` — the leaves of a cut that was not shrunk separate
- `uncapped_cuts_complete` — so enumeration is complete, where no limit is hit
-/

namespace LogicSynthesis

variable {net : Network} {settings : CutSettings} {n m : NodeId} {bounds : Finset NodeId}

namespace Cut

variable {a b c : Cut} {set : List Cut}

/-- All leaves are among the nodes `bounds`. -/
def Within (bounds : Finset NodeId) (c : Cut) : Prop := ∀ l ∈ c.leaves, l ∈ bounds

theorem subset_of_dominates (h : a.dominates b = true) : a.leaves ⊆ b.leaves := by
  rw [dominates, Bool.and_eq_true, List.all_eq_true] at h
  exact fun l hl => List.contains_iff_mem.mp (h.2 l hl)

/-! ### What an insertion covers -/

/-- A cut that has its place after an insertion is the new one, or one that it does not dominate. -/
theorem mem_insertInto_iff (h : ¬ set.any (·.dominates c) = true) :
    b ∈ insertInto set c ↔ b = c ∨ b ∈ set ∧ c.dominates b = false := by
  have hkept : b ∈ set.filter (fun other => !c.dominates other) ↔
      b ∈ set ∧ c.dominates b = false := by
    rw [List.mem_filter, Bool.not_eq_true']
  rw [insertInto, if_neg h, ← hkept]
  generalize set.filter _ = kept
  conv => rhs; rw [← List.takeWhile_append_dropWhile (p := (·.size ≤ c.size)) (l := kept)]
  rw [List.mem_append, List.mem_cons, List.mem_append]
  exact or_left_comm

/-- The new cut has its place, or a cut with fewer leaves has one. -/
theorem exists_subset_insertInto (set : List Cut) (c : Cut) :
    ∃ d ∈ insertInto set c, d.leaves ⊆ c.leaves := by
  by_cases h : set.any (·.dominates c) = true
  · obtain ⟨d, hd, hdominates⟩ := List.any_eq_true.mp h
    exact ⟨d, by rwa [insertInto, if_pos h], subset_of_dominates hdominates⟩
  · exact ⟨c, (mem_insertInto_iff h).mpr (.inl rfl), List.Subset.refl _⟩

/-- A cut that loses its place loses it to one that dominates it. -/
theorem exists_subset_of_mem (c : Cut) (hb : b ∈ set) :
    ∃ d ∈ insertInto set c, d.leaves ⊆ b.leaves := by
  by_cases h : set.any (·.dominates c) = true
  · exact ⟨b, by rwa [insertInto, if_pos h], List.Subset.refl _⟩
  · cases hdominates : c.dominates b with
    | true => exact ⟨c, (mem_insertInto_iff h).mpr (.inl rfl), subset_of_dominates hdominates⟩
    | false =>
      exact ⟨b, (mem_insertInto_iff h).mpr (.inr ⟨hb, hdominates⟩), List.Subset.refl _⟩

/-- Cuts within few nodes combine to a cut within these nodes. -/
theorem exists_combine_within {t : TruthTable} {fanins : List Signal} {chosen : List Cut}
    (hchosen : ∀ c ∈ chosen, c.Within bounds) (hcard : bounds.card ≤ settings.cutSize)
    {r : Option Cut} (h : combine settings t fanins chosen = .ok r) :
    ∃ c, r = some c ∧ c.Within bounds := by
  obtain ⟨merged, hmerged⟩ := exists_mergeLeaves
    (List.forall_mem_map.mpr fun c hc => hchosen c hc) hcard
  rcases combine_eq_ok h with ⟨hnone, -⟩ | ⟨merged, composed, -, rfl⟩
  · rw [hmerged] at hnone
    cases hnone
  · refine ⟨_, rfl, fun l hl => ?_⟩
    obtain ⟨d, hd, hl⟩ := mem_leaves_combine h hl
    exact hchosen d hd l hl

/-- A cut that is not shrunk has the leaves of all cuts it comes from. -/
theorem leaves_subset_combine {t : TruthTable} {fanins : List Signal} {chosen : List Cut}
    (hminimize : settings.minimize = false) (h : combine settings t fanins chosen = .ok (some c))
    (hb : b ∈ chosen) : b.leaves ⊆ c.leaves := by
  rcases combine_eq_ok h with ⟨-, hnone⟩ | ⟨merged, composed, hmerge, hsome⟩
  · cases hnone
  · obtain rfl := Option.some.inj hsome
    rw [ofTable, if_neg (Bool.eq_false_iff.mp hminimize)]
    exact fun l hl => ((mergeLeaves_spec hmerge).2.2 l).mpr ⟨_, List.mem_map_of_mem hb, hl⟩

end Cut

/-! ### Going through all choices -/

section Choices

variable {σ : Type} {finished : σ → Except Fault Bool} {step : σ → List Cut → Except Fault σ}
  {sets : List (List Cut)} {chosen : List Cut} {s s' : σ}

/-- What every step keeps is kept by the search. -/
theorem foldChoices_keeps (inv : σ → Prop)
    (hstep : ∀ picks s s', inv s → step s picks = .ok s' → inv s') (h : inv s)
    (hrun : foldChoices finished step sets chosen s = .ok s') : inv s' := by
  have hends : Ends Anything (foldChoices finished step sets chosen s) inv :=
    foldChoices_ends inv ?_ sets chosen ?_ s h
  · exact hends.post_of_eq hrun
  · exact fun state _ => ends_anything_iff.mpr fun _ _ => trivial
  · exact fun picks state _ hinv => ends_anything_iff.mpr fun s' hs' => hstep _ state s' hinv hs'

/-- A search that is not finished in the end has tried every choice, if what shows that a choice was
tried is kept. -/
theorem foldChoices_covers (tried : List Cut → σ → Prop)
    (hstep : ∀ picks s s', step s picks = .ok s' → tried picks s')
    (hkeep : ∀ picks picks' s s', tried picks s → step s picks' = .ok s' → tried picks s')
    (hrun : foldChoices finished step sets chosen s = .ok s') :
    finished s' = .ok true ∨ ∀ picks, List.Forall₂ (fun set c => c ∈ set) sets picks →
      tried (picks.reverse ++ chosen) s' := by
  induction sets generalizing chosen s s' with
  | nil =>
    refine .inr fun picks hpicks => ?_
    cases hpicks
    exact hstep chosen s s' hrun
  | cons set sets ih =>
    -- The choices with each element of the first set in turn.
    have hloop : Ends Anything (foldChoices finished step (set :: sets) chosen s) fun t =>
        finished t = .ok true ∨ ∀ c ∈ set, ∀ picks,
          List.Forall₂ (fun set c => c ∈ set) sets picks →
            tried (picks.reverse ++ c :: chosen) t := by
      refine Ends.foldlM_prefix (fun before t => finished t = .ok true ∨ ∀ c ∈ before, ∀ picks,
        List.Forall₂ (fun set c => c ∈ set) sets picks → tried (picks.reverse ++ c :: chosen) t)
          (.inr fun c hc => absurd hc List.not_mem_nil) ?_
      intro before c after t heq hbefore
      refine ends_anything_iff.mpr fun t' ht' => ?_
      obtain ⟨done, hdone, ht'⟩ := bind_eq_ok ht'
      cases done with
      | true =>
        obtain rfl := Except.ok.inj ht'
        exact .inl hdone
      | false =>
        have hbefore := hbefore.resolve_left (by rw [hdone]; simp)
        refine (ih ht').imp_right fun hnew d hd picks hpicks => ?_
        rcases List.mem_append.mp hd with hd | hd
        · exact foldChoices_keeps (tried _) (fun picks' => hkeep _ picks')
            (hbefore d hd picks hpicks) ht'
        · obtain rfl := List.mem_singleton.mp hd
          exact hnew picks hpicks
    refine (hloop.post_of_eq hrun).imp_right fun htried picks hpicks => ?_
    cases hpicks with
    | @cons _ c _ picks hc hpicks =>
      rw [List.reverse_cons, List.append_assoc]
      exact htried c hc picks hpicks

end Choices

namespace CutSearch

variable {search : CutSearch}

/-- A search that is stopped has found four times as many cuts as are kept. -/
theorem le_length_of_isSaturated (h : search.isSaturated settings = .ok true) :
    4 * settings.cutLimit ≤ search.found.length := by
  unfold isSaturated at h
  split at h
  · obtain ⟨bound, hbound, h⟩ := bind_eq_ok h
    obtain ⟨-, -, hbound⟩ := bind_eq_ok hbound
    obtain rfl := Except.ok.inj hbound
    exact of_decide_eq_true (Except.ok.inj h)
  · cases h

/-- Once a choice of cuts within few nodes was tried, there is a cut within these nodes. -/
theorem covers_of_foldChoices {t : TruthTable} {fanins : List Signal} {sets : CutSets}
    (hrun : foldChoices (isSaturated settings) (step settings t fanins)
      (fanins.map fun s => sets.of s.node).reverse [] ⟨false, []⟩ = .ok search)
    {picks : List Cut} (hpicks : List.Forall₂ (fun s c => c ∈ sets.of s.node) fanins picks)
    (hwithin : ∀ c ∈ picks, c.Within bounds) (hcard : bounds.card ≤ settings.cutSize) :
    search.isSaturated settings = .ok true ∨ ∃ c ∈ search.found, c.Within bounds := by
  have hcovers := foldChoices_covers (fun picks (search : CutSearch) =>
    (∀ c ∈ picks, c.Within bounds) → ∃ c ∈ search.found, c.Within bounds) ?_ ?_ hrun
  · refine hcovers.imp_right fun htried => ?_
    have hreversed := htried picks.reverse
      (List.rel_reverse (List.forall₂_map_left_iff.mpr hpicks))
    rw [List.reverse_reverse, List.append_nil] at hreversed
    exact hreversed hwithin
  · intro picks former search hstep hwithin
    obtain ⟨r, hcombine, hstep⟩ := bind_eq_ok hstep
    obtain ⟨c, rfl, hc⟩ := Cut.exists_combine_within hwithin hcard hcombine
    obtain rfl := Except.ok.inj hstep
    obtain ⟨d, hd, hsub⟩ := Cut.exists_subset_insertInto former.found c
    exact ⟨d, hd, fun l hl => hc l (hsub hl)⟩
  · intro picks picks' former search htried hstep hwithin
    obtain ⟨b, hb, hwithin⟩ := htried hwithin
    obtain ⟨r, -, hstep⟩ := bind_eq_ok hstep
    cases r with
    | none =>
      obtain rfl := Except.ok.inj hstep
      exact ⟨b, hb, hwithin⟩
    | some c =>
      obtain rfl := Except.ok.inj hstep
      obtain ⟨d, hd, hsub⟩ := Cut.exists_subset_of_mem c hb
      exact ⟨d, hd, fun l hl => hwithin l (hsub hl)⟩

end CutSearch

namespace Network

variable {sets sets' : CutSets}

/-! ### The equation of the stored sets -/

/-- The cuts of a node depend on the sets of what it reads, and on no other sets. -/
theorem cutsOf_congr (h : ∀ m, net.Reads n m → sets.of m = sets'.of m) :
    net.cutsOf settings sets n = net.cutsOf settings sets' n := by
  cases hnode : net.nodes[n]? with
  | none =>
    rw [cutsOf, cutsOf, node, hnode]
    rfl
  | some node =>
    have hsets : node.fanins.map (fun s => sets.of s.node) =
        node.fanins.map fun s => sets'.of s.node :=
      List.map_congr_left fun s hs => h s.node (reads_of_mem hnode hs)
    rw [cutsOf, cutsOf, node_eq hnode, ok_bind, ok_bind, hsets]

/-- The stored set of every node is what its fanins' stored sets make of it. -/
theorem cutsOf_of_enumerateCuts (hwf : net.WellFormed) (hac : net.Acyclic)
    (hrun : net.enumerateCuts settings = .ok sets) (hn : n < net.size) :
    net.cutsOf settings sets n = .ok (sets.of n) := by
  obtain ⟨-, -, hrun⟩ := bind_eq_ok hrun
  have hloop : Ends Anything ((net.coneOrder [] net.nodeIds).foldlM (fun sets n =>
      return sets.setIfInBounds n (← net.cutsOf settings sets n)) (Array.replicate net.size []))
      fun sets => sets.size = net.size ∧ ∀ n ∈ net.coneOrder [] net.nodeIds,
        net.cutsOf settings sets n = .ok (CutSets.of sets n) ∧
          ∀ k, net.Reads n k → k ∈ net.coneOrder [] net.nodeIds := by
    refine Ends.foldlM_prefix (fun before (sets : CutSets) => sets.size = net.size ∧
      ∀ n ∈ before, net.cutsOf settings sets n = .ok (sets.of n) ∧ ∀ k, net.Reads n k → k ∈ before)
        ⟨Array.size_replicate, fun n hn => absurd hn List.not_mem_nil⟩ ?_
    rintro before n after sets heq ⟨hsize, hbefore⟩
    refine ends_anything_iff.mpr fun sets' hsets' => ?_
    obtain ⟨cuts, hcuts, hsets'⟩ := bind_eq_ok hsets'
    obtain rfl := Except.ok.inj hsets'
    have hn := (mem_coneOrder (heq ▸ List.mem_append_right before List.mem_cons_self)).2
    -- Only the set of the node changes, and nothing up to the node reads it.
    have hother : ∀ m ∈ before, m ≠ n := by
      have hnodup := nodup_coneOrder net [] net.nodeIds
      rw [heq, List.nodup_append] at hnodup
      exact fun m hm => hnodup.2.2 m hm n List.mem_cons_self
    have hkept : ∀ m ∈ before, CutSets.of (sets.setIfInBounds n cuts) m = sets.of m := by
      intro m hm
      rw [of_setIfInBounds, if_neg fun h => hother m hm h.1.symm]
    refine ⟨Array.size_setIfInBounds.trans hsize, fun m hm => ?_⟩
    rcases List.mem_append.mp hm with hm | hm
    · obtain ⟨hcuts, hreads⟩ := hbefore m hm
      refine ⟨?_, fun k hk => List.mem_append_left _ (hreads k hk)⟩
      rw [hkept m hm, ← hcuts]
      exact cutsOf_congr fun k hk => hkept k (hreads k hk)
    · obtain rfl := List.mem_singleton.mp hm
      have hreads : ∀ k, net.Reads m k → k ∈ before := fun k hk =>
        (mem_of_coneOrder_eq hwf hac heq hk).resolve_left List.not_mem_nil
      refine ⟨?_, fun k hk => List.mem_append_left _ (hreads k hk)⟩
      rw [of_setIfInBounds, if_pos ⟨rfl, hn.trans_eq hsize.symm⟩, ← hcuts]
      exact cutsOf_congr fun k hk => hkept k (hreads k hk)
  exact ((hloop.post_of_eq hrun).2 n (mem_coneOrder_nodeIds hwf hac hn)).1

/-! ### Few nodes that separate -/

/-- Where fewer cuts than the limit are stored for a gate, some nodes that hold a stored cut of each
fanin hold a cut of the gate too. -/
theorem exists_cut_of_fanins (hcuts : net.cutsOf settings sets n = .ok (sets.of n))
    (hfew : (sets.of n).length < settings.cutLimit) (hgate : net.isGate n = true)
    (hcard : bounds.card ≤ settings.cutSize)
    (hfanins : ∀ m, net.Reads n m → ∃ c ∈ sets.of m, c.Within bounds) :
    ∃ c ∈ sets.of n, c.Within bounds := by
  obtain ⟨node, hnode, hkind⟩ := isGate_iff.mp hgate
  rw [cutsOf, node_eq hnode, ok_bind, hkind] at hcuts
  obtain ⟨t, -, hcuts⟩ := bind_eq_ok hcuts
  obtain ⟨search, hrun, hcuts⟩ := bind_eq_ok hcuts
  have hcuts : search.found.take (settings.cutLimit - 1) ++ [.trivial n] = sets.of n :=
    Except.ok.inj hcuts
  -- Nothing was cut off, and the search went on to its end.
  rw [← hcuts, List.length_append, List.length_take, List.length_singleton] at hfew
  have hall : search.found.take (settings.cutLimit - 1) = search.found :=
    List.take_of_length_le (by omega)
  have hunsaturated : search.isSaturated settings ≠ .ok true := by
    intro hsaturated
    have := CutSearch.le_length_of_isSaturated hsaturated
    omega
  have : Nonempty Cut := ⟨.trivial n⟩
  choose! pick hpick using hfanins
  have hreads : ∀ s ∈ node.fanins, net.Reads n s.node := fun _ => reads_of_mem hnode
  have hpicks : List.Forall₂ (fun s c => c ∈ sets.of s.node) node.fanins
      (node.fanins.map fun s => pick s.node) := by
    rw [List.forall₂_map_right_iff, List.forall₂_same]
    exact fun s hs => (hpick s.node (hreads s hs)).1
  have hwithin : ∀ c ∈ node.fanins.map fun s => pick s.node, c.Within bounds :=
    List.forall_mem_map.mpr fun s hs => (hpick s.node (hreads s hs)).2
  obtain ⟨c, hc, hbounds⟩ :=
    (CutSearch.covers_of_foldChoices hrun hpicks hwithin hcard).resolve_left hunsaturated
  exact ⟨c, hcuts ▸ List.mem_append_left _ (hall.symm ▸ hc), hbounds⟩

/-- Few nodes that separate a node hold one of its stored cuts, where fewer cuts than the limit are
stored. -/
theorem exists_cut_within (hwf : net.WellFormed) (hac : net.Acyclic)
    (hrun : net.enumerateCuts settings = .ok sets)
    (hfew : ∀ n < net.size, (sets.of n).length < settings.cutLimit)
    (hcard : bounds.card ≤ settings.cutSize) (hn : n < net.size)
    (hseparates : net.Separates bounds n) : ∃ c ∈ sets.of n, c.Within bounds := by
  have hformed := fun n hn =>
    ((enumerateCuts_formed hwf hac settings.allowed_anything).post_of_eq hrun).2 n hn
  induction n using hac.induction with
  | step n ih =>
    cases hconstant : net.isConstant n with
    | true =>
      obtain ⟨c, hcuts, hnone⟩ := (hformed n hn).constant hconstant
      refine ⟨c, hcuts ▸ List.mem_singleton_self c, fun l hl => ?_⟩
      rw [hnone] at hl
      cases hl
    | false =>
    rcases separates_iff.mp hseparates with hmem | ⟨hinput, hfanins⟩
    · refine ⟨.trivial n, (hformed n hn).trivial_mem hn hconstant, fun l hl => ?_⟩
      rwa [List.mem_singleton.mp hl]
    · have hgate : net.isGate n = true := (isGate_or_isInput hn hconstant).resolve_right
        (Bool.eq_false_iff.mp hinput)
      exact exists_cut_of_fanins (cutsOf_of_enumerateCuts hwf hac hrun hn) (hfew n hn) hgate hcard
        fun m hreads => ih m hreads (hwf.reads_lt hreads) (hfanins m hreads)

/-- The leaves of a stored cut separate its node, if cuts are not shrunk. -/
theorem separates_of_mem_cuts (hwf : net.WellFormed) (hminimize : settings.minimize = false)
    (hrun : net.enumerateCuts settings = .ok sets) {c : Cut} (hc : c ∈ sets.of n) :
    net.Separates c.leaves.toFinset n := by
  have hends : Ends Anything (net.enumerateCuts settings) _ :=
    enumerateCuts_stores (fun n cuts => ∀ c ∈ cuts, net.Separates c.leaves.toFinset n)
      (.inr trivial) fun _ sets n _ hsets => cutsOf_all ?_ ?_ ?_
  · exact (hends.post_of_eq hrun).2.2.1 n (List.ne_nil_of_mem hc) c hc
  · exact fun value hconstant => separates_of_isConstant hwf hconstant
  · exact separates_iff.mpr (.inl (List.mem_toFinset.mpr List.mem_cons_self))
  · intro node t picks c hnode hkind hpicks hcombine
    have hinput := isInput_of_isGate (isGate_iff.mpr ⟨node, hnode, hkind⟩)
    refine separates_iff.mpr (.inr ⟨hinput, fun m hreads => ?_⟩)
    rw [reads_iff, fanins_eq hnode] at hreads
    obtain ⟨s, hs, rfl⟩ := hreads
    obtain ⟨d, hd, hpick⟩ := exists_pick_of_fanin hpicks hs
    refine (hsets _ (List.ne_nil_of_mem hpick) d hpick).mono fun l hl => ?_
    rw [List.mem_toFinset] at hl ⊢
    exact Cut.leaves_subset_combine hminimize hcombine hd hl

/-! ### Limits that are not hit -/

/-- Leaf sets that do not contain one another are no more than there are sets of nodes. -/
theorem GateCuts.length_le {others : List Cut} (h : net.GateCuts settings n others) :
    others.length ≤ 2 ^ net.size := by
  have hnodup : (others.map fun c => c.leaves.toFinset).Nodup := by
    refine List.pairwise_map.mpr (h.incomparable.imp fun {a b} hincomparable heq => ?_)
    exact hincomparable.1 fun l hl => List.mem_toFinset.mp (heq ▸ List.mem_toFinset.mpr hl)
  have hcard : (others.map fun c => c.leaves.toFinset).toFinset.card ≤ 2 ^ net.size := by
    have hpowerset : (Finset.range net.size).powerset.card = 2 ^ net.size := by
      rw [Finset.card_powerset, Finset.card_range]
    rw [← hpowerset]
    refine Finset.card_le_card fun leaves hleaves => Finset.mem_powerset.mpr fun l hl => ?_
    obtain ⟨c, hc, rfl⟩ := List.mem_map.mp (List.mem_toFinset.mp hleaves)
    rw [Finset.mem_range]
    rcases (h.feeds c hc l (List.mem_toFinset.mp hl)).1 with hgate | hinput
    · exact lt_size_of_kindIs hgate
    · exact lt_size_of_kindIs hinput
  rwa [List.toFinset_card_of_nodup hnodup, List.length_map] at hcard

/-- A limit beyond the number of sets of nodes is not hit. -/
theorem length_lt_of_enumerateCuts (hwf : net.WellFormed) (hac : net.Acyclic)
    (hrun : net.enumerateCuts settings = .ok sets)
    (hlimit : 2 ^ net.size + 1 < settings.cutLimit) (hn : n < net.size) :
    (sets.of n).length < settings.cutLimit := by
  have hformed := ((enumerateCuts_formed hwf hac settings.allowed_anything).post_of_eq hrun).2 n hn
  have hpos := Nat.two_pow_pos net.size
  cases hconstant : net.isConstant n with
  | true =>
    obtain ⟨c, hcuts, -⟩ := hformed.constant hconstant
    rw [hcuts, List.length_singleton]
    omega
  | false =>
    rcases isGate_or_isInput hn hconstant with hgate | hinput
    · obtain ⟨others, hcuts, hothers⟩ := hformed.gate hgate
      have hle := hothers.length_le
      rw [hcuts, List.length_append, List.length_singleton]
      omega
    · rw [hformed.input hinput, List.length_singleton]
      omega

/-- Where every node has fewer cuts than the limit, every set of few nodes that separates a gate
from the inputs, and does not hold it, holds the leaves of a stored cut of the gate. -/
theorem uncapped_cuts_complete (hbuilt : net.Built) (hac : net.Acyclic)
    (hlimit : settings.cutLimit < 2 ^ 62) (hsize : settings.cutSize ≤ TruthTable.maxVars) :
    (1 ≤ settings.cutLimit → ∃ sets, net.enumerateCuts settings = .ok sets) ∧
    ∀ sets, net.enumerateCuts settings = .ok sets →
      (∀ n < net.size, (sets.of n).length < settings.cutLimit) →
      ∀ n, net.isGate n = true → ∀ bounds : Finset NodeId, bounds.card ≤ settings.cutSize →
        n ∉ bounds → net.Separates bounds n →
          ∃ c ∈ sets.of n, c.leaves ≠ [n] ∧ ∀ l ∈ c.leaves, l ∈ bounds := by
  constructor
  · intro hpos
    obtain ⟨sets, hrun, -⟩ :=
      ends_never_iff.mp (enumerateCuts_ends hbuilt.wellFormed hac Never hsize hpos hlimit)
    exact ⟨sets, hrun⟩
  · intro sets hrun hfew n hgate bounds hcard hn hseparates
    obtain ⟨c, hc, hwithin⟩ := exists_cut_within hbuilt.wellFormed hac hrun hfew hcard
      (lt_size_of_kindIs hgate) hseparates
    refine ⟨c, hc, fun hself => hn (hwithin n ?_), hwithin⟩
    rw [hself]
    exact List.mem_singleton_self n

/-- The three inputs separate the outer gate. -/
theorem separates_conjunctionOfThree : conjunctionOfThree.Separates {1, 2, 3} 5 := by
  refine separates_of_region (fun _ => True) (fun _ _ _ _ _ => trivial) ?_ trivial
  intro n _ hn
  rw [← Bool.not_eq_true]
  intro hinput
  have hinputs : ∀ n < 6, conjunctionOfThree.isInput n = true →
      n ∈ ({1, 2, 3} : Finset NodeId) := by decide
  exact hn (hinputs n (lt_size_of_kindIs hinput) hinput)

theorem uncapped_cuts_complete_conjunctionOfThree :
    ∃ sets, conjunctionOfThree.enumerateCuts { cutLimit := 100 } = .ok sets ∧
      (∀ n < conjunctionOfThree.size, (sets.of n).length < 100) ∧
        ∃ c ∈ sets.of 5, c.leaves ≠ [5] ∧ ∀ l ∈ c.leaves, l ∈ ({1, 2, 3} : Finset NodeId) := by
  have hwf := built_conjunctionOfThree.wellFormed
  have hac := acyclic_conjunctionOfThree
  obtain ⟨hends, hcomplete⟩ := @uncapped_cuts_complete conjunctionOfThree { cutLimit := 100 }
    built_conjunctionOfThree hac (by decide) (by decide)
  obtain ⟨sets, hrun⟩ := hends (by decide)
  have hfew : ∀ n < conjunctionOfThree.size, (sets.of n).length < 100 := fun n hn =>
    length_lt_of_enumerateCuts hwf hac hrun (by decide) hn
  exact ⟨sets, hrun, hfew, hcomplete sets hrun hfew 5 (by decide) {1, 2, 3} (by decide)
    (by decide) separates_conjunctionOfThree⟩

end Network

end LogicSynthesis
