import LogicSynthesis.Proofs.Network.Built
import LogicSynthesis.Proofs.Network.Separation
import LogicSynthesis.Proofs.Window

/-!
# How far windows reach

A window separates its pivots from the inputs of the network. Its walk begins as long as there is a
number for it, and goes on until no leaf can give way to its fanins within the bound. What a leaf
gives way to is counted by edges: a gate that reads a fresh node twice has its two edges counted, so
the walk may halt although there is room.

## Main definitions

- `Network.freshFanins` — the fanins that a walk could turn into leaves, by edges

## Main statements

- `window_separates` — a window exists, and separates its pivots within the bound
- `window_halts_at_gates` — no gate of a window can give way, if edges count
- `window_inputRepeated` — a window that ends at a gate although there is room
-/

namespace LogicSynthesis.Network

variable {net : Network} {settings : WindowSettings} {pivots leaves : List NodeId}
  {scratch : Scratch} {n : NodeId}

/-! ### Windows separate -/

theorem Encloses.separates {window targets : List NodeId} (h : net.Encloses window targets)
    (hn : n ∈ targets) : net.Separates window.toFinset n := by
  obtain ⟨region, hstart, hreads, hinput⟩ := h.region
  refine separates_of_region region ?_ ?_ (hstart n hn)
  · exact fun n m hregion hout => hreads n m hregion (hout <| List.mem_toFinset.mpr ·)
  · exact fun n hregion hout => hinput n hregion (hout <| List.mem_toFinset.mpr ·)

/-- No more pivots than the bound have a window within the bound, as long as there is a number for
its walk. It separates them from the inputs, and nothing but the marks of nodes has changed. -/
theorem window_separates (hbuilt : net.Built) (hpast : net.scratch.Past)
    (hwalk : net.scratch.walk + 1 < 2 ^ 32) (hne : pivots ≠ [])
    (hexist : ∀ n ∈ pivots, n < net.size) (hcard : pivots.toFinset.card ≤ settings.cutSize)
    (hsize : settings.cutSize < 2 ^ 32) :
    ∃ leaves scratch, net.window pivots settings = .ok (leaves, net.withScratch scratch) ∧
      leaves.Nodup ∧ leaves.length ≤ settings.cutSize ∧
        (∀ n ∈ pivots, net.Separates leaves.toFinset n) ∧
          scratch.values = net.scratch.values := by
  have hbound : settings.cutSize < windowBound := hsize.trans (by decide)
  obtain ⟨⟨leaves, _⟩, hrun, scratch, rfl, hwindow⟩ := ends_never_iff.mp
    (window_ends hbuilt.wellFormed hpast (.inl hwalk) hne hexist hcard hbound)
  exact ⟨leaves, scratch, hrun, hwindow.distinct.nodup, hwindow.length,
    fun n hn => hwindow.encloses.separates hn, hwindow.walked.values⟩

/-- The window of two gates, one of which reads the other. -/
theorem window_separates_conjunctionOfThree :
    ∃ leaves scratch, conjunctionOfThree.window [5, 4, 5] { cutSize := 2 } =
        .ok (leaves, conjunctionOfThree.withScratch scratch) ∧
      leaves.Nodup ∧ leaves.length ≤ 2 ∧
        (∀ n ∈ [5, 4, 5], conjunctionOfThree.Separates leaves.toFinset n) ∧
          scratch.values = conjunctionOfThree.scratch.values :=
  window_separates built_conjunctionOfThree past_conjunctionOfThree (by decide) (by decide)
    (by decide) (by decide) (by decide)

/-! ### Where walks halt -/

instance (s : Scratch) : DecidablePred s.Met :=
  fun n => inferInstanceAs (Decidable (s.marks[n]? = some s.walk))

/-- The fanins of `n` that are no constants and that the walk has not met, each as often as `n`
reads it. -/
def freshFanins (net : Network) (scratch : Scratch) (n : NodeId) : List NodeId :=
  (net.faninNodes n).filter fun m => ¬ scratch.Met m ∧ net.isConstant m = false

theorem expansionCost_eq (hmarks : ∀ m ∈ net.faninNodes n, m < scratch.marks.size) :
    net.expansionCost scratch n = ((net.freshFanins scratch n).length : Int) - 1 := by
  rw [expansionCost, freshFanins, List.countP_eq_length_filter]
  congr 3
  refine List.filter_congr fun m hm => ?_
  rw [joinsFrontier, Bool.eq_iff_iff, Bool.and_eq_true, Scratch.isFresh_iff (hmarks m hm),
    Bool.not_eq_true', decide_eq_true_iff]

/-- What would stand in place of a leaf together with the other leaves, without repetition if no
fresh fanin is read twice. -/
theorem Distinct.nodup_replacement (h : Distinct (leaves, scratch))
    (hfresh : (net.freshFanins scratch n).Nodup) :
    (leaves.erase n ++ net.freshFanins scratch n).Nodup := by
  refine List.nodup_append.mpr ⟨h.nodup.erase n, hfresh, ?_⟩
  rintro m hm _ hfanin rfl
  have hunmet := (of_decide_eq_true (List.mem_filter.mp hfanin).2).1
  exact hunmet (h.met m (List.mem_of_mem_erase hm))

/-- A pivot that cannot give way is a window by itself. -/
theorem window_singleton (hn : n < net.scratch.marks.size) (hpast : net.scratch.Past)
    (hwalk : net.scratch.walk + 1 < Scratch.valueBound) (hpos : 1 ≤ settings.cutSize)
    (hsize : settings.cutSize < windowBound)
    (hstop : (settings.cutSize : Int) <
      1 + net.expansionCost (net.scratch.nextWalk.visit n) n) :
    net.window [n] settings = .ok ([n], net.withScratch (net.scratch.nextWalk.visit n)) := by
  have hget : net.scratch.nextWalk.marks[n]? = some net.scratch.nextWalk.marks[n] :=
    Array.getElem?_eq_getElem hn
  have hnew : ¬ net.scratch.nextWalk.marks[n] = net.scratch.nextWalk.walk := fun hmet =>
    Scratch.not_met_nextWalk hpast (hget.trans (congrArg some hmet))
  have hpivot : [n].foldlM addPivot ([], net.scratch.nextWalk) =
      .ok ([n], net.scratch.nextWalk.visit n) := by
    rw [List.foldlM_cons, addPivot, Scratch.mark, hget, ok_bind, if_neg hnew]
    rfl
  have hgrow : (net.withScratch {}).growWindow settings.cutSize
      ([n], net.scratch.nextWalk.visit n) = .ok ([n], net.scratch.nextWalk.visit n) := by
    have hsort : (net.withScratch {}).sortLeaves (net.scratch.nextWalk.visit n) [n] = [n] :=
      List.mergeSort_singleton n
    rw [growWindow_of_sortLeaves (Nat.not_lt.mpr hpos) hsort]
    exact if_pos (.inr hstop)
  rw [window_eq (List.cons_ne_nil n []) hsize, Scratch.beginWalk_eq hwalk, ok_bind, hpivot, ok_bind,
    hgrow, map_ok]

/-- There is a window unless the numbers of walks are used up. The fresh edges of a gate of the
window exceed the bound together with the other leaves. So if they lead to different nodes, no
replacement of the gate by its fresh fanins is within the bound. -/
theorem window_halts_at_gates (hbuilt : net.Built) (hpast : net.scratch.Past) (hne : pivots ≠ [])
    (hexist : ∀ n ∈ pivots, n < net.size) (hcard : pivots.toFinset.card ≤ settings.cutSize)
    (hsize : settings.cutSize < 2 ^ 32) :
    Ends (fun fault => fault = .overflow ∧ 2 ^ 32 ≤ net.scratch.walk + 1)
      (net.window pivots settings) fun r => ∃ scratch, r.2 = net.withScratch scratch ∧
        scratch.walk = net.scratch.walk + 1 ∧ ∀ n ∈ r.1, net.isGate n = true →
          settings.cutSize < (r.1.erase n ++ net.freshFanins scratch n).length ∧
            ((net.freshFanins scratch n).Nodup →
              settings.cutSize < (r.1.erase n ++ net.freshFanins scratch n).toFinset.card) := by
  have hwf := hbuilt.wellFormed
  refine (window_ends hwf hpast ((Nat.lt_or_ge _ _).imp_right fun hlast => ⟨rfl, hlast⟩) hne hexist
    hcard (hsize.trans (by decide))).mono ?_
  rintro ⟨leaves, _⟩ ⟨scratch, rfl, hwindow⟩
  refine ⟨scratch, rfl, hwindow.walk, fun n hn hgate => ?_⟩
  dsimp only at hn ⊢
  have hcostly := (hwindow.halted n hn).resolve_left fun hterminal => by
    rw [isTerminal_of_isGate hgate] at hterminal
    cases hterminal
  have hedges : settings.cutSize < (leaves.erase n ++ net.freshFanins scratch n).length := by
    rw [expansionCost_eq fun m hm => hwindow.size.symm ▸ hwf.reads_lt hm] at hcostly
    rw [List.length_append, List.length_erase_of_mem hn]
    have hpos := List.length_pos_of_mem hn
    dsimp only at hcostly
    omega
  refine ⟨hedges, fun hfresh => ?_⟩
  rwa [List.toFinset_card_of_nodup (hwindow.distinct.nodup_replacement hfresh)]

theorem window_halts_at_gates_conjunctionOfThree :
    ∃ scratch, conjunctionOfThree.window [5] { cutSize := 1 } =
        .ok ([5], conjunctionOfThree.withScratch scratch) ∧
      1 < ([5].erase 5 ++ conjunctionOfThree.freshFanins scratch 5).toFinset.card := by
  have hself : conjunctionOfThree.window [5] { cutSize := 1 } =
      .ok ([5], conjunctionOfThree.withScratch _) :=
    window_singleton (by decide) past_conjunctionOfThree (by decide) (by decide) (by decide)
      (by decide)
  obtain ⟨scratch, hscratch, -, hgates⟩ := (@window_halts_at_gates conjunctionOfThree
    { cutSize := 1 } [5] built_conjunctionOfThree past_conjunctionOfThree (by decide) (by decide)
    (by decide) (by decide)).post_of_eq hself
  obtain rfl := congrArg Network.scratch hscratch
  exact ⟨_, hself, (hgates 5 (by decide) (by decide)).2 (by decide)⟩

/-- An input, and the gate that reads it twice. -/
def inputRepeated : Network :=
  let inputs := (new .lookupTable).addPi.2.insertFunction (TruthTable.ofWord 2 0x8)
  (inputs.2.appendGate [.ofNode 2, .ofNode 2] inputs.1).2

theorem built_inputRepeated : inputRepeated.Built := by
  have hcanonical := TruthTable.canonical_ofWord (by decide : 2 ≤ 6) 0x8
  have hinput : (new .lookupTable).addPi.2.Built := .addPi (.new _)
  refine .gate (hinput.function hcanonical) ⟨List.cons_ne_nil _ _, fun h => ?_, _,
    FunctionCache.get?_insert hinput.wellFormed.functions hcanonical, rfl⟩
      (createNode_eq_appendGate Std.HashMap.getElem?_empty (by decide))
  cases h

theorem past_inputRepeated : inputRepeated.scratch.Past := Scratch.past_of_forall_mem (by decide)

/-- The gate could give way to the one input. -/
theorem window_inputRepeated :
    inputRepeated.Built ∧ inputRepeated.Acyclic ∧ inputRepeated.scratch.Past ∧
      ∃ scratch, inputRepeated.window [3] { cutSize := 1 } =
          .ok ([3], inputRepeated.withScratch scratch) ∧
        inputRepeated.isGate 3 = true ∧ inputRepeated.freshFanins scratch 3 = [2, 2] ∧
          ¬ 1 < ([3].erase 3 ++ inputRepeated.freshFanins scratch 3).toFinset.card := by
  refine ⟨built_inputRepeated, acyclic_of_ordered (by decide), past_inputRepeated, _,
    window_singleton (by decide) past_inputRepeated (by decide) (by decide) (by decide) (by decide),
    by decide, by decide, by decide⟩

end LogicSynthesis.Network
