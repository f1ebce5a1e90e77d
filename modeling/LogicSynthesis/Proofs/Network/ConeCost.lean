import LogicSynthesis.Proofs.Network.FanoutFreeCone
import LogicSynthesis.Proofs.Network.Built

/-!
# What cones cost

Releasing a node and acquiring it are inverse to each other on all counts, those of the edges or
others: as long as no count runs out and no number leaves its range, either one takes back what the
other did. When the counts are those of the edges nothing runs out, and what a release takes away is
the part of the network that only the node needs. This part is determined by the edges alone, so the
order in which the gates are visited does not matter.

## Main definitions

- `Network.RanOut` — the faults of a walk on arbitrary counts
- `Network.FanoutFree` — a node together with the gates that only serve it

## Main statements

- `release_acquire_inverse` — each of the two walks undoes the other
- `FanoutFree.unique` — only one set of gates serves a node alone
- `coneCost_eq_sum_fanoutFree` — the cost of a cone is that of this set
-/

namespace LogicSynthesis.Network

open Relation

variable {net : Network} {cost : NodeCost} {n : NodeId}

/-! ### Two inverse walks -/

/-- A number left its range, or a count ran out of references. -/
def RanOut (fault : Fault) : Prop := fault = .overflow ∨ ∃ m, fault = .counterUnderflow m

/-- On arbitrary counts a release takes away the cone that is left without references, unless some
number runs out. -/
theorem release_ranOut (hwf : net.WellFormed) (hac : net.Acyclic) (hn : n < net.size) :
    Ends RanOut (net.release cost n) (net.IsReleased cost n) := by
  refine release_within hwf hac hn fun _ => ⟨net.nodeIds, List.mem_range.mpr hn, ?_, ?_⟩
  · exact .inr ⟨fun m hm => List.mem_range.mpr hm, fun m => .inr ⟨m, rfl⟩⟩
  · exact .inr (.inl rfl)

/-- An acquisition only fails when a number leaves its range, and a release takes it back. -/
theorem acquireContaining_undone (hwf : net.WellFormed) (hac : net.Acyclic) (hn : n < net.size)
    (target : NodeId) :
    Ends (· = .overflow) (net.acquireContaining cost n target) fun r =>
      r.2.release cost n = .ok (r.1.1, net) := by
  have hends : Ends (· = .overflow) (net.acquireContaining cost n target) fun r =>
      net.IsAcquired cost n r ∧ net.Detects n target r.1.2 := by
    refine acquireContaining_within hwf hac hn (fun _ => ⟨net.nodeIds,
      acquirable_nodeIds hwf hn _, ?_, ?_⟩) target
    · exact .inr rfl
    · exact .inr rfl
  refine hends.mono_eq ?_
  rintro r hrun ⟨hacquired, -⟩
  obtain ⟨⟨total, last⟩, hrelease, rfl, rfl⟩ := ends_never_iff.mp
    (hacquired.release hwf hac hn (.inl (acquireContaining_lt hrun)))
  exact hrelease

/-- Whatever the counts are: when a release of a node does not run out of references or of range,
an acquisition right after it has the same total and brings every count back. An acquisition of a
node, with or without a search for some other node, only fails when a count or the total leaves its
range, and a release right after it has the same total and brings every count back. -/
theorem release_acquire_inverse (hnet : net.Built) (hac : net.Acyclic) (hn : n < net.size)
    (hcounts : ∀ m, net.scratch.valueAt m < Scratch.valueBound) (cost : NodeCost)
    (target : NodeId) :
    (Ends RanOut (net.release cost n) fun r => r.2.acquire cost n = .ok (r.1, net)) ∧
    (Ends (· = .overflow) (net.acquire cost n) fun r => r.2.release cost n = .ok (r.1, net)) ∧
    (Ends (· = .overflow) (net.acquireContaining cost n target) fun r =>
      r.2.release cost n = .ok (r.1.1, net)) := by
  have hwf := hnet.wellFormed
  refine ⟨?_, ?_, acquireContaining_undone hwf hac hn target⟩
  · refine (release_ranOut hwf hac hn).mono_eq ?_
    rintro ⟨total, _⟩ hrun ⟨v', cone, scratch', hcone, rfl, hsum, hvalues, rfl⟩
    have hwf' : (net.withScratch scratch').WellFormed := hwf.revalue hvalues
    -- The counts only go back to where they were, so they stay in range on the way.
    obtain ⟨⟨restored, _⟩, hacquire, rfl, scratch'', hvalues', rfl⟩ := ends_never_iff.mp
      (acquire_restores hwf (extends_withScratch net scratch') hwf'
        (acyclic_withScratch hac scratch') hn hcone hsum hvalues.valueAt (.inl hcounts)
        (.inl (release_lt hrun)))
    have hsame : scratch'' = net.scratch := (hvalues.trans hvalues').unique (.refl _)
    subst hsame
    exact hacquire
  · apply (acquireContaining_undone hwf hac hn n).bind
    intro r hrelease
    exact hrelease

/-- The conjunction of three inputs, with counts that are not those of its edges: the inner gate has
its one reference, and the inputs have some to spare. -/
def looselyCounted : Network :=
  conjunctionOfThree.withScratch
    { conjunctionOfThree.scratch with values := #[0, 3, 7, 4294967295, 1, 9] }

theorem built_looselyCounted : looselyCounted.Built :=
  .annotate built_conjunctionOfThree rfl rfl

/-- Both gates go when the outer one is released, and both come back. -/
theorem release_acquire_inverse_looselyCounted : ∃ r,
    looselyCounted.release unitCost 5 = .ok r ∧
    r.2.acquire unitCost 5 = .ok (r.1, looselyCounted) := by
  have hbuilt := built_looselyCounted
  have hac : looselyCounted.Acyclic := acyclic_conjunctionOfThree
  have hcounts : ∀ m, looselyCounted.scratch.valueAt m < Scratch.valueBound := by
    intro m
    have hvalues : looselyCounted.scratch.values = #[0, 3, 7, 4294967295, 1, 9] := rfl
    rw [Scratch.valueAt, hvalues]
    by_cases hm : m < 6
    · interval_cases m <;> decide
    · rw [Array.getElem?_eq_none (Nat.not_lt.mp hm)]
      exact Nat.zero_lt_succ _
  have hlt : ∀ m, (∃ x ∈ [5, 4], looselyCounted.Reads x m) → m < 6 := by
    rintro m ⟨x, -, hreads⟩
    exact hbuilt.wellFormed.reads_lt hreads
  have hreleasable : looselyCounted.Releasable looselyCounted.scratch.valueAt [5, 4] := by
    refine ⟨fun m => ?_, fun m hterm hout hreads => ?_⟩
    · rcases Nat.eq_zero_or_pos (looselyCounted.loads [5, 4] m) with hzero | hpos
      · rw [hzero]
        exact Nat.zero_le _
      · have hm := hlt m (loads_pos_iff.mp hpos)
        interval_cases m <;> decide
    · have hm := hlt m hreads
      interval_cases m <;> revert hterm hout <;> decide
  have hcost : Affordable Never looselyCounted unitCost :=
    .inl fun ns hnodup hgates => (costOf_le_totalCost hnodup hgates).trans_lt (by decide)
  obtain ⟨r, hrelease, -⟩ := ends_never_iff.mp (release_ends hbuilt.wellFormed hac
    (show 5 < looselyCounted.size by decide)
    (fun _ => ⟨[5, 4], List.mem_cons_self, hreleasable⟩) hcost)
  have hinverse := (@release_acquire_inverse _ 5 hbuilt hac (by decide) hcounts unitCost 4).1
  exact ⟨r, hrelease, hinverse.post_of_eq hrelease⟩

/-! ### Gates that serve one node only -/

/-- The set `M` has `n`, and besides it exactly the gates of the fanin cone of `n` that no output
reads and that only nodes of `M` read. -/
structure FanoutFree (net : Network) (n : NodeId) (M : Set NodeId) : Prop where
  root : n ∈ M
  mem_iff : ∀ x, x ≠ n → (x ∈ M ↔ net.isGate x = true ∧ TransGen net.Reads n x ∧
    (∀ s ∈ net.cos, s.node ≠ x) ∧ ∀ y, net.Reads y x → y ∈ M)

/-- Whether a node belongs to the set depends on its readers, so there is only one such set. -/
theorem FanoutFree.unique (hac : net.Acyclic) {M M' : Set NodeId} (h : net.FanoutFree n M)
    (h' : net.FanoutFree n M') : M = M' := by
  ext x
  induction x using hac.induction_readers with
  | _ x ih =>
    by_cases heq : x = n
    · subst heq
      exact ⟨fun _ => h'.root, fun _ => h.root⟩
    · have hreaders : (∀ y, net.Reads y x → y ∈ M) ↔ ∀ y, net.Reads y x → y ∈ M' :=
        forall_congr' fun y => imp_congr_right fun hreads => ih y hreads
      rw [h.mem_iff x heq, h'.mem_iff x heq, hreaders]

/-- A node that no output reads has its edges from its readers. -/
theorem loads_eq_readers {ns : List NodeId} {m : NodeId} (hnodup : ns.Nodup)
    (hcos : ∀ s ∈ net.cos, s.node ≠ m) (hreaders : ∀ x, net.Reads x m → x ∈ ns) :
    net.loads ns m = net.readers m := by
  have hnone : net.cos.countP (·.node == m) = 0 := by
    rw [List.countP_eq_zero]
    intro s hs
    rw [beq_iff_eq]
    exact hcos s hs
  have hall : net.loads ns m = net.loads net.nodeIds m := by
    apply loads_congr hnodup List.nodup_range
    intro x hreads
    exact ⟨fun _ => List.mem_range.mpr hreads.lt_size, fun _ => hreaders x hreads⟩
  rw [hall, loads_nodeIds, readers_eq, hnone, Nat.add_zero]

/-- The cone that a release takes away from the counts of the edges serves the node only. -/
theorem Cone.fanoutFree (hwf : net.WellFormed) (hn : n < net.size) {v : NodeId → Nat}
    {cone : List NodeId} (h : net.Cone v n cone)
    (hsum : ∀ m, v m + net.loads cone m = net.readers m) : net.FanoutFree n {x | x ∈ cone} := by
  have hlt : ∀ x ∈ cone, x < net.size := by
    intro x hx
    by_cases heq : x = n
    · exact heq ▸ hn
    · obtain ⟨-, -, y, -, hreads⟩ := (h.mem_iff x heq).mp hx
      exact hwf.reads_lt hreads
  refine ⟨h.root, fun x hne => ?_⟩
  have hsum := hsum x
  show x ∈ cone ↔ _
  rw [h.mem_iff x hne]
  constructor
  · rintro ⟨hterm, hzero, y, hy, hreads⟩
    have hx : x ∈ cone := (h.mem_iff x hne).mpr ⟨hterm, hzero, y, hy, hreads⟩
    obtain ⟨hcos, hreaders⟩ := eq_of_loads_eq_readers h.nodup hlt
      (show net.loads cone x = net.readers x by omega)
    have hpath : TransGen net.Reads n x :=
      (reflTransGen_iff_eq_or_transGen.mp (h.path x hx)).resolve_left hne
    exact ⟨isGate_of_reads_of_not_terminal (fun _ _ h => hwf.reads_lt h) hreads hterm, hpath, hcos,
      hreaders⟩
  · rintro ⟨hgate, hpath, hcos, hreaders⟩
    obtain ⟨y, -, hreads⟩ := TransGen.tail'_iff.mp hpath
    have hall := loads_eq_readers h.nodup hcos hreaders
    exact ⟨isTerminal_of_isGate hgate, by omega, y, hreaders y hreads, hreads⟩

/-- With the counts of the edges, the cost of the cone of a node is found without a fault and
without a trace. Inputs and constants have none. That of a gate is what the gates cost that serve it
only, and there is one set of these. -/
theorem coneCost_eq_sum_fanoutFree (hnet : net.Built) (hac : net.Acyclic)
    (hfanout : ∀ m, net.readers m < Scratch.valueBound) (hcost : net.totalCost cost < costBound) :
    ∃ counted, net.initReferenceCounts = .ok counted ∧ ∀ n < net.size, ∃ k,
      counted.coneCost cost n = .ok (k, counted) ∧ (net.isTerminal n = true → k = 0) ∧
      (net.isGate n = true → ∃ M : Finset NodeId, net.FanoutFree n M ∧
        (∀ S, net.FanoutFree n S → S = M) ∧ k = ∑ x ∈ M, cost x) := by
  have hwf := hnet.wellFormed
  obtain ⟨_, hinit, scratch, hscratch, rfl⟩ :=
    ends_never_iff.mp (initReferenceCounts_within hwf (.inl hfanout))
  refine ⟨_, hinit, fun n hn => ?_⟩
  have hwf' : (net.withScratch scratch).WellFormed := hwf.revalue hscratch
  have hbound : net.isGate n = true → ∃ bound, n ∈ bound ∧
      ReleasableWithin Never (net.withScratch scratch) scratch.valueAt bound ∧
        AffordableWithin Never (net.withScratch scratch) cost bound := by
    intro hgate
    refine ⟨net.nodeIds.filter net.isGate, ?_, .inl ?_, affordableWithin_of_costOf (.inl hcost)⟩
    · exact List.mem_filter.mpr ⟨List.mem_range.mpr hn, hgate⟩
    · rw [hscratch.valueAt]
      exact releasable_withScratch (releasable_gates hwf) scratch
  have hroom : ∀ m, scratch.valueAt m < Scratch.valueBound := by
    rw [hscratch.valueAt]
    exact hfanout
  obtain ⟨⟨k, _⟩, hrun, rfl, -, v, cone, hcone, hsum, rfl⟩ := ends_never_iff.mp
    (coneCost_freed hwf' hac hn hbound (.inl hroom))
  replace hcone := hcone.of_withScratch
  refine ⟨_, hrun, fun hterm => ?_, fun hgate => ?_⟩
  · rw [IsCone, if_pos hterm] at hcone
    rw [hcone]
    rfl
  · have hfree : net.FanoutFree n {x | x ∈ cone} :=
      (hcone.cone (isTerminal_of_isGate hgate)).fanoutFree hwf hn
        fun m => (hsum m).trans (congrFun hscratch.valueAt m)
    rw [← List.coe_toFinset] at hfree
    refine ⟨cone.toFinset, hfree, fun S hS => hS.unique hac hfree, ?_⟩
    rw [costOf, List.sum_toFinset cost hcone.nodup]

/-- Nothing reads the outer of two conjunctions, and only the outer one reads the inner one. -/
theorem coneCost_eq_sum_fanoutFree_conjunctionOfThree : ∃ counted,
    conjunctionOfThree.initReferenceCounts = .ok counted ∧
    counted.coneCost (fun n => n) 5 = .ok (9, counted) := by
  have hfanout : ∀ m, conjunctionOfThree.readers m < Scratch.valueBound :=
    fun m => List.countP_le_length.trans_lt (by decide)
  have hfree : conjunctionOfThree.FanoutFree 5 ({5, 4} : Finset NodeId) := by
    refine ⟨by decide, fun x hne => ?_⟩
    rw [Finset.mem_coe, Finset.mem_insert, Finset.mem_singleton]
    constructor
    · rintro (heq | rfl)
      · exact absurd heq hne
      · refine ⟨by decide, .single (show 4 ∈ conjunctionOfThree.faninNodes 5 by decide), ?_, ?_⟩
        · exact fun s hs => absurd hs List.not_mem_nil
        · intro y hreads
          have hy : y < 6 := hreads.lt_size
          interval_cases y <;> revert hreads <;> unfold Reads <;> decide
    · rintro ⟨hgate, -⟩
      have hx : x < 6 := lt_size_of_kindIs hgate
      interval_cases x <;> revert hgate <;> decide
  obtain ⟨counted, hinit, hcones⟩ := @coneCost_eq_sum_fanoutFree conjunctionOfThree (fun n => n)
    built_conjunctionOfThree acyclic_conjunctionOfThree hfanout (by decide)
  obtain ⟨k, hrun, -, hgate⟩ := hcones 5 (by decide)
  obtain ⟨M, -, hunique, rfl⟩ := hgate (by decide)
  obtain rfl : ({5, 4} : Finset NodeId) = M := Finset.coe_injective (hunique _ hfree)
  exact ⟨counted, hinit, hrun⟩

end LogicSynthesis.Network
