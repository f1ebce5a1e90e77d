import LogicSynthesis.Proofs.Rewriting.Savings

/-!
# Rewriting one gate

A pass over one gate applies at most one candidate, so nothing interferes with it: what its gain
counts on is still there when it is applied. The gates that die with the gate are no longer live,
and of all others only those that the gain pays for come into use.

## Main statements

- `Planned.chosen_singleton` — what a pass over one gate chooses
- `single_choice_honours_gain` — the live gates cost less by the gain at least
-/

namespace LogicSynthesis.Network

variable {μ : Type} {permitted : Fault → Prop} {base net net' : Network} {cost : NodeCost}
  {p : NodeId}

/-- The nodes that are given are those of a pass over one gate. -/
theorem rewriteNodes_singleton (hp : base.isGate p = true) (oracle : Oracle μ) (memory : μ)
    (settings : RewriteSettings) (cost : NodeCost) :
    base.rewriteNodes [p] oracle memory settings cost =
      base.rewritePivots [p] oracle memory settings cost := by
  have hmem : p ∈ base.nodeIds := List.mem_range.mpr (lt_size_of_kindIs hp)
  have hnodup : base.nodeIds.Nodup := List.nodup_range
  have hfilter : base.nodeIds.filter [p].contains = [p] := by
    have heq : ∀ n, [p].contains n = (n == p) := fun n => by
      rw [List.contains_cons, List.contains_nil, Bool.or_false]
    rw [funext heq, List.filter_beq, List.count_eq_one_of_mem hnodup hmem]
    rfl
  rw [rewriteNodes, hfilter]

/-- The nodes keep their kinds in a batch, so all gates together cost the same. -/
theorem Rewired.totalCost_eq {exact : Prop} (h : Rewired exact net net') (cost : NodeCost) :
    net'.totalCost cost = net.totalCost cost := by
  have hgates : net'.isGate = net.isGate := funext (h.kinds NodeKind.isGate)
  rw [totalCost, totalCost, nodeIds, nodeIds, h.size, hgates]

/-- A pass over one gate has at most one choice. -/
theorem Planned.chosen_singleton {exact : Prop} {leastGain : Int} {plan : Plan μ}
    (h : Planned base permitted exact cost leastGain [p] plan) :
    plan.chosen = [] ∨ ∃ c, plan.chosen = [(p, c)] := by
  have hpivot : ∀ choice ∈ plan.chosen, choice.1 = p :=
    fun choice hc => List.mem_singleton.mp (h.pivots choice hc).1
  have hdistinct := h.distinct
  revert hpivot hdistinct
  cases plan.chosen with
  | nil => exact fun _ _ => .inl rfl
  | cons choice rest =>
    intro hpivot hdistinct
    obtain ⟨q, c⟩ := choice
    obtain rfl : q = p := hpivot _ List.mem_cons_self
    refine .inr ⟨c, ?_⟩
    cases rest with
    | nil => rfl
    | cons other rest =>
      have hne := List.rel_of_pairwise_cons hdistinct List.mem_cons_self
      exact absurd (hpivot other (List.mem_cons_of_mem _ List.mem_cons_self)).symm hne

/-- A batch of one choice replaces the gate, or leaves the network as it is. -/
theorem applyChoices_singleton {c : Candidate} {count : Nat}
    (h : net.applyChoices [(p, c)] = .ok (count, net')) :
    count = 1 ∧ net.applyCandidate p c.replacement = .ok (some net') ∨ count = 0 ∧ net' = net := by
  rw [applyChoices, List.foldlM_cons] at h
  obtain ⟨state, hstep, hdone⟩ := bind_eq_ok h
  obtain rfl := Except.ok.inj hdone
  obtain ⟨outcome, happly, hstep⟩ := bind_eq_ok hstep
  cases outcome with
  | none =>
    obtain ⟨rfl, rfl⟩ := Prod.mk.inj (Except.ok.inj hstep)
    exact .inr ⟨rfl, rfl⟩
  | some net'' =>
    obtain ⟨rfl, rfl⟩ := Prod.mk.inj (Except.ok.inj hstep)
    exact .inl ⟨rfl, happly⟩

/-- What one applied candidate saves. -/
theorem Redirected.liveCost_add_gain_le {leastGain : Int} {c : Candidate} (hbase : base.Proper)
    (hnet : net.Proper) (hnet' : net'.Proper) (hext : base.Extends net)
    (hlive : ∀ n, base.isGate n = true → base.Live n) (hrange : net.totalCost cost < 2147483648)
    (hp : base.isGate p = true) (hlt : c.replacement.node < net.size)
    (hsaves : Saves base cost leastGain p net c) (h : Redirected net [(p, c)] net') :
    c.gain + net'.liveCost cost ≤ base.liveCost cost := by
  obtain ⟨freed, taken, haccount, hgain⟩ :=
    exists_account_costOf hbase hnet hext hlive hrange hp hlt hsaves
  have haccounts : ∀ d ∈ [(p, c)], Account base net d.1 d.2.replacement.node freed taken := by
    intro d hd
    rw [List.mem_singleton.mp hd]
    exact haccount
  have hcost := @Redirected.liveCost_le _ _ _ [(p, c)] (fun _ => freed) (fun _ => taken) hext h
    haccounts hbase.wellFormed hnet'.wellFormed hlive (List.pairwise_singleton _ _) cost
  simp only [List.flatMap_cons, List.flatMap_nil, List.append_nil] at hcost
  omega

/-- A pass over one gate of a network whose gates are all live replaces the gate at most once. When
it does and all gates together cost less than `2 ^ 31` afterwards, the live gates cost less than
before by the gain of the candidate that was applied, or by more. -/
theorem single_choice_honours_gain (hbuilt : base.Built) (hac : base.Acyclic)
    (hlive : ∀ n, base.isGate n = true → base.Live n)
    (hp : base.isGate p = true) {oracle : Oracle μ} {memory : μ} {settings : RewriteSettings}
    (hfeasible : Feasible permitted Query.Existing base [p] oracle memory settings cost) :
    Ends permitted (base.rewriteNodes [p] oracle memory settings cost) fun r =>
      r.1.substitutions ≤ 1 ∧
      (r.1.substitutions = 1 → r.2.2.totalCost cost < 2147483648 →
        ∃ plan c, base.planRewrite [p] oracle memory settings cost = .ok plan ∧
          plan.chosen = [(p, c)] ∧
          plan.net.applyCandidate p c.replacement = .ok (some r.2.2) ∧
          c.gain + r.2.2.liveCost cost ≤ base.liveCost cost) := by
  have hbase : base.Proper := ⟨hbuilt.wellFormed, hac⟩
  rw [rewriteNodes_singleton hp]
  refine (hfeasible.planRewrite_ends demands_existing hbase).bind_eq ?_
  intro plan hrun hplan
  refine (hplan.applyChoices_redirected hplan.pairwise_apart).bind_eq ?_
  rintro ⟨count, net'⟩ happly ⟨hrewired, applied, hsub, hcount, hredirected⟩
  refine (Ends.require (.inl hrewired.proper.isEmpty_cycleNodes)).bind fun _ _ => ?_
  change applied.length = count at hcount
  show count ≤ 1 ∧ (count = 1 → net'.totalCost cost < 2147483648 → _)
  subst hcount
  rcases hplan.chosen_singleton with hnone | ⟨c, hchosen⟩
  · have hzero : applied = [] := List.sublist_nil.mp (hnone ▸ hsub)
    rw [hzero]
    exact ⟨Nat.zero_le 1, fun hone => absurd hone Nat.zero_ne_one⟩
  · rw [hchosen] at happly hsub
    refine ⟨hsub.length_le, fun hone hrange => ⟨plan, c, hrun, hchosen, ?_, ?_⟩⟩
    · rcases applyChoices_singleton happly with ⟨-, hcandidate⟩ | ⟨hzero, -⟩
      · exact hcandidate
      · exact absurd (hone.symm.trans hzero) Nat.one_ne_zero
    · have hoffered := hplan.chosen (p, c) (hchosen ▸ List.mem_cons_self)
      rw [hsub.eq_of_length hone] at hredirected
      rw [hrewired.totalCost_eq] at hrange
      exact hredirected.liveCost_add_gain_le hbase hplan.proper hrewired.proper hplan.grown hlive
        hrange hp hoffered.replaces.lt hoffered.saves

/-- Gates that cost as much as their number: the outer one is replaced by an input, and both go. -/
theorem single_choice_honours_conjunctionOutput : ∃ r,
    conjunctionOutput.rewriteNodes [5] .eachLeaf () {} (fun n => n) = .ok r ∧
      r.1.substitutions = 1 ∧
      (9 : Int) + r.2.2.liveCost (fun n => n) ≤ conjunctionOutput.liveCost fun n => n := by
  have hbuilt := built_conjunctionOutput
  have hbounded : Bounded Never (fun n => n) conjunctionOutput := .inl (by decide)
  have hfeasible : Feasible Never Query.Existing conjunctionOutput [5] .eachLeaf () {}
      (fun n => n) :=
    feasible_default hbounded (Oracle.serves_eachLeaf (fun _ => hbounded) fun _ _ _ h => h)
  obtain ⟨r, hrun, -, hsaves⟩ := ends_never_iff.mp
    (single_choice_honours_gain hbuilt acyclic_conjunctionOutput
      live_conjunctionOutput (by decide) hfeasible)
  have hone : (conjunctionOutput.rewriteNodes [5] .eachLeaf () {} (fun n => n)).map
      (fun r => (r.1.substitutions, decide (r.2.2.totalCost (fun n => n) < 2147483648))) =
        .ok (1, true) := by cbv
  have hchosen : (conjunctionOutput.planRewrite [5] .eachLeaf () {} (fun n => n)).map
      Plan.chosen = .ok [(5, ⟨9, ⟨1, false⟩⟩)] := by cbv
  rw [hrun, map_ok] at hone
  obtain ⟨hsubstitutions, hrange⟩ := Prod.mk.inj (Except.ok.inj hone)
  obtain ⟨plan, c, hplan, hplanned, -, hless⟩ := hsaves hsubstitutions (of_decide_eq_true hrange)
  rw [hplan, map_ok, hplanned] at hchosen
  obtain rfl : c = ⟨9, ⟨1, false⟩⟩ := (Prod.mk.inj (List.cons.inj (Except.ok.inj hchosen)).1).2
  exact ⟨r, hrun, hsubstitutions, hless⟩

end LogicSynthesis.Network
