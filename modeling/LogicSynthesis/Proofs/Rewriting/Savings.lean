import LogicSynthesis.Proofs.Rewriting.Accounts
import LogicSynthesis.Proofs.Rewriting.Soundness

/-!
# What a batch saves

The gains of a batch add up when no choice counts on a gate that another one deletes. Choices that
are not joined in the conflict graph need not be of this kind. The graph compares the cones of cuts,
while the gates that die with a replaced gate may lie below its cut, and a replacement may read
gates outside of it.

## Main definitions

- `Network.Interferes`, `Network.Apart` — one choice deletes what another one counts on
- `Network.LeadsTo`, `Network.Redirected` — the edges after some choices were applied
- `Network.Remains` — the gates that were not freed, and those that were taken
- `Network.liveCost` — the cost of all live gates
- `Network.doubledConjunction`, `Network.conjunctionTwoWays` — a network and an oracle for which
  choices interfere

## Main statements

- `Redirected.live_remains` — the live gates after choices that keep apart
- `Redirected.liveCost_le` — what they cost
- `Redirected.card_liveGates` — each of these choices saves a gate
- `strict_batch_saves_gates` — a pass whose choices keep apart makes the network smaller
- `interfering_batch_adds_gate` — and one with choices that interfere may make it larger
-/

namespace LogicSynthesis.Network

open Relation

variable {base net mid net' : Network} {n m : NodeId}

/-- The first choice deletes a gate that the second one deletes as well or counts on: as its
replacement, or as a fanin of a gate that comes into use. Readers of the replaced gate itself are
redirected, so it may be such a fanin. -/
def Interferes (base net : Network) (c d : NodeId × Candidate) : Prop :=
  ∃ m, base.Freed c.1 m ∧ (base.Freed d.1 m ∨ d.2.replacement.node = m ∨
    m ≠ c.1 ∧ ∃ x, Taken base net d.1 d.2.replacement.node x ∧ net.Reads x m)

/-- Neither choice interferes with the other. -/
def Apart (base net : Network) (c d : NodeId × Candidate) : Prop :=
  ¬ Interferes base net c d ∧ ¬ Interferes base net d c

instance : Std.Symm (Apart base net) := ⟨fun _ _ h => And.symm h⟩

/-! ### Redirected edges -/

/-- Where an edge to `m` leads once the choices were applied: to `m` as before, or to what replaced
it. -/
inductive LeadsTo (applied : List (NodeId × Candidate)) (m : NodeId) : NodeId → Prop
  | kept (h : ∀ c ∈ applied, c.1 ≠ m) : LeadsTo applied m m
  | moved {c : NodeId × Candidate} (hc : c ∈ applied) (h : c.1 = m) :
      LeadsTo applied m c.2.replacement.node

section LeadsTo

variable {applied : List (NodeId × Candidate)} {c : NodeId × Candidate} {y : NodeId}

theorem LeadsTo.snoc (h : LeadsTo applied m y) (hne : y ≠ c.1) : LeadsTo (applied ++ [c]) m y := by
  cases h with
  | kept hkept =>
    refine .kept fun d hd => ?_
    rcases List.mem_append.mp hd with hd | hd
    · exact hkept d hd
    · rw [List.mem_singleton.mp hd]
      exact hne.symm
  | moved hd heq => exact .moved (List.mem_append_left _ hd) heq

/-- An edge to a gate that is replaced now was not moved before, unless the gate was itself a
replacement. -/
theorem LeadsTo.move (h : LeadsTo applied m c.1) (hne : ∀ d ∈ applied, d.2.replacement.node ≠ c.1) :
    LeadsTo (applied ++ [c]) m c.2.replacement.node := by
  generalize hy : c.1 = y at h
  cases h with
  | kept => exact .moved (List.mem_append_right _ List.mem_cons_self) hy
  | moved hd => exact absurd hy.symm (hne _ hd)

/-- The edges of `net'` are those of `net` after the choices were applied. -/
structure Redirected (net : Network) (applied : List (NodeId × Candidate)) (net' : Network) :
    Prop where
  isGate : ∀ n, net'.isGate n = net.isGate n
  reads : ∀ x y, net'.Reads x y → ∃ m, net.Reads x m ∧ LeadsTo applied m y
  outputs : ∀ s ∈ net'.cos, ∃ s' ∈ net.cos, LeadsTo applied s'.node s.node

theorem Redirected.refl (net : Network) : Redirected net [] net :=
  ⟨fun _ => rfl, fun _ y hreads => ⟨y, hreads, .kept fun _ hc => absurd hc List.not_mem_nil⟩,
    fun s hs => ⟨s, hs, .kept fun _ hc => absurd hc List.not_mem_nil⟩⟩

/-- One more choice is applied. -/
theorem Redirected.substitute (h : Redirected net applied mid)
    (hsub : Substituted mid c.1 c.2.replacement net') (hgone : ∀ s ∈ net'.edges, s.node ≠ c.1)
    (hne : ∀ d ∈ applied, d.2.replacement.node ≠ c.1) : Redirected net (applied ++ [c]) net' := by
  refine ⟨fun n => (hsub.kindIs_eq _ n).trans (h.isGate n), ?_, ?_⟩
  · intro x y hreads
    obtain ⟨e, he, rfl⟩ := reads_iff.mp hreads
    rcases hsub.reads hreads with hsame | ⟨-, hold, heq⟩
    · obtain ⟨m, hm, hleads⟩ := h.reads x _ hsame
      exact ⟨m, hm, hleads.snoc (hgone e (mem_edges_iff.mpr (.inl ⟨x, he⟩)))⟩
    · obtain ⟨m, hm, hleads⟩ := h.reads x _ hold
      rw [heq]
      exact ⟨m, hm, hleads.move hne⟩
  · intro s hs
    have hs' := hgone s (mem_edges_iff.mpr (.inr hs))
    rw [hsub.cos_eq] at hs
    obtain ⟨e, he, rfl⟩ := List.mem_map.mp hs
    obtain ⟨o, ho, hleads⟩ := h.outputs e he
    refine ⟨o, ho, ?_⟩
    by_cases heq : e.node = c.1
    · rw [redirect, if_pos heq, Signal.retarget]
      exact (heq ▸ hleads).move hne
    · rw [redirect_of_ne heq] at hs' ⊢
      exact hleads.snoc heq

end LeadsTo

/-! ### The gates that stay live -/

/-- What the gates cost that the outputs depend on. -/
noncomputable def liveCost (net : Network) (cost : NodeCost) : Nat := ∑ n ∈ net.liveGates, cost n

theorem liveCost_unitCost (net : Network) : net.liveCost unitCost = net.liveGates.card :=
  Finset.card_eq_sum_ones _ |>.symm

/-- The different members of a list cost at most what the list costs. -/
theorem sum_toFinset_le (cost : NodeCost) (ns : List NodeId) :
    ∑ n ∈ ns.toFinset, cost n ≤ costOf cost ns := by
  have hsame : ns.toFinset = ns.dedup.toFinset := by
    ext n
    rw [List.mem_toFinset, List.mem_toFinset, List.mem_dedup]
  rw [hsame, List.sum_toFinset cost ns.nodup_dedup]
  exact sum_map_le ns.nodup_dedup ns.dedup_subset cost

section Batch

variable {applied : List (NodeId × Candidate)}
  {freedBy takenBy : NodeId × Candidate → List NodeId}

/-- A gate at the start that no choice freed, or a gate that some choice took. -/
def Remains (base : Network) (applied : List (NodeId × Candidate))
    (freedBy takenBy : NodeId × Candidate → List NodeId) (n : NodeId) : Prop :=
  (base.isGate n = true ∧ ∀ c ∈ applied, n ∉ freedBy c) ∨ ∃ c ∈ applied, n ∈ takenBy c

/-- Where each choice saves a gate, all of them save as many as they are. -/
theorem length_taken_add_le (hless : ∀ c ∈ applied, (takenBy c).length + 1 ≤ (freedBy c).length) :
    (applied.flatMap takenBy).length + applied.length ≤ (applied.flatMap freedBy).length := by
  induction applied with
  | nil => exact Nat.le_refl 0
  | cons c applied ih =>
    obtain ⟨hc, hless⟩ := List.forall_mem_cons.mp hless
    have hrest := ih hless
    simp only [List.flatMap_cons, List.length_append, List.length_cons]
    omega

variable (hext : base.Extends net) (h : Redirected net applied net')
  (haccount : ∀ c ∈ applied, Account base net c.1 c.2.replacement.node (freedBy c) (takenBy c))

include hext h haccount

/-- An output that was not moved reads no freed gate. -/
theorem Redirected.output_remains (hwf : base.WellFormed) {o : Signal} (ho : o ∈ net'.cos)
    (hgate : net'.isGate o.node = true) : Remains base applied freedBy takenBy o.node := by
  obtain ⟨s, hs, hleads⟩ := h.outputs o ho
  rw [h.isGate] at hgate
  rw [hext.cos_eq] at hs
  generalize o.node = n at hgate hleads
  cases hleads with
  | moved hc => exact .inr ⟨_, hc, (haccount _ hc).replacement hgate⟩
  | kept hkept =>
    refine .inl ⟨(hext.kindIs_eq _ (hwf.output_lt hs)).symm.trans hgate, fun c hc hfreed => ?_⟩
    exact ((haccount c hc).closed _ hfreed (hkept c hc).symm).1 s hs rfl

/-- What a remaining gate reads remains. -/
theorem Redirected.fanin_remains (hwf : base.WellFormed)
    (hapart : applied.Pairwise (Apart base net)) {x y : NodeId}
    (hx : Remains base applied freedBy takenBy x) (hreads : net'.Reads x y)
    (hgate : net'.isGate y = true) : Remains base applied freedBy takenBy y := by
  obtain ⟨m, hm, hleads⟩ := h.reads x y hreads
  rw [h.isGate] at hgate
  cases hleads with
  | moved hc => exact .inr ⟨_, hc, (haccount _ hc).replacement hgate⟩
  | kept hkept =>
    rcases hx with ⟨hold, hfree⟩ | ⟨d, hd, htaken⟩
    · have hm' := (hext.reads_iff (lt_size_of_kindIs hold)).mp hm
      refine .inl ⟨(hext.kindIs_eq _ (hwf.reads_lt hm')).symm.trans hgate, fun c hc hfreed => ?_⟩
      exact hfree c hc (((haccount c hc).closed _ hfreed (hkept c hc).symm).2 x hm')
    · rcases (haccount d hd).fanin x htaken y hm hgate with htaken' | ⟨hold, hroot⟩
      · exact .inr ⟨d, hd, htaken'⟩
      · refine .inl ⟨hold, fun c hc hfreed => ?_⟩
        by_cases heq : c = d
        · subst heq
          exact hkept c hc (hroot hfreed).symm
        · exact (hapart.forall hc hd heq).1 ⟨y, (haccount c hc).frees y hfreed,
            .inr (.inr ⟨(hkept c hc).symm, x, (haccount d hd).takes x htaken, hm⟩)⟩

/-- The gates that the outputs still read remain. -/
theorem Redirected.live_remains (hwf : base.WellFormed) (hwf' : net'.WellFormed)
    (hapart : applied.Pairwise (Apart base net)) (hn : n ∈ net'.liveGates) :
    Remains base applied freedBy takenBy n := by
  obtain ⟨hgate, o, ho, hpath⟩ := mem_liveGates.mp hn
  clear hn
  induction hpath with
  | refl => exact h.output_remains hext haccount hwf ho hgate
  | tail _ hreads ih =>
    exact h.fanin_remains hext haccount hwf hapart (ih (hwf'.isGate_of_reads hreads)) hreads hgate

/-- The gates that the choices free are different ones. What stays live costs less by these, and
more by the gates that are taken. -/
theorem Redirected.liveCost_le (hwf : base.WellFormed) (hwf' : net'.WellFormed)
    (hlive : ∀ n, base.isGate n = true → base.Live n) (hapart : applied.Pairwise (Apart base net))
    (cost : NodeCost) :
    net'.liveCost cost + costOf cost (applied.flatMap freedBy) ≤
      base.liveCost cost + costOf cost (applied.flatMap takenBy) := by
  have hnodup : (applied.flatMap freedBy).Nodup := by
    refine List.nodup_flatMap.mpr ⟨fun c hc => (haccount c hc).nodup, ?_⟩
    refine hapart.imp_of_mem fun {c d} hc hd hcd m hm hm' => ?_
    exact hcd.1 ⟨m, (haccount c hc).frees m hm, .inl ((haccount d hd).frees m hm')⟩
  have hfreed : (applied.flatMap freedBy).toFinset ⊆ base.liveGates := by
    intro m hm
    obtain ⟨c, hc, hm⟩ := List.mem_flatMap.mp (List.mem_toFinset.mp hm)
    have hgate := (haccount c hc).isGate m hm
    exact mem_liveGates.mpr ⟨hgate, hlive m hgate⟩
  have hremain : net'.liveGates ⊆ base.liveGates \ (applied.flatMap freedBy).toFinset ∪
      (applied.flatMap takenBy).toFinset := by
    intro m hm
    simp only [Finset.mem_union, Finset.mem_sdiff, List.mem_toFinset, List.mem_flatMap]
    refine (h.live_remains hext haccount hwf hwf' hapart hm).imp ?_ id
    rintro ⟨hgate, hfree⟩
    refine ⟨mem_liveGates.mpr ⟨hgate, hlive m hgate⟩, ?_⟩
    rintro ⟨c, hc, hm⟩
    exact hfree c hc hm
  have hsum : net'.liveCost cost ≤ ∑ m ∈ base.liveGates \ (applied.flatMap freedBy).toFinset ∪
      (applied.flatMap takenBy).toFinset, cost m := Finset.sum_le_sum_of_subset hremain
  have hunion := @Finset.sum_union_inter _ _ (base.liveGates \ (applied.flatMap freedBy).toFinset)
    (applied.flatMap takenBy).toFinset _ cost _
  have hsplit : _ = base.liveCost cost := @Finset.sum_sdiff _ _ _ _ _ cost _ hfreed
  have hless := sum_toFinset_le cost (applied.flatMap takenBy)
  rw [List.sum_toFinset cost hnodup, ← costOf] at hsplit
  omega

/-- Where each choice saves a gate, the batch saves as many as were applied. -/
theorem Redirected.card_liveGates (hwf : base.WellFormed) (hwf' : net'.WellFormed)
    (hlive : ∀ n, base.isGate n = true → base.Live n) (hapart : applied.Pairwise (Apart base net))
    (hless : ∀ c ∈ applied, (takenBy c).length + 1 ≤ (freedBy c).length) :
    net'.liveGates.card + applied.length ≤ base.liveGates.card := by
  have hcost := h.liveCost_le hext haccount hwf hwf' hlive hapart unitCost
  rw [liveCost_unitCost, liveCost_unitCost, costOf_unitCost, costOf_unitCost] at hcost
  have hlengths := length_taken_add_le hless
  omega

end Batch

/-! ### Passes -/

variable {μ : Type} {permitted : Fault → Prop} {pivots : List NodeId} {oracle : Oracle μ}
  {memory : μ} {settings : RewriteSettings}

/-- The choices of a batch are applied, up to those that would close a cycle. -/
theorem Planned.applyChoices_redirected {allowed : Fault → Prop} {exact : Prop} {cost : NodeCost}
    {leastGain : Int} {plan : Plan μ} (h : Planned base permitted exact cost leastGain pivots plan)
    (hapart : plan.chosen.Pairwise (Apart base plan.net)) :
    Ends allowed (plan.net.applyChoices plan.chosen) fun r => Rewired exact plan.net r.2 ∧
      ∃ applied, applied.Sublist plan.chosen ∧ applied.length = r.1 ∧
        Redirected plan.net applied r.2 := by
  refine applyChoices_keeps h.proper h.replaces (fun before count net' => ∃ applied,
    applied.Sublist before ∧ applied.length = count ∧ Redirected plan.net applied net') ?_ ?_ ?_
  · exact ⟨[], .refl _, rfl, .refl plan.net⟩
  · rintro before c after count mid - ⟨applied, hsub, hcount, hredirected⟩
    exact ⟨applied, hsub.trans (List.sublist_append_left _ _), hcount, hredirected⟩
  · rintro before c after count mid net' hchosen hsubstituted hgone
      ⟨applied, hsub, hcount, hredirected⟩
    have hne : ∀ d ∈ applied, d.2.replacement.node ≠ c.1 := by
      intro d hd heq
      rw [hchosen, List.pairwise_append] at hapart
      exact (hapart.2.2 d (hsub.subset hd) c List.mem_cons_self).2 ⟨c.1, .root, .inr (.inl heq)⟩
    refine ⟨applied ++ [c], hsub.append (.refl _), ?_,
      hredirected.substitute hsubstituted hgone hne⟩
    rw [List.length_append, hcount]
    rfl

/-- A pass goes through when its plan and its batch do and no cycle is found. -/
theorem rewritePivots_eq {cost : NodeCost} {plan : Plan μ} {count : Nat}
    (hplan : base.planRewrite pivots oracle memory settings cost = .ok plan)
    (hbatch : plan.net.applyChoices plan.chosen = .ok (count, net'))
    (hcycles : net'.cycleNodes = []) :
    base.rewritePivots pivots oracle memory settings cost =
      .ok (⟨plan.candidates, plan.vertices, plan.edges, plan.chosen.length, count, plan.totalGain⟩,
        plan.memory, net') := by
  have hempty : net'.cycleNodes.isEmpty = true := by rw [hcycles]; rfl
  obtain ⟨memory', net, candidates, totalGain, vertices, edges, chosen⟩ := plan
  dsimp only at hbatch
  rw [rewritePivots, hplan, ok_bind]
  dsimp only
  rw [hbatch, ok_bind]
  dsimp only
  rw [require_of hempty]
  rfl

/-- A pass with least gain one over a network whose gates are all live. Unless two of the choices
interfere, the pass goes through and leaves at least one live gate less for each substitution. -/
theorem strict_batch_saves_gates (hbuilt : base.Built) (hac : base.Acyclic)
    (hlive : ∀ n, base.isGate n = true → base.Live n)
    (hstrict : settings.allowZeroGain = false)
    (hfeasible : Feasible permitted Query.Existing base pivots oracle memory settings unitCost) :
    Ends permitted (base.planRewrite pivots oracle memory settings unitCost) fun plan =>
      plan.net.totalCost unitCost < 2147483648 → plan.chosen.Pairwise (Apart base plan.net) →
        ∃ report net', base.rewritePivots pivots oracle memory settings unitCost =
            .ok (report, plan.memory, net') ∧
          net'.liveGates.card + report.substitutions ≤ base.liveGates.card := by
  have hnet : base.Proper := ⟨hbuilt.wellFormed, hac⟩
  have hplan := hfeasible.planRewrite_ends demands_existing hnet
  rw [hstrict] at hplan
  cases hrun : base.planRewrite pivots oracle memory settings unitCost with
  | error fault =>
    rw [hrun] at hplan
    exact hplan
  | ok plan =>
    rw [hrun] at hplan
    have hplan : Planned base permitted False unitCost 1 pivots plan := hplan
    intro hrange hapart
    obtain ⟨⟨count, net'⟩, happly, hrewired, applied, hsub, rfl, hredirected⟩ :=
      ends_never_iff.mp (hplan.applyChoices_redirected hapart)
    have hpass := rewritePivots_eq hrun happly
      (cycleNodes_eq_nil hrewired.proper.wellFormed hrewired.proper.acyclic)
    have hexists : ∀ c ∈ applied, ∃ freed taken, Account base plan.net c.1 c.2.replacement.node
        freed taken ∧ (1 : Int) + taken.length ≤ freed.length := by
      intro c hc
      have hoffered := hplan.chosen c (hsub.subset hc)
      exact exists_account hnet hplan.proper hplan.grown hlive hrange
        (hplan.pivots c (hsub.subset hc)).2 hoffered.replaces.lt hoffered.saves
    choose! freedBy takenBy haccount using hexists
    have hcard := hredirected.card_liveGates hplan.grown (fun c hc => (haccount c hc).1)
      hnet.wellFormed hrewired.proper.wellFormed hlive (hapart.sublist hsub) fun c hc => by
        have hless := (haccount c hc).2
        omega
    exact ⟨_, net', hpass, hcard⟩

/-- A pass over one gate chooses at most one candidate. -/
theorem Planned.pairwise_apart {exact : Prop} {cost : NodeCost} {leastGain : Int} {pivot : NodeId}
    {plan : Plan μ} (h : Planned base permitted exact cost leastGain [pivot] plan) :
    plan.chosen.Pairwise (Apart base plan.net) := by
  refine h.distinct.imp_of_mem fun {c d} hc hd hne => absurd ?_ hne
  rw [List.mem_singleton.mp (h.pivots c hc).1, List.mem_singleton.mp (h.pivots d hd).1]

theorem live_conjunctionOutput (n : NodeId) (h : conjunctionOutput.isGate n = true) :
    conjunctionOutput.Live n := by
  have hn : n = 4 ∨ n = 5 := by
    have hlt : n < 6 := lt_size_of_kindIs h
    revert h
    revert n
    decide
  refine ⟨⟨5, false⟩, by decide, ?_⟩
  rcases hn with rfl | rfl
  · exact .single (reads_iff.mpr ⟨⟨4, false⟩, by decide, rfl⟩)
  · exact .refl

/-- The outer gate is replaced by an input. -/
theorem strict_batch_saves_conjunctionOutput : ∃ report net',
    conjunctionOutput.rewritePivots [5] .eachLeaf () {} unitCost = .ok (report, (), net') ∧
      net'.liveGates.card + report.substitutions ≤ conjunctionOutput.liveGates.card := by
  have hbuilt := built_conjunctionOutput
  have hac := acyclic_conjunctionOutput
  have hbounded : Bounded Never unitCost conjunctionOutput := .inl (by decide)
  have hfeasible : Feasible Never Query.Existing conjunctionOutput [5] .eachLeaf () {} unitCost :=
    feasible_default hbounded (Oracle.serves_eachLeaf (fun _ => hbounded) fun _ _ _ h => h)
  obtain ⟨plan, hrun, hplan⟩ := ends_never_iff.mp
    (hfeasible.planRewrite_ends demands_existing ⟨hbuilt.wellFormed, hac⟩)
  have hsaves := (strict_batch_saves_gates hbuilt hac live_conjunctionOutput rfl
    hfeasible).post_of_eq hrun
  exact hsaves (hplan.bounded.resolve_right id).1 hplan.pairwise_apart

/-! ### A batch whose choices interfere -/

/-- Builds and proposes one signal after the other until told to stop. -/
def buildEach : List (Build Signal) → Network → Dialogue Unit
  | [], net => .finish () net
  | build :: rest, net =>
    match build net with
    | .error fault => .stop fault
    | .ok (s, net) =>
      .propose net s fun more net => if more then buildEach rest net else .finish () net

/-- The conjunction of three signals, written `c ∧ (a ∧ ¬(a ∧ ¬b))`. -/
def roundabout (a b c : Signal) : Build Signal := do
  let rest ← Build.and a (← Build.not b)
  Build.and c (← Build.and a (← Build.not rest))

/-- The conjunction of three signals, written `a ∧ ((a ∧ c) ∧ (b ∧ c))`. -/
def redundantly (a b c : Signal) : Build Signal := do
  let left ← Build.and a c
  let right ← Build.and b c
  Build.and a (← Build.and left right)

/-- Two forms of the conjunction of three leaves; other functions have none. -/
def conjunctionForms (function : TruthTable) (leaves : List Signal) : List (Build Signal) :=
  match leaves with
  | [a, b, c] =>
    if function = .ofWord 3 0x80 then [roundabout a b c, redundantly a b c] else []
  | _ => []

/-- Proposes a conjunction of three leaves in both forms, and nothing for other functions. -/
def conjunctionTwoWays : Oracle Unit :=
  .ofFunction fun function leaves net => buildEach (conjunctionForms function leaves) net

/-- Each of the signals answers the query when it is proposed. -/
theorem buildEach_keeps {terms : Oracle.Terms} {q : Query} {fin : Unit → Network → Prop}
    {width : Nat} (hadmits : ∀ net, terms.admits net)
    (haccepts : ∀ net s, q.Answered net s → terms.accepts q net s) (hnet : net.Proper)
    (hq : q.Valid width net) (hfin : ∀ net', net.GrowsTo net' → fin () net')
    {builds : List (Build Signal)}
    (hbuilds : ∀ build ∈ builds, ∀ net', net.GrowsTo net' →
      build.Computes net' fun inputs => q.function.bit (q.pattern net inputs)) :
    (buildEach builds net).Keeps terms q fin net := by
  suffices hgen : ∀ mid, net.GrowsTo mid → (buildEach builds mid).Keeps terms q fin mid from
    hgen net .refl
  induction builds with
  | nil => exact fun mid hmid => .finish .refl (hadmits mid) (hfin mid hmid)
  | cons build builds ih =>
    intro mid hmid
    obtain ⟨s, net', hrun, hgrow, hs⟩ := hbuilds build List.mem_cons_self mid hmid
    have hnet' := hmid.trans hgrow
    have hanswered : q.Answered net' s := by
      refine ⟨hs.lt, fun inputs _ => ?_⟩
      rw [hs.value, hq.pattern_eq hnet hnet']
    rw [buildEach, hrun]
    refine .propose hgrow (hadmits net') (haccepts net' s hanswered) fun more => ?_
    cases more with
    | true => exact ih (fun b hb => hbuilds b (List.mem_cons_of_mem build hb)) net' hnet'
    | false => exact .finish .refl (hadmits net') (hfin net' hnet')

section Conjunction

variable {a b c : Signal} {x y z : Assignment → Bool}

theorem computes_roundabout (hnet : net.Proper) (ha : net.Drives a x) (hb : net.Drives b y)
    (hc : net.Drives c z) :
    (roundabout a b c).Computes net fun inputs => x inputs && y inputs && z inputs := by
  apply (Build.computes_not hnet hb).bind
  intro nb net₁ hgrow₁ hnb
  have hnet₁ := hgrow₁.proper hnet
  have ha₁ := ha.grow hnet hgrow₁
  apply (Build.computes_and hnet₁ ha₁ hnb).bind
  intro rest net₂ hgrow₂ hrest
  have hnet₂ := hgrow₂.proper hnet₁
  apply (Build.computes_not hnet₂ hrest).bind
  intro nrest net₃ hgrow₃ hnrest
  have hnet₃ := hgrow₃.proper hnet₂
  have hgrow₁₃ := hgrow₂.trans hgrow₃
  apply (Build.computes_and hnet₃ (ha₁.grow hnet₁ hgrow₁₃) hnrest).bind
  intro inner net₄ hgrow₄ hinner
  have hc₄ := hc.grow hnet (hgrow₁.trans (hgrow₁₃.trans hgrow₄))
  refine (Build.computes_and (hgrow₄.proper hnet₃) hc₄ hinner).of_eq fun inputs => ?_
  cases x inputs <;> cases y inputs <;> cases z inputs <;> rfl

theorem computes_redundantly (hnet : net.Proper) (ha : net.Drives a x) (hb : net.Drives b y)
    (hc : net.Drives c z) :
    (redundantly a b c).Computes net fun inputs => x inputs && y inputs && z inputs := by
  apply (Build.computes_and hnet ha hc).bind
  intro left net₁ hgrow₁ hleft
  have hnet₁ := hgrow₁.proper hnet
  apply (Build.computes_and hnet₁ (hb.grow hnet hgrow₁) (hc.grow hnet hgrow₁)).bind
  intro right net₂ hgrow₂ hright
  have hnet₂ := hgrow₂.proper hnet₁
  apply (Build.computes_and hnet₂ (hleft.grow hnet₁ hgrow₂) hright).bind
  intro inner net₃ hgrow₃ hinner
  have ha₃ := ha.grow hnet (hgrow₁.trans (hgrow₂.trans hgrow₃))
  refine (Build.computes_and (hgrow₃.proper hnet₂) ha₃ hinner).of_eq fun inputs => ?_
  cases x inputs <;> cases y inputs <;> cases z inputs <;> rfl

end Conjunction

theorem computes_conjunctionForms {q : Query} {width : Nat} (hnet : net.Proper)
    (hq : q.Valid width net) {net' : Network} (hgrow : net.GrowsTo net') {build : Build Signal}
    (hbuild : build ∈ conjunctionForms q.function q.leaves) :
    build.Computes net' fun inputs => q.function.bit (q.pattern net inputs) := by
  obtain ⟨function, leaves, mask⟩ := q
  have hdrives : ∀ s ∈ leaves, net'.Drives s fun inputs => net.signalValue inputs s :=
    fun s hs => (drives_self (hq.exist s hs)).grow hnet hgrow
  dsimp only [conjunctionForms] at hbuild
  split at hbuild
  case h_2 => exact absurd hbuild List.not_mem_nil
  case h_1 a b c =>
    split at hbuild
    case isFalse => exact absurd hbuild List.not_mem_nil
    case isTrue hfunction =>
      have hvalue : ∀ inputs, (net.signalValue inputs a && net.signalValue inputs b &&
          net.signalValue inputs c) = function.bit
            (codeOf ([a, b, c].map (net.signalValue inputs))) := by
        intro inputs
        rw [hfunction, List.map_cons, List.map_cons, List.map_singleton]
        generalize net.signalValue inputs a = x, net.signalValue inputs b = y,
          net.signalValue inputs c = z
        revert x y z
        decide +kernel
      have ha := hdrives a (by simp)
      have hb := hdrives b (by simp)
      have hc := hdrives c (by simp)
      have hnet' := hgrow.proper hnet
      rcases List.mem_pair.mp hbuild with rfl | rfl
      · exact (computes_roundabout hnet' ha hb hc).of_eq hvalue
      · exact (computes_redundantly hnet' ha hb hc).of_eq hvalue

/-- The oracle answers the queries with both forms. -/
theorem serves_conjunctionTwoWays {terms : Oracle.Terms} (hadmits : ∀ net, terms.admits net)
    (haccepts : ∀ q net s, Query.Answered q net s → terms.accepts q net s) (hnet : net.Proper)
    (k : Nat) : conjunctionTwoWays.Serves terms k () net := by
  refine Oracle.serves_of_invariant (fun _ net => net.Proper) (fun _ _ _ h => h.withScratch) ?_ k
    hnet
  intro memory net q hnet hq
  exact buildEach_keeps hadmits (haccepts q) hnet hq (fun _ hgrow => hgrow.proper hnet)
    fun build hbuild net' hgrow => computes_conjunctionForms hnet hq hgrow hbuild

/-- The conjunction of three inputs, once in four gates and once in two, as two outputs. -/
def doubledConjunction : Network :=
  let pairs : List (NodeId × NodeId) := [(1, 3), (2, 3), (4, 5), (1, 6), (1, 2), (3, 8)]
  let net := pairs.foldl (fun net (a, b) =>
    (net.appendGate [.ofNode a, .ofNode b] Basis.gateLiteral).2) threeInputs
  { net with
    nodes := countReader (countReader net.nodes 7) 9
    pos := #[⟨7, false⟩, ⟨9, false⟩] }

theorem built_doubledConjunction : doubledConjunction.Built := by
  have h4 := @built_threeInputs.appendPair _ rfl ⟨1, false⟩ ⟨3, false⟩ (by cbv) (by decide)
  have h5 := @h4.appendPair _ rfl ⟨2, false⟩ ⟨3, false⟩ (by cbv) (by decide)
  have h6 := @h5.appendPair _ rfl ⟨4, false⟩ ⟨5, false⟩ (by cbv) (by decide)
  have h7 := @h6.appendPair _ rfl ⟨1, false⟩ ⟨6, false⟩ (by cbv) (by decide)
  have h8 := @h7.appendPair _ rfl ⟨1, false⟩ ⟨2, false⟩ (by cbv) (by decide)
  have h9 := @h8.appendPair _ rfl ⟨3, false⟩ ⟨8, false⟩ (by cbv) (by decide)
  exact .addPo (.addPo h9 (addPo_eq (s := ⟨7, false⟩) (by decide)))
    (addPo_eq (s := ⟨9, false⟩) (by decide))

theorem acyclic_doubledConjunction : doubledConjunction.Acyclic := acyclic_of_ordered (by decide)

theorem topoOrder_doubledConjunction : doubledConjunction.topoOrder = List.range 10 := by cbv

theorem live_doubledConjunction (n : NodeId) (h : doubledConjunction.isGate n = true) :
    doubledConjunction.Live n := by
  have hbuilt := built_doubledConjunction
  have hlisted : n ∈ doubledConjunction.topoOrder := by
    rw [topoOrder_doubledConjunction]
    exact List.mem_range.mpr (lt_size_of_kindIs h)
  exact (mem_liveGates.mp (mem_liveGates_of_topoOrder hbuilt.wellFormed acyclic_doubledConjunction
    hbuilt.inventory hlisted h)).2

/-- Cuts of three leaves, in a number that suffices here. -/
def threeLeaves : RewriteSettings := { cuts := { cutSize := 3, cutLimit := 4 } }

/-- Two choices of a strict batch that interfere, over a network whose gates are all live and with
an oracle that answers what it is asked. The four gates are replaced by three new ones, and the two
gates by the four, which thereby stay in use: six live gates become seven. -/
theorem interfering_batch_adds_gate :
    doubledConjunction.Built ∧ doubledConjunction.Acyclic ∧
    (∀ n, doubledConjunction.isGate n = true → doubledConjunction.Live n) ∧
    threeLeaves.allowZeroGain = false ∧
    Feasible (· = .overflow) Query.Answered doubledConjunction doubledConjunction.nodeIds
      conjunctionTwoWays () threeLeaves unitCost ∧
    ∃ r, doubledConjunction.rewrite conjunctionTwoWays () threeLeaves unitCost = .ok r ∧
      r.1.substitutions = 2 ∧ doubledConjunction.liveGates.card = 6 ∧ r.2.2.liveGates.card = 7 := by
  have hbuilt := built_doubledConjunction
  have hac := acyclic_doubledConjunction
  have hfree : ∀ net, Bounded (· = .overflow) unitCost net := fun _ => .inr rfl
  have hfeasible : Feasible (· = .overflow) Query.Answered doubledConjunction
      doubledConjunction.nodeIds conjunctionTwoWays () threeLeaves unitCost :=
    ⟨by decide, by decide, by decide, hfree _, nofun,
      serves_conjunctionTwoWays hfree (fun _ _ _ h => h) ⟨hbuilt.wellFormed, hac⟩ _⟩
  have hrun : (doubledConjunction.rewrite conjunctionTwoWays () threeLeaves unitCost).map (fun r =>
      (r.1.substitutions, r.2.2.topoOrder.countP r.2.2.isGate, r.2.2.basis,
        [NodeKind.isConstant, (· == .primaryInput), (· == .registerOutput)].map r.2.2.nodesOf)) =
      .ok (2, 7, .andInverter, [[0], [1, 2, 3], []]) := by cbv
  obtain ⟨r, hr, hresult⟩ := map_eq_ok hrun
  simp only [List.map_cons, List.map_nil, Prod.mk.injEq, List.cons.injEq] at hresult
  obtain ⟨hsubstitutions, hafter, hbasis, hconstants, hpis, hros, -⟩ := hresult
  obtain ⟨hproper, -, hpreserves⟩ := (rewritePivots_ends demands_answered
    ⟨hbuilt.wellFormed, hac⟩ hfeasible).post_of_eq hr
  have hinventory : r.2.2.Inventory := by
    refine ⟨?_, ?_, ?_⟩
    · rw [hconstants, hbasis]
      rfl
    · rw [hpis, (hpreserves trivial).pis]
      rfl
    · rw [hros, (hpreserves trivial).ros]
      rfl
  have hbefore : doubledConjunction.topoOrder.countP doubledConjunction.isGate = 6 := by
    rw [topoOrder_doubledConjunction]
    decide
  rw [countP_isGate_topoOrder hbuilt.wellFormed hac hbuilt.inventory] at hbefore
  rw [countP_isGate_topoOrder hproper.wellFormed hproper.acyclic hinventory] at hafter
  exact ⟨hbuilt, hac, live_doubledConjunction, rfl, hfeasible, r, hr, hsubstitutions, hbefore,
    hafter⟩

end LogicSynthesis.Network
