import LogicSynthesis.Proofs.Network.Cycles
import LogicSynthesis.Proofs.Resynthesis.Collapse
import LogicSynthesis.Proofs.Rewriting.Batch

/-!
# Cut rewriting keeps networks intact

A pass goes through with any oracle that creates gates and proposes existing signals: it closes no
cycle, and none of its own checks fails. When the oracle answers what it is asked, the pass keeps
the inputs, the values of the outputs and the values of all nodes that were there. The same holds
for passes one after another.

## Main definitions

- `Network.Preserves` — a network with the same inputs, nodes and outputs as far as values go
- `Network.Feasible` — what a pass is promised
- `Network.Passes` — passes one after another

## Main statements

- `rewritePivots_ends` — a pass goes through
- `rewriting_preserves_values` — passes keep all values
- `rewriting_closes_no_cycle` — no substitution of a pass closes a cycle
-/

namespace LogicSynthesis.Network

variable {μ : Type} {permitted : Fault → Prop} {cost : NodeCost} {net mid net' : Network}

/-- The inputs are the same, the nodes are still there with their values, and so are the outputs in
their order, under every assignment of the inputs. -/
structure Preserves (net net' : Network) : Prop where
  pis : net'.pis = net.pis
  ros : net'.ros = net.ros
  size : net.size ≤ net'.size
  nodes : ∀ n < net.size, ∀ inputs, net'.value inputs n = net.value inputs n
  pos : ∀ inputs, net'.pos.map (net'.signalValue inputs) = net.pos.map (net.signalValue inputs)
  ris : ∀ inputs, net'.ris.map (net'.signalValue inputs) = net.ris.map (net.signalValue inputs)

theorem Preserves.refl (net : Network) : net.Preserves net :=
  ⟨rfl, rfl, Nat.le_refl _, fun _ _ _ => rfl, fun _ => rfl, fun _ => rfl⟩

theorem Preserves.trans (h : net.Preserves mid) (h' : mid.Preserves net') : net.Preserves net' := by
  refine ⟨h'.pis.trans h.pis, h'.ros.trans h.ros, h.size.trans h'.size, ?_, ?_, ?_⟩
  · exact fun n hn inputs =>
      (h'.nodes n (hn.trans_le h.size) inputs).trans (h.nodes n hn inputs)
  · exact fun inputs => (h'.pos inputs).trans (h.pos inputs)
  · exact fun inputs => (h'.ris inputs).trans (h.ris inputs)

/-- Growing keeps the values of what was there. -/
theorem Extends.preserves (h : net.Extends net') (hnet : net.Proper) : net.Preserves net' := by
  have houtputs : ∀ (outputs : Array Signal), (∀ s ∈ outputs, s.node < net.size) → ∀ inputs,
      outputs.map (net'.signalValue inputs) = outputs.map (net.signalValue inputs) := by
    intro outputs hlt inputs
    exact Array.map_congr_left fun s hs =>
      h.signalValue_eq hnet.wellFormed hnet.acyclic inputs (hlt s hs)
  refine ⟨h.pis, h.ros, h.size_le, ?_, ?_, ?_⟩
  · exact fun n hn inputs => h.value_eq hnet.wellFormed hnet.acyclic inputs hn
  · rw [h.pos]
    refine houtputs net.pos fun s hs => hnet.wellFormed.output_lt ?_
    exact List.mem_append_left _ (Array.mem_def.mp hs)
  · rw [h.ris]
    refine houtputs net.ris fun s hs => hnet.wellFormed.output_lt ?_
    exact List.mem_append_right _ (Array.mem_def.mp hs)

theorem Rewired.preserves (h : Rewired True net net') : net.Preserves net' :=
  ⟨h.pis, h.ros, h.size.ge, fun n _ inputs => h.values trivial inputs n, h.pos trivial,
    h.ris trivial⟩

/-- What a pass is promised: sensible settings, costs and edges in range, and an oracle that keeps
to its terms in as many queries as there are cuts. Unless an overflow is permitted, the oracle keeps
costs and edges in range too. A pass with don't-cares begins a walk for each query, so it takes
marks in order and numbers for these walks. -/
structure Feasible (permitted : Fault → Prop) (accepts : Query → Network → Signal → Prop)
    (net : Network) (pivots : List NodeId) (oracle : Oracle μ) (memory : μ)
    (settings : RewriteSettings) (cost : NodeCost) : Prop where
  limit_pos : 1 ≤ settings.cuts.cutLimit
  limit_lt : settings.cuts.cutLimit < 2 ^ 62
  width : settings.cuts.cutSize ≤ TruthTable.maxVars
  bounded : Bounded permitted cost net
  walks : wantsDontCares settings oracle = true →
    net.scratch.CanWalk permitted (pivots.length * settings.cuts.cutLimit)
  serves : oracle.Serves (passTerms permitted cost settings.cuts.cutSize accepts)
    (pivots.length * settings.cuts.cutLimit) memory net

section Pass

variable {accepts : Query → Network → Signal → Prop} {exact : Prop} {pivots : List NodeId}
  {oracle : Oracle μ} {memory : μ} {settings : RewriteSettings}

theorem Feasible.allowed
    (h : Feasible permitted accepts net pivots oracle memory settings cost) :
    settings.cuts.Allowed permitted := ⟨.inl h.limit_pos, .inl h.limit_lt, .inl h.width⟩

/-- The plan of a feasible pass, and the batch up to any choice. -/
theorem Feasible.planRewrite_ends (hdemands : Demands exact accepts) (hnet : net.Proper)
    (h : Feasible permitted accepts net pivots oracle memory settings cost) :
    Ends permitted (net.planRewrite pivots oracle memory settings cost)
      (Planned net permitted exact cost (minGain settings.allowZeroGain) pivots) :=
  Network.planRewrite_ends hdemands hnet h.bounded h.allowed h.walks (by
    rw [Nat.min_eq_left h.width]
    exact h.serves)

theorem Planned.replaces {leastGain : Int} {plan : Plan μ}
    (h : Planned net permitted exact cost leastGain pivots plan) (choice : NodeId × Candidate)
    (hchoice : choice ∈ plan.chosen) : plan.net.isGate choice.1 = true ∧
      Replaces exact choice.1 plan.net choice.2.replacement := by
  obtain ⟨-, hgate⟩ := h.pivots choice hchoice
  exact ⟨(h.grown.kindIs_eq _ (lt_size_of_kindIs hgate)).trans hgate,
    (h.chosen choice hchoice).replaces⟩

/-- Whatever a plan was permitted, the batch stops with no fault. -/
theorem Planned.applyChoices_ends {allowed : Fault → Prop} {leastGain : Int} {plan : Plan μ}
    (h : Planned net permitted exact cost leastGain pivots plan)
    {chosen : List (NodeId × Candidate)} (hsub : chosen ⊆ plan.chosen) :
    Ends allowed (plan.net.applyChoices chosen) fun r => Rewired exact plan.net r.2 :=
  Network.applyChoices_ends h.proper fun choice hchoice => h.replaces choice (hsub hchoice)

/-- The search for cycles finds none. -/
theorem Proper.isEmpty_cycleNodes (h : net.Proper) : net.cycleNodes.isEmpty = true := by
  rw [cycleNodes_eq_nil h.wellFormed h.acyclic]
  rfl

/-- A pass that went through has applied the choices of its plan. -/
theorem rewritePivots_eq_ok {r : RewriteReport × μ × Network}
    (h : net.rewritePivots pivots oracle memory settings cost = .ok r) :
    ∃ plan, net.planRewrite pivots oracle memory settings cost = .ok plan ∧
      plan.net.applyChoices plan.chosen = .ok (r.1.substitutions, r.2.2) ∧
      r.1.candidates = plan.candidates ∧ r.1.totalGain = plan.totalGain := by
  obtain ⟨plan, hplan, h⟩ := bind_eq_ok h
  obtain ⟨⟨count, net'⟩, hbatch, h⟩ := bind_eq_ok h
  obtain ⟨-, -, h⟩ := bind_eq_ok h
  obtain rfl := Except.ok.inj h
  exact ⟨plan, hplan, hbatch, rfl, rfl⟩

/-- A feasible pass ends, and the search for cycles finds none. -/
theorem rewritePivots_ends (hdemands : Demands exact accepts) (hnet : net.Proper)
    (h : Feasible permitted accepts net pivots oracle memory settings cost) :
    Ends permitted (net.rewritePivots pivots oracle memory settings cost) fun r =>
      r.2.2.Proper ∧ (net.scratch.Past → r.2.2.scratch.Past) ∧
        (exact → net.Preserves r.2.2) := by
  refine (h.planRewrite_ends hdemands hnet).bind ?_
  intro plan hplan
  refine (hplan.applyChoices_ends (List.Subset.refl _)).bind ?_
  rintro ⟨count, net'⟩ hnet'
  refine (Ends.require (.inl hnet'.proper.isEmpty_cycleNodes)).bind ?_
  intro _ _
  refine ⟨hnet'.proper, ?_, fun hexact => ?_⟩
  · rw [hnet'.scratch]
    exact hplan.past
  · have htrue : exact = True := eq_true hexact
    subst htrue
    exact (hplan.grown.preserves hnet).trans hnet'.preserves

end Pass

/-- Passes one after another, each with an oracle that answers the queries of the pass. -/
inductive Passes (permitted : Fault → Prop) (net : Network) : Network → Prop
  | start : Passes permitted net net
  | pass {μ : Type} {mid net' : Network} {pivots : List NodeId} {oracle : Oracle μ}
      {memory memory' : μ} {settings : RewriteSettings} {cost : NodeCost} {report : RewriteReport}
      (former : Passes permitted net mid)
      (hfeasible : Feasible permitted Query.Answered mid pivots oracle memory settings cost)
      (hrun : mid.rewritePivots pivots oracle memory settings cost = .ok (report, memory', net')) :
      Passes permitted net net'

theorem demands_answered : Demands True Query.Answered :=
  fun _ _ _ h => ⟨h.lt, fun _ => h⟩

theorem demands_existing : Demands False Query.Existing :=
  fun _ _ _ h => ⟨h, False.elim⟩

/-- Passes keep marks in order, and keep what was there at the start. -/
theorem Passes.spec (hnet : net.Proper) (h : Passes permitted net mid) :
    mid.Proper ∧ (net.scratch.Past → mid.scratch.Past) ∧ net.Preserves mid := by
  induction h with
  | start => exact ⟨hnet, id, .refl net⟩
  | pass _ hfeasible hrun ih =>
    obtain ⟨hmid, hpast, hpreserves⟩ := ih
    have hends := rewritePivots_ends demands_answered hmid hfeasible
    obtain ⟨hnet', hpast', hpreserves'⟩ := hends.post_of_eq hrun
    exact ⟨hnet', fun hstart => hpast' (hpast hstart), hpreserves.trans (hpreserves' trivial)⟩

/-- Passes keep all values. After any passes so far, a further pass over any pivots goes through
unless it stops with a permitted fault, and what was in the network at the start is preserved. -/
theorem rewriting_preserves_values (hbuilt : net.Built) (hac : net.Acyclic)
    (hpasses : Passes permitted net mid) {pivots : List NodeId} {oracle : Oracle μ} {memory : μ}
    {settings : RewriteSettings}
    (hfeasible : Feasible permitted Query.Answered mid pivots oracle memory settings cost) :
    net.Preserves mid ∧
      Ends permitted (mid.rewritePivots pivots oracle memory settings cost)
        (fun r => net.Preserves r.2.2) ∧
      (pivots = mid.nodeIds →
        Ends permitted (mid.rewrite oracle memory settings cost) fun r => net.Preserves r.2.2) ∧
      ∀ nodes, pivots = mid.nodeIds.filter nodes.contains →
        Ends permitted (mid.rewriteNodes nodes oracle memory settings cost) fun r =>
          net.Preserves r.2.2 := by
  obtain ⟨hmid, -, hpreserves⟩ := hpasses.spec ⟨hbuilt.wellFormed, hac⟩
  have hends : Ends permitted (mid.rewritePivots pivots oracle memory settings cost)
      (fun r => net.Preserves r.2.2) :=
    (rewritePivots_ends demands_answered hmid hfeasible).mono fun _ h =>
      hpreserves.trans (h.2.2 trivial)
  refine ⟨hpreserves, hends, ?_, ?_⟩
  · rintro rfl
    exact hends
  · rintro nodes rfl
    exact hends

/-- A pass with the default settings is promised no walks, as it asks for no don't-cares. -/
theorem feasible_default {accepts : Query → Network → Signal → Prop} {pivots : List NodeId}
    {oracle : Oracle μ} {memory : μ} (hbounded : Bounded permitted cost net)
    (hserves : ∀ k, oracle.Serves (passTerms permitted cost 4 accepts) k memory net) :
    Feasible permitted accepts net pivots oracle memory {} cost :=
  ⟨by decide, by decide, by decide, hbounded, nofun, hserves _⟩

/-- Three inputs and their conjunction as output, which two lookup tables form. -/
def twoTables : Network :=
  let inputs := Oracle.tableInputs.insertFunction (.ofWord 2 8)
  let inner := (inputs.2.appendGate [⟨2, false⟩, ⟨3, false⟩] inputs.1).2
  let net := (inner.appendGate [⟨4, false⟩, ⟨5, false⟩] inputs.1).2
  { net with
    nodes := countReader net.nodes 6
    pos := #[⟨6, false⟩] }

theorem built_twoTables : twoTables.Built := by
  have hcanonical := TruthTable.canonical_ofWord (by decide : 2 ≤ 6) 8
  have hinputs : Oracle.tableInputs.Built := ((Built.new .lookupTable).addPi.addPi).addPi
  have hfunctions := hinputs.function hcanonical
  have hfits : ∀ a b, (Oracle.tableInputs.insertFunction (.ofWord 2 8)).2.Fits [a, b]
      (Oracle.tableInputs.insertFunction (.ofWord 2 8)).1 := fun a b =>
    ⟨List.cons_ne_nil _ _, nofun, _,
      FunctionCache.get?_insert hinputs.wellFormed.functions hcanonical, rfl⟩
  have hinner := hfunctions.gate (hfits ⟨2, false⟩ ⟨3, false⟩)
    (createNode_eq_appendGate Std.HashMap.getElem?_empty (by decide))
  refine .addPo (.gate hinner ((hfits ⟨4, false⟩ ⟨5, false⟩).of_length rfl rfl rfl)
    (createNode_eq_appendGate ?_ (by decide))) (addPo_eq (s := ⟨6, false⟩) (by decide))
  refine Std.HashMap.getElem?_insert.trans ((if_neg (by decide)).trans ?_)
  exact Std.HashMap.getElem?_empty

theorem acyclic_twoTables : twoTables.Acyclic := acyclic_of_ordered (by decide)

/-- One table takes the place of two. The same network over conjunctions is kept when the function
is decomposed. -/
theorem rewriting_preserves_conjunction :
    (∃ r, twoTables.rewrite .collapse () {} unitCost = .ok r ∧ r.1.substitutions = 1 ∧
      r.2.2.pos = #[⟨7, false⟩] ∧ twoTables.Preserves r.2.2) ∧
    Ends (· = .overflow) (conjunctionOutput.rewrite (.shannon 0) () {} unitCost)
      fun r => conjunctionOutput.Preserves r.2.2 := by
  have hfree : ∀ net, Bounded (· = .overflow) unitCost net := fun _ => .inr rfl
  constructor
  · have hbuilt := built_twoTables
    have hac := acyclic_twoTables
    have hends := (rewriting_preserves_values hbuilt hac .start
      (feasible_default (hfree _) fun k => Oracle.collapse_serves hfree (fun _ _ _ h => h)
        ⟨hbuilt.wellFormed, hac⟩ rfl k)).2.2.1 rfl
    have hone : (twoTables.rewrite .collapse () {} unitCost).map
        (fun r => (r.1.substitutions, r.2.2.pos)) = .ok (1, #[⟨7, false⟩]) := by cbv
    obtain ⟨r, hrun, hr⟩ := map_eq_ok hone
    obtain ⟨hsubstitutions, hpos⟩ := Prod.mk.inj hr
    exact ⟨r, hrun, hsubstitutions, hpos, hends.post_of_eq hrun⟩
  · have hbuilt := built_conjunctionOutput
    have hac := acyclic_conjunctionOutput
    exact (rewriting_preserves_values hbuilt hac .start
      (feasible_default (hfree _) fun k => Oracle.shannon_serves 0 hfree (fun _ _ _ h => h)
        ⟨hbuilt.wellFormed, hac⟩ k)).2.2.1 rfl

/-- A pass with an oracle that proposes any existing signals goes through unless it stops with a
permitted fault. The network is acyclic after every substitution of the batch and at the end, where
the search for cycles finds none. -/
theorem rewriting_closes_no_cycle (hbuilt : net.Built) (hac : net.Acyclic)
    {pivots : List NodeId} {oracle : Oracle μ} {memory : μ} {settings : RewriteSettings}
    (hfeasible : Feasible permitted Query.Existing net pivots oracle memory settings cost) :
    Ends permitted (net.planRewrite pivots oracle memory settings cost) (fun plan =>
      ∀ chosen, chosen <+: plan.chosen → ∃ count net',
        plan.net.applyChoices chosen = .ok (count, net') ∧ net'.Acyclic) ∧
    Ends permitted (net.rewritePivots pivots oracle memory settings cost) (fun r =>
      r.2.2.Acyclic ∧ r.2.2.cycleNodes = []) := by
  have hnet : net.Proper := ⟨hbuilt.wellFormed, hac⟩
  refine ⟨(hfeasible.planRewrite_ends demands_existing hnet).mono ?_,
    (rewritePivots_ends demands_existing hnet hfeasible).mono ?_⟩
  · intro plan hplan chosen hprefix
    obtain ⟨⟨count, net'⟩, hrun, hnet'⟩ :=
      ends_never_iff.mp (hplan.applyChoices_ends hprefix.subset)
    exact ⟨count, net', hrun, hnet'.proper.acyclic⟩
  · rintro ⟨report, memory', net'⟩ ⟨hnet', -⟩
    exact ⟨hnet'.acyclic, cycleNodes_eq_nil hnet'.wellFormed hnet'.acyclic⟩

theorem rewriting_closes_no_cycle_conjunctionOfThree :
    Ends Never (conjunctionOfThree.rewrite .eachLeaf () {} unitCost)
      fun r => r.2.2.Acyclic ∧ r.2.2.cycleNodes = [] := by
  have hbounded : Bounded Never unitCost conjunctionOfThree := .inl (by decide)
  exact (rewriting_closes_no_cycle built_conjunctionOfThree acyclic_conjunctionOfThree
    (feasible_default hbounded
      (Oracle.serves_eachLeaf (fun _ => hbounded) fun _ _ _ h => h))).2

end LogicSynthesis.Network
