import LogicSynthesis.Proofs.Rewriting.Savings

/-!
# What a pass over given nodes leaves alone

Cuts are enumerated for all nodes and conflicts are looked for among all of them, but only gates
among the given nodes have candidates. So every substitution of a pass over given nodes moves the
edges that read one of these gates. An edge may be moved more than once, when a replacement is
replaced in its turn, and what it read at first was given all the same. All other edges stay.

## Main definitions

- `Network.Moved` — a network after its references to given nodes were moved
- `Network.Confined` — what a pass over given nodes may do to a network

## Main statements

- `Moved.substitute` — one more gate is replaced
- `Planned.applyChoices_moved` — a batch
- `planRewrite_of_no_gate` — a plan without a gate to replace
- `restricted_pass_confined` — a pass over given nodes
-/

namespace LogicSynthesis.Network

variable {μ : Type} {permitted : Fault → Prop} {cost : NodeCost} {base net mid net' : Network}
  {given : NodeId → Prop} {move : Signal → Signal}

/-- References to given nodes were moved, both polarities of a node alike. What else there was is
still there, and where the order of the fanins does not matter they may be in another one. -/
structure Moved (given : NodeId → Prop) (move : Signal → Signal) (net net' : Network) : Prop where
  still : ∀ s : Signal, ¬ given s.node → move s = s
  negate : ∀ s : Signal, move s.negate = (move s).negate
  basis : net'.basis = net.basis
  pis : net'.pis = net.pis
  ros : net'.ros = net.ros
  pos : net'.pos = net.pos.map move
  ris : net'.ris = net.ris.map move
  nodes : ∀ (n : NodeId) (node : Node), net.nodes[n]? = some node → ∃ node' : Node,
    net'.nodes[n]? = some node' ∧ node'.kind = node.kind ∧ node'.function = node.function ∧
      node'.fanins.Perm (node.fanins.map move) ∧
      (net.basis.isSymmetric = false → node'.fanins = node.fanins.map move) ∧
      ((∀ s ∈ node.fanins, ¬ given s.node) → node'.fanins = node.fanins)

/-- Nothing is moved when a network grows. -/
theorem Extends.moved (h : net.Extends net') : Moved given id net net' := by
  refine ⟨fun _ _ => rfl, fun _ => rfl, h.basis, h.pis, h.ros, ?_, ?_, ?_⟩
  · rw [Array.map_id, h.pos]
  · rw [Array.map_id, h.ris]
  · intro n node hnode
    obtain ⟨node', hnode', hkind, hfanins, hfunction⟩ := h.kept n node hnode
    have hsame : node'.fanins = node.fanins.map id := hfanins.trans (List.map_id _).symm
    exact ⟨node', hnode', hkind, hfunction, .of_eq hsame, fun _ => hsame, fun _ => hfanins⟩

/-- A given gate is replaced, and nothing reads it any more. -/
theorem Moved.substitute {old : NodeId} {new : Signal} (h : Moved given move net mid)
    (hgiven : given old) (hsub : Substituted mid old new net')
    (hgone : ∀ s ∈ net'.edges, s.node ≠ old) : Moved given (redirect old new ∘ move) net net' := by
  refine ⟨?_, ?_, hsub.basis.trans h.basis, hsub.pis.trans h.pis, hsub.ros.trans h.ros, ?_, ?_, ?_⟩
  · intro s hs
    have hne : s.node ≠ old := fun heq => hs (heq ▸ hgiven)
    rw [Function.comp_apply, h.still s hs, redirect_of_ne hne]
  · intro s
    rw [Function.comp_apply, h.negate, redirect_negate, Function.comp_apply]
  · rw [hsub.pos, h.pos, Array.map_map]
  · rw [hsub.ris, h.ris, Array.map_map]
  · intro n node hnode
    obtain ⟨node₁, hnode₁, hkind, hfunction, hperm, hmap, hkeep⟩ := h.nodes n node hnode
    obtain ⟨node₂, hnode₂, hkind', hfunction', hfanins⟩ := hsub.nodes n node₁ hnode₁
    -- The replacing node keeps its fanins, but it does not read the replaced gate.
    have hfree : n = new.node → ∀ s ∈ node₁.fanins, s.node ≠ old := by
      intro hnew s hs
      refine hgone s (mem_edges_iff.mpr (.inl ⟨n, ?_⟩))
      rwa [fanins_eq hnode₂, hfanins, reroute_of_not fun hne => hne.1 hnew]
    refine ⟨node₂, hnode₂, hkind'.trans hkind, hfunction'.trans hfunction, ?_, ?_, ?_⟩
    · rw [hfanins, ← List.map_map]
      exact (reroute_perm_map hfree).trans (hperm.map _)
    · intro hbasis
      have hordered : mid.basis.isSymmetric = false := by rw [h.basis, hbasis]
      rw [hfanins, ← List.map_map, ← hmap hbasis]
      exact reroute_eq_map hordered hfree
    · intro hnone
      have hsame := hkeep hnone
      rw [hfanins, ← hsame]
      exact reroute_eq_self fun s hs heq => hnone s (hsame ▸ hs) (heq ▸ hgiven)

/-! ### The stages of a pass -/

section Stages

variable {pivots : List NodeId} {oracle : Oracle μ} {memory : μ} {settings : RewriteSettings}

/-- A batch moves the references to the gates that it replaces. -/
theorem Planned.applyChoices_moved {allowed : Fault → Prop} {exact : Prop} {leastGain : Int}
    {plan : Plan μ} (h : Planned base permitted exact cost leastGain pivots plan)
    (hgiven : ∀ choice ∈ plan.chosen, given choice.1) :
    Ends allowed (plan.net.applyChoices plan.chosen) fun r =>
      ∃ move, Moved given move base r.2 := by
  have hbatch : Ends allowed (plan.net.applyChoices plan.chosen) fun r =>
      Rewired exact plan.net r.2 ∧ ∃ move, Moved given move base r.2 := by
    refine applyChoices_keeps h.proper h.replaces
      (fun _ _ net' => ∃ move, Moved given move base net') ⟨id, h.grown.moved⟩ ?_ ?_
    · exact fun _ _ _ _ _ _ hmoved => hmoved
    · rintro before c after count mid net' hchosen hsubstituted hgone ⟨move, hmoved⟩
      have hc : given c.1 := hgiven c (hchosen ▸ List.mem_append_right _ List.mem_cons_self)
      exact ⟨_, hmoved.substitute hc hsubstituted hgone⟩
  exact hbatch.mono fun _ => And.right

/-- There are no candidates for nodes that are no gates. -/
theorem collectNodes_of_no_gate (hnone : ∀ n ∈ pivots, net.isGate n = false) {sets : CutSets}
    (hsize : sets.size ≤ net.size) {state : Collection μ} (hstate : state.net = net) :
    pivots.foldlM (collectNode oracle settings cost sets) state = .ok state := by
  have hends : Ends Never (pivots.foldlM (collectNode oracle settings cost sets) state)
      (· = state) := by
    refine Ends.foldlM (· = state) rfl ?_
    intro n hn former hformer
    rw [hformer]
    have hidle : sets.size ≤ n ∨ state.net.isTerminal n = true := by
      refine (Nat.lt_or_ge n sets.size).symm.imp_right fun hlt => ?_
      by_contra hterm
      have hgate := isGate_of_not_isTerminal (hlt.trans_le hsize) (hstate ▸ hterm)
      exact Bool.noConfusion ((hnone n hn).symm.trans hgate)
    rw [collectNode, if_pos hidle]
    exact Eq.refl state
  obtain ⟨_, hrun, rfl⟩ := ends_never_iff.mp hends
  exact hrun

/-- A plan for nodes that are no gates. -/
theorem planRewrite_of_no_gate (hbase : base.Proper)
    (hnone : ∀ n ∈ pivots, base.isGate n = false) {plan : Plan μ}
    (h : base.planRewrite pivots oracle memory settings cost = .ok plan) :
    ∃ scratch, plan.net = base.withScratch scratch := by
  have hbounded : Bounded Anything cost base := .inr trivial
  obtain ⟨sets, hsets, h⟩ := bind_eq_ok h
  obtain ⟨counted, hcounted, h⟩ := bind_eq_ok h
  obtain ⟨state, hstate, h⟩ := bind_eq_ok h
  obtain ⟨⟨g, mid⟩, hgraph, h⟩ := bind_eq_ok h
  obtain ⟨selected, -, h⟩ := bind_eq_ok h
  obtain rfl := Except.ok.inj h
  obtain ⟨-, hsets, -⟩ := (enumerateCuts_ends_of_allowed hbase.wellFormed hbase.acyclic
    settings.cuts.allowed_anything).post_of_eq hsets
  obtain ⟨scratch, hscratch, rfl⟩ :=
    (initReferenceCounts_ends hbase.wellFormed hbounded).post_of_eq hcounted
  have hidle := @collectNodes_of_no_gate _ cost (base.withScratch scratch) _ oracle settings
    hnone sets hsets.size.le ⟨memory, base.withScratch scratch, ∅, 0, 0⟩ rfl
  obtain rfl := Except.ok.inj (hidle.symm.trans hstate)
  have hcounting := @counting_start _ cost _ hbase hbounded _ hscratch
  obtain ⟨hsame, -⟩ :=
    (cutGraph_ends hbase hbounded hcounting hsets.size _ _).post_of_eq hgraph
  exact ⟨scratch, hsame⟩

end Stages

/-- What a pass over given nodes may do: it moves references to gates among these. Without such a
gate, only the notes in the scratch state change. -/
structure Confined (nodes : List NodeId) (net net' : Network) : Prop where
  moved : ∃ move, Moved (fun n => n ∈ nodes ∧ net.isGate n = true) move net net'
  idle : (∀ n ∈ nodes, net.isGate n = false) → ∃ scratch, net' = net.withScratch scratch

/-- A pass over given nodes, some of which may not be in the network, moves references to gates
among these and nothing else. The settings and the costs are any for which the pass goes through,
as it does when it is feasible. -/
theorem restricted_pass_confined (hbuilt : net.Built) (hac : net.Acyclic)
    (nodes : List NodeId) {oracle : Oracle μ} {memory : μ} (settings : RewriteSettings)
    (cost : NodeCost)
    (hserves : oracle.Serves
      (passTerms Anything cost (min settings.cuts.cutSize TruthTable.maxVars) Query.Existing)
      ((net.nodeIds.filter nodes.contains).length * settings.cuts.cutLimit) memory net) :
    (∀ r, net.rewriteNodes nodes oracle memory settings cost = .ok r → Confined nodes net r.2.2) ∧
      ∀ permitted, Feasible permitted Query.Existing net (net.nodeIds.filter nodes.contains) oracle
          memory settings cost →
        Ends permitted (net.rewriteNodes nodes oracle memory settings cost) fun r =>
          Confined nodes net r.2.2 := by
  have hnet : net.Proper := ⟨hbuilt.wellFormed, hac⟩
  have hgiven : ∀ n ∈ net.nodeIds.filter nodes.contains, n ∈ nodes :=
    fun n hn => List.contains_iff_mem.mp (List.mem_filter.mp hn).2
  have hconfined : ∀ r, net.rewriteNodes nodes oracle memory settings cost = .ok r →
      Confined nodes net r.2.2 := by
    intro r hrun
    obtain ⟨plan, hplanned, hbatch, -, -⟩ := rewritePivots_eq_ok hrun
    have hplan := (planRewrite_ends demands_existing hnet (.inr trivial)
      settings.cuts.allowed_anything (fun _ => .anything) hserves).post_of_eq hplanned
    refine ⟨?_, fun hnone => ?_⟩
    · have hmoved := @Planned.applyChoices_moved _ _ _ _
        (fun n => n ∈ nodes ∧ net.isGate n = true) _ Never _ _ _ hplan fun c hc =>
          (hplan.pivots c hc).imp_left (hgiven c.1)
      exact hmoved.post_of_eq hbatch
    · have hchosen : plan.chosen = [] := by
        refine List.eq_nil_iff_forall_not_mem.mpr fun c hc => ?_
        obtain ⟨hmem, hgate⟩ := hplan.pivots c hc
        exact Bool.noConfusion ((hnone c.1 (hgiven c.1 hmem)).symm.trans hgate)
      obtain ⟨scratch, hsame⟩ := planRewrite_of_no_gate hnet
        (fun n hn => hnone n (hgiven n hn)) hplanned
      rw [hchosen] at hbatch
      exact ⟨scratch, (Prod.mk.inj (Except.ok.inj hbatch)).2.symm.trans hsame⟩
  refine ⟨hconfined, fun permitted hfeasible => ?_⟩
  exact (rewritePivots_ends demands_existing hnet hfeasible).mono_eq
    fun r hrun _ => hconfined r hrun

/-- Of the given nodes one is a gate, and it is replaced by an input. Without it the pass is
idle. -/
theorem restricted_pass_confined_conjunctionOutput :
    (∃ r, conjunctionOutput.rewriteNodes [5, 99] .eachLeaf () {} unitCost = .ok r ∧
      r.1.substitutions = 1 ∧ Confined [5, 99] conjunctionOutput r.2.2) ∧
    ∃ r scratch, conjunctionOutput.rewriteNodes [1, 99] .eachLeaf () {} unitCost = .ok r ∧
      r.2.2 = conjunctionOutput.withScratch scratch := by
  have hbounded : Bounded Never unitCost conjunctionOutput := .inl (by decide)
  have hconfined : ∀ nodes,
      Ends Never (conjunctionOutput.rewriteNodes nodes .eachLeaf () {} unitCost) fun r =>
        Confined nodes conjunctionOutput r.2.2 := by
    intro nodes
    refine (restricted_pass_confined built_conjunctionOutput acyclic_conjunctionOutput
      nodes {} unitCost ?_).2 Never ?_
    · have hfree : Bounded Anything unitCost conjunctionOutput := .inr trivial
      exact Oracle.serves_eachLeaf (fun _ => hfree) (fun _ _ _ h => h) _
    · exact feasible_default hbounded
        (Oracle.serves_eachLeaf (fun _ => hbounded) fun _ _ _ h => h)
  constructor
  · obtain ⟨r, hrun, hspec⟩ := ends_never_iff.mp (hconfined [5, 99])
    have hone : (conjunctionOutput.rewriteNodes [5, 99] .eachLeaf () {} unitCost).map
        (fun r => r.1.substitutions) = .ok 1 := by cbv
    rw [hrun, map_ok] at hone
    exact ⟨r, hrun, Except.ok.inj hone, hspec⟩
  · obtain ⟨r, hrun, hspec⟩ := ends_never_iff.mp (hconfined [1, 99])
    obtain ⟨scratch, hsame⟩ := hspec.idle (by decide)
    exact ⟨r, scratch, hrun, hsame⟩

end LogicSynthesis.Network
