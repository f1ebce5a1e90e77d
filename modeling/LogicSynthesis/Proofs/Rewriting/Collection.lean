import LogicSynthesis.Proofs.Cut.Soundness
import LogicSynthesis.Proofs.DontCares
import LogicSynthesis.Proofs.Network.FanoutFreeCone
import LogicSynthesis.Proofs.Resynthesis.Contract
import LogicSynthesis.Rewriting

/-!
# Collecting candidates

While candidates are collected, the network grows out of the network at the start, and the values
are the reference counts of that network, less the cone of a gate that is under consideration. A
candidate stays good when the network grows, and so does the account of what it saves.

## Main definitions

- `Network.Counting` — a network in the course of a pass, with given counts
- `Network.Replaces` — a signal that may replace a gate
- `Network.Saves` — the gain of a candidate is what it saves
- `Network.Collected` — the candidates found so far can replace their gates

## Main statements

- `listen_scoreProposal_ends` — the best proposal of an oracle
- `rewriteCut_ends` — the candidate for one cut
- `collectNode_ends`, `collectNodes_ends` — the candidates of one gate, and of all
-/

namespace LogicSynthesis

open Network

variable {μ : Type} {permitted : Fault → Prop} {cost : NodeCost}

/-! ### Costs -/

theorem signedCost_eq {c : Nat} (h : c < 2147483648) : signedCost c = c := by
  rw [signedCost, costBound]
  apply Int.bmod_eq_of_le <;> omega

/-- Costs in range have a difference in range. -/
theorem savedCost_error {released added : Nat} {fault : Fault}
    (h : savedCost released added = .error fault) :
    fault = .overflow ∧ ¬ (released < 2147483648 ∧ added < 2147483648) := by
  have hrange : released < 2147483648 ∧ added < 2147483648 →
      (Int.bmod (signedCost released - signedCost added) costBound ==
        signedCost released - signedCost added) = true := by
    rintro ⟨hreleased, hadded⟩
    rw [beq_iff_eq, signedCost_eq hreleased, signedCost_eq hadded, costBound]
    apply Int.bmod_eq_of_le <;> omega
  dsimp only [savedCost] at h
  generalize signedCost released - signedCost added = saved at hrange h
  generalize (Int.bmod saved costBound == saved) = condition at hrange h
  cases condition with
  | true => cases h
  | false => exact ⟨(Except.error.inj h).symm, fun h => Bool.false_ne_true (hrange h)⟩

namespace Network

variable {base net net' : Network}

/-- A network in the course of a pass over `base`, with the counts `v`. -/
structure Counting (base : Network) (permitted : Fault → Prop) (cost : NodeCost)
    (v : NodeId → Nat) (net : Network) : Prop where
  proper : net.Proper
  grown : base.Extends net
  bounded : Bounded permitted cost net
  counts : net.scratch.valueAt = v
  past : base.scratch.Past → net.scratch.Past

theorem Counting.grow {v : NodeId → Nat} (h : Counting base permitted cost v net)
    (hgrow : net.GrowsTo net') (hbounded : Bounded permitted cost net') :
    Counting base permitted cost v net' := by
  have hagrees := hgrow.agrees h.proper.wellFormed
  exact ⟨hgrow.proper h.proper, h.grown.trans (hgrow.extends h.proper.wellFormed), hbounded,
    hagrees.valueAt.trans h.counts, fun hpast => hagrees.past (h.past hpast)⟩

theorem Counting.annotate {v v' : NodeId → Nat} (h : Counting base permitted cost v net)
    {scratch : Scratch} (hvalues : scratch.values.size = net.scratch.values.size)
    (hmarks : scratch.marks.size = net.scratch.marks.size) (hcounts : scratch.valueAt = v')
    (hpast : net.scratch.Past → scratch.Past) :
    Counting base permitted cost v' (net.withScratch scratch) := by
  have hwf := h.proper.wellFormed.withScratch (hvalues.trans h.proper.wellFormed.values)
    (hmarks.trans h.proper.wellFormed.marks)
  exact ⟨⟨hwf, h.proper.acyclic⟩, h.grown.trans (extends_withScratch net scratch), h.bounded,
    hcounts, fun hstart => hpast (h.past hstart)⟩

theorem Counting.revalue {v v' : NodeId → Nat} (h : Counting base permitted cost v net)
    {scratch : Scratch} (hscratch : net.scratch.Revalued v' scratch) :
    Counting base permitted cost v' (net.withScratch scratch) :=
  h.annotate hscratch.size (congrArg Array.size hscratch.marks) hscratch.valueAt hscratch.past

theorem Counting.walk {v : NodeId → Nat} (h : Counting base permitted cost v net)
    {scratch : Scratch} (hscratch : net.scratch.Walked scratch) :
    Counting base permitted cost v (net.withScratch scratch) :=
  h.annotate (congrArg Array.size hscratch.values) hscratch.size
    (hscratch.valueAt.trans h.counts) hscratch.past

/-- Counts of edges of the network at the start leave room. -/
theorem Counting.roomy {v : NodeId → Nat} (h : Counting base permitted cost v net)
    (hbase : Bounded permitted cost base) (hle : ∀ m, v m ≤ base.readers m) :
    Roomy permitted net v := h.bounded.roomy hbase hle

/-- The gates at the start can be released from the counts at the start. -/
theorem releasable_extends (hwf : base.WellFormed) (hext : base.Extends net) :
    net.Releasable base.readers (base.nodeIds.filter base.isGate) := by
  have hlt : ∀ n ∈ base.nodeIds.filter base.isGate, n < base.size :=
    fun n hn => List.mem_range.mp (List.mem_filter.mp hn).1
  have hloads : ∀ m, net.loads (base.nodeIds.filter base.isGate) m =
      base.loads (base.nodeIds.filter base.isGate) m := by
    intro m
    rw [loads, loads]
    congr 1
    exact List.map_congr_left fun n hn => by rw [hext.fanins_eq (hlt n hn)]
  have hreleasable := releasable_gates hwf
  refine ⟨fun m => (hloads m).trans_le (hreleasable.counted m), ?_⟩
  rintro m hterm hout ⟨x, hx, hreads⟩
  have hreads' := (hext.reads_iff (hlt x hx)).mp hreads
  have hterm' : base.isTerminal m = false :=
    (hext.kindIs_eq _ (hwf.reads_lt hreads')).symm.trans hterm
  rw [hloads]
  exact hreleasable.closed m hterm' hout ⟨x, hx, hreads'⟩

/-- A gate of the network at the start can be released. -/
theorem Counting.releasable (h : Counting base permitted cost base.readers net)
    (hbase : base.Proper) {n : NodeId} (hn : base.isGate n = true) :
    ∃ bound, n ∈ bound ∧ net.Releasable net.scratch.valueAt bound := by
  refine ⟨base.nodeIds.filter base.isGate, ?_, ?_⟩
  · exact List.mem_filter.mpr ⟨List.mem_range.mpr (lt_size_of_kindIs hn), hn⟩
  · rw [h.counts]
    exact releasable_extends hbase.wellFormed h.grown

/-- The cone of a gate at the start has a cost, whose finding leaves no trace. -/
theorem Counting.coneCost_ends (h : Counting base permitted cost base.readers net)
    (hbase : base.Proper) (hbounded : Bounded permitted cost base) {n : NodeId}
    (hn : base.isGate n = true) : Ends permitted (net.coneCost cost n) fun r => r.2 = net := by
  have hroom : Roomy permitted net net.scratch.valueAt := by
    rw [h.counts]
    exact h.roomy hbounded fun _ => Nat.le_refl _
  exact Network.coneCost_ends h.proper.wellFormed h.proper.acyclic
    ((lt_size_of_kindIs hn).trans_le h.grown.size_le) (fun _ => h.releasable hbase hn) hroom
    h.bounded.affordable

theorem Counting.isGate_of_not_terminal {v : NodeId → Nat} (h : Counting base permitted cost v net)
    {n : NodeId} (hn : n < base.size) (hterm : ¬ net.isTerminal n = true) :
    base.isGate n = true := by
  have hsame : net.isTerminal n = base.isTerminal n := h.grown.kindIs_eq _ hn
  rw [hsame] at hterm
  exact isGate_of_not_isTerminal hn hterm

/-! ### Candidates -/

/-- The signal exists. If `exact` holds it also has the value of the gate. -/
structure Replaces (exact : Prop) (pivot : NodeId) (net : Network) (s : Signal) : Prop where
  lt : s.node < net.size
  value : exact → ∀ inputs, net.signalValue inputs s = net.value inputs pivot

theorem Replaces.extends {exact : Prop} {pivot : NodeId} {s : Signal}
    (h : Replaces exact pivot net s) (hnet : net.Proper) (hpivot : pivot < net.size)
    (hext : net.Extends net') : Replaces exact pivot net' s := by
  refine ⟨h.lt.trans_le hext.size_le, fun hexact inputs => ?_⟩
  rw [hext.signalValue_eq hnet.wellFormed hnet.acyclic inputs h.lt,
    hext.value_eq hnet.wellFormed hnet.acyclic inputs hpivot]
  exact h.value hexact inputs

/-- The gain of a candidate is at least the least gain, and is what is saved when the cone that dies
with the gate gives way to the cone that comes into use with the replacement. The latter is found
with the counts that are left after the former was released, and it does not meet the gate. -/
structure Saves (base : Network) (cost : NodeCost) (leastGain : Int) (pivot : NodeId)
    (net : Network) (c : Candidate) : Prop where
  least : leastGain ≤ c.gain
  spec : ∃ v freed taken, net.IsCone v pivot freed ∧
    (∀ m, v m + net.loads freed m = base.readers m) ∧
    net.IsCone v c.replacement.node taken ∧ ¬ net.Meets taken pivot ∧
    savedCost (costOf cost freed) (costOf cost taken) = .ok c.gain

theorem Saves.extends {leastGain : Int} {pivot : NodeId} {c : Candidate}
    (h : Saves base cost leastGain pivot net c) (hwf : net.WellFormed) (hpivot : pivot < net.size)
    (hlt : c.replacement.node < net.size) (hext : net.Extends net') :
    Saves base cost leastGain pivot net' c := by
  obtain ⟨v, freed, taken, hfreed, hsum, htaken, havoids, hgain⟩ := h.spec
  obtain ⟨hfreed', hloads⟩ := hfreed.extends hext hwf hpivot
  exact ⟨h.least, v, freed, taken, hfreed', fun m => (congrArg (v m + ·) (hloads m)).trans (hsum m),
    (htaken.extends hext hwf hlt).1, fun hmeets => havoids ((htaken.meets_extends hext hwf hlt
      pivot).mp hmeets), hgain⟩

/-- What is known of a candidate for a gate of the network at the start. -/
structure Offered (exact : Prop) (base : Network) (cost : NodeCost) (leastGain : Int)
    (pivot : NodeId) (net : Network) (c : Candidate) : Prop where
  replaces : Replaces exact pivot net c.replacement
  saves : Saves base cost leastGain pivot net c

theorem Offered.extends {exact : Prop} {leastGain : Int} {pivot : NodeId} {c : Candidate}
    (h : Offered exact base cost leastGain pivot net c) (hnet : net.Proper)
    (hpivot : pivot < net.size) (hext : net.Extends net') :
    Offered exact base cost leastGain pivot net' c :=
  ⟨h.replaces.extends hnet hpivot hext,
    h.saves.extends hnet.wellFormed hpivot h.replaces.lt hext⟩

/-- Everything acceptable exists. If `exact` holds it also answers the query. -/
def Demands (exact : Prop) (accepts : Query → Network → Signal → Prop) : Prop :=
  ∀ q net s, accepts q net s → s.node < net.size ∧ (exact → q.Answered net s)

/-- The query about a sound cut. -/
def cutQuery (cut : Cut) (dontCares : Option TruthTable) : Query :=
  { function := cut.function, leaves := cut.leaves.map .ofNode, dontCares }

theorem pattern_cutQuery (cut : Cut) (dontCares : Option TruthTable) (net : Network)
    (inputs : Assignment) :
    (cutQuery cut dontCares).pattern net inputs = codeOf (cut.leaves.map (net.value inputs)) := by
  rw [Query.pattern, cutQuery, List.map_map]
  congr 1
  exact List.map_congr_left fun l _ => signalValue_ofNode ..

theorem valid_cutQuery {pivot : NodeId} {cut : Cut} {width : Nat} {dontCares : Option TruthTable}
    (hsound : cut.Sound base pivot) (hle : base.size ≤ net.size) (hwide : cut.size ≤ width)
    (hmask : ∀ mask, dontCares = some mask → base.IsMask cut.leaves mask) :
    (cutQuery cut dontCares).Valid width net := by
  have hlen : (cutQuery cut dontCares).leaves.length = cut.leaves.length := List.length_map _
  refine ⟨hsound.canonical, hsound.arity.trans hlen.symm, hlen.trans_le hwide, ?_, ?_⟩
  · intro s hs
    obtain ⟨l, hl, rfl⟩ := List.mem_map.mp hs
    exact (hsound.exist l hl).trans_le hle
  · intro mask hm
    exact ⟨(hmask mask hm).canonical, (hmask mask hm).numVars.trans hlen.symm⟩

/-- What answers the query about a cut can replace the gate: no assignment of the inputs leads to a
don't-care. -/
theorem replaces_of_accepts {exact : Prop} {accepts : Query → Network → Signal → Prop}
    (hdemands : Demands exact accepts) {v : NodeId → Nat} {pivot : NodeId} {cut : Cut}
    {dontCares : Option TruthTable} {s : Signal} (hbase : base.Proper) (hpivot : pivot < base.size)
    (hsound : cut.Sound base pivot)
    (hmask : ∀ mask, dontCares = some mask → base.IsMask cut.leaves mask)
    (hnet : Counting base permitted cost v net) (h : accepts (cutQuery cut dontCares) net s) :
    Replaces exact pivot net s := by
  obtain ⟨hlt, hanswered⟩ := hdemands _ _ _ h
  refine ⟨hlt, fun hexact inputs => ?_⟩
  have hvalue : ∀ n, n < base.size → net.value inputs n = base.value inputs n :=
    fun n hn => hnet.grown.value_eq hbase.wellFormed hbase.acyclic inputs hn
  have hpattern : (cutQuery cut dontCares).pattern net inputs =
      codeOf (cut.leaves.map (base.value inputs)) := by
    rw [pattern_cutQuery]
    congr 1
    exact List.map_congr_left fun l hl => hvalue l (hsound.exist l hl)
  -- Leaf values are those of the base network, where the cut is sound and the mask was made.
  rw [hvalue pivot hpivot, hsound.value inputs, ← hpattern]
  apply (hanswered hexact).value inputs
  intro mask hm
  rw [hpattern]
  exact (hmask mask hm).never inputs

/-! ### Scoring -/

/-- The best candidate so far, if there is one, has a property. -/
def BestIs (p : Candidate → Prop) (best : Option Candidate) : Prop := ∀ c, best = some c → p c

theorem bestIs_none (p : Candidate → Prop) : BestIs p none := by
  intro c hc
  cases hc

theorem BestIs.mono {p p' : Candidate → Prop} {best : Option Candidate} (h : BestIs p best)
    (himp : ∀ c, p c → p' c) : BestIs p' best := fun c hc => himp _ (h c hc)

theorem BestIs.keepBest {p : Candidate → Prop} {best : Option Candidate} (h : BestIs p best)
    {leastGain : Int} {c : Candidate} (hc : leastGain ≤ c.gain → p c) :
    BestIs p (keepBest leastGain best c) := by
  intro d hd
  unfold Network.keepBest at hd
  split at hd
  · exact h d hd
  · next hgain =>
    have hgood : p c := hc (Int.not_lt.mp hgain)
    split at hd
    · obtain rfl := Option.some.inj hd
      exact hgood
    · split at hd
      · obtain rfl := Option.some.inj hd
        exact hgood
      · exact h d hd

theorem minGain_nonneg (allowZeroGain : Bool) : 0 ≤ minGain allowZeroGain := by
  cases allowZeroGain <;> decide

/-- Scoring a proposal leaves the network as it is. A proposal whose cone meets the gate is never
kept. -/
theorem scoreProposal_ends {v : NodeId → Nat} (hbase : Bounded permitted cost base)
    (hle : ∀ m, v m ≤ base.readers m) (hnet : Counting base permitted cost v net)
    {p : Candidate → Prop} {best : Option Candidate} (hbest : BestIs p best) {s : Signal}
    (hs : s.node < net.size) (pivot : NodeId) {released : Nat} {leastGain : Int}
    (hleast : 0 ≤ leastGain)
    (hp : ∀ taken gain, net.IsCone v s.node taken → ¬ net.Meets taken pivot →
      savedCost released (costOf cost taken) = .ok gain → leastGain ≤ gain → p ⟨gain, s⟩)
    (hreleased : released < 2147483648 ∨ permitted .overflow) :
    Ends permitted (scoreProposal cost pivot released leastGain best s net) fun r =>
      r.2.2 = net ∧ BestIs p r.2.1 := by
  have hwf := hnet.proper.wellFormed
  have hroom := hnet.roomy hbase hle
  rw [← hnet.counts] at hroom
  refine (acquireContaining_ends hwf hnet.proper.acyclic hs hroom hnet.bounded.affordable
    pivot).bind ?_
  rintro ⟨⟨added, contains⟩, mid⟩ ⟨hacquired, hdetects⟩
  obtain ⟨taken, -, hcone, hadded, -⟩ := hacquired.spec
  have havoids : contains = false → ¬ net.Meets taken pivot :=
    fun hfalse hmeets => ne_true_of_eq_false hfalse ((hdetects taken hcone).mpr hmeets)
  obtain rfl : added = costOf cost taken := hadded
  have hsmall : costOf cost taken < 2147483648 ∨ permitted .overflow := by
    refine hnet.bounded.imp_left fun ⟨hcost, _⟩ => ?_
    exact (hcone.costOf_le hwf hs).trans_lt hcost
  refine (hacquired.release hwf hnet.proper.acyclic hs
    (hcone.affordable hwf hs hnet.bounded.affordable)).bind ?_
  rintro ⟨restored, _⟩ ⟨-, rfl⟩
  have hnegative : ¬ (0 : Int) ≤ -1 := by decide
  cases contains with
  | true => exact ⟨rfl, hbest.keepBest fun hgain => absurd (hleast.trans hgain) hnegative⟩
  | false =>
    dsimp only
    rw [if_neg Bool.false_ne_true]
    cases hsaved : savedCost released (costOf cost taken) with
    | ok gain =>
      exact ⟨rfl, hbest.keepBest (hp taken gain (hnet.counts ▸ hcone) (havoids rfl) hsaved)⟩
    | error fault =>
      obtain ⟨rfl, hout⟩ := savedCost_error hsaved
      rcases hreleased with hreleased | hover
      · rcases hsmall with hsmall | hover
        · exact absurd (And.intro hreleased hsmall) hout
        · exact hover
      · exact hover

/-- Finding don't-cares takes a walk if they are wanted. -/
theorem maskFor_ends {v : NodeId → Nat} (hbase : base.Proper)
    (hnet : Counting base permitted cost v net) {wanted : Bool}
    (hwalk : wanted = true → net.scratch.CanWalk permitted 1) {leaves : List NodeId}
    (hne : leaves ≠ []) (hexist : ∀ n ∈ leaves, n < base.size)
    (hlen : leaves.length ≤ TruthTable.maxVars) :
    Ends permitted (net.maskFor wanted leaves) fun r =>
      (∀ mask, r.1 = some mask → base.IsMask leaves mask) ∧
        ∃ scratch, net.scratch.Walked scratch ∧ scratch.walk ≤ net.scratch.walk + 1 ∧
          r.2 = net.withScratch scratch := by
  cases wanted with
  | false =>
    refine ⟨?_, net.scratch, .refl net.scratch, Nat.le_succ _, rfl⟩
    intro mask hmask
    cases hmask
  | true =>
    have hexist' : ∀ n ∈ leaves, n < net.size :=
      fun n hn => (hexist n hn).trans_le hnet.grown.size_le
    refine (dontCares_ends hnet.proper.wellFormed hnet.proper.acyclic (hwalk rfl) hne hexist'
      (max_le (by decide) hlen)).bind ?_
    rintro ⟨mask, _⟩ ⟨hmask, scratch, hscratch, hnumber, rfl⟩
    refine ⟨?_, scratch, hscratch, hnumber.le, rfl⟩
    intro mask' heq
    obtain rfl := Option.some.inj heq
    refine ⟨hmask.canonical, hmask.numVars, ?_⟩
    intro inputs
    have hvalues : leaves.map (net.value inputs) = leaves.map (base.value inputs) :=
      List.map_congr_left fun n hn =>
        hnet.grown.value_eq hbase.wellFormed hbase.acyclic inputs (hexist n hn)
    rw [← hvalues]
    exact hmask.never inputs

/-! ### Cuts and gates -/

/-- The terms of an oracle that serves a pass: it makes networks of acceptable size only. -/
def passTerms (permitted : Fault → Prop) (cost : NodeCost) (width : Nat)
    (accepts : Query → Network → Signal → Prop) : Oracle.Terms :=
  { permitted, width, admits := Bounded permitted cost, accepts }

section Pass

variable {oracle : Oracle μ} {settings : RewriteSettings}
  {accepts : Query → Network → Signal → Prop} {exact : Prop}

/-- While the cone of the gate is released, the best proposal is one that saves its gain. Hearing
the oracle keeps the counts without the cone. -/
theorem listen_scoreProposal_ends (hdemands : Demands exact accepts) (hbase : base.Proper)
    (hbounded : Bounded permitted cost base) {pivot : NodeId} (hpivot : pivot < base.size)
    {cut : Cut} (hsound : cut.Sound base pivot) {dontCares : Option TruthTable}
    (hmask : ∀ mask, dontCares = some mask → base.IsMask cut.leaves mask) {v : NodeId → Nat}
    {cone : List NodeId} (hwf : net.WellFormed) (hlt : pivot < net.size)
    (hcone : net.IsCone v pivot cone) (hsum : ∀ m, v m + net.loads cone m = base.readers m)
    (hreleased : costOf cost cone < 2147483648 ∨ permitted .overflow) {start : Network}
    (hext : net.Extends start) (hstart : Counting base permitted cost v start) {leastGain : Int}
    (hleast : 0 ≤ leastGain) {width : Nat} {fin : μ → Network → Prop} {d : Dialogue μ}
    (hkeeps : d.Keeps (passTerms permitted cost width accepts) (cutQuery cut dontCares) fin start) :
    Ends permitted (d.listen (scoreProposal cost pivot (costOf cost cone) leastGain) none) fun r =>
      fin r.1 r.2.2 ∧ Counting base permitted cost v r.2.2 ∧ net.Extends r.2.2 ∧
        start.scratch.Agrees r.2.2.scratch ∧
          BestIs (Offered exact base cost leastGain pivot r.2.2) r.2.1 := by
  refine hkeeps.listen_ends (fun best mid => Counting base permitted cost v mid ∧
    net.Extends mid ∧ start.scratch.Agrees mid.scratch ∧
      BestIs (Offered exact base cost leastGain pivot mid) best) ?_ ?_
        ⟨hstart, hext, .refl start.scratch, bestIs_none _⟩
  · rintro best mid mid' ⟨hmid, hext, hagrees, hbest⟩ hgrow hadmits
    have hmore := hgrow.extends hmid.proper.wellFormed
    exact ⟨hmid.grow hgrow hadmits, hext.trans hmore,
      hagrees.trans (hgrow.agrees hmid.proper.wellFormed), hbest.mono fun c hc =>
        hc.extends hmid.proper (hpivot.trans_le hmid.grown.size_le) hmore⟩
  · rintro best mid s ⟨hmid, hext, hagrees, hbest⟩ haccepts
    have hreplaces := replaces_of_accepts hdemands hbase hpivot hsound hmask hmid haccepts
    obtain ⟨hcone', hloads⟩ := hcone.extends hext hwf hlt
    apply (scoreProposal_ends hbounded (fun m => Nat.le.intro (hsum m)) hmid hbest hreplaces.lt
      pivot hleast (fun taken gain htaken havoids hgain hleast => ⟨hreplaces, hleast, v, cone,
        taken, hcone', fun m => (congrArg (v m + ·) (hloads m)).trans (hsum m), htaken, havoids,
        hgain⟩) hreleased).mono
    rintro ⟨more, best', _⟩ ⟨rfl, hbest'⟩
    exact ⟨rfl, hmid, hext, hagrees, hbest'⟩

/-- Whether the queries of a pass come with don't-cares. -/
abbrev wantsDontCares (settings : RewriteSettings) (oracle : Oracle μ) : Bool :=
  settings.useDontCares && oracle.usesDontCares

/-- The candidate for a cut can replace the gate and saves its gain, and the counts are as before.
One walk has begun at most. -/
theorem rewriteCut_ends (hdemands : Demands exact accepts) (hbase : base.Proper)
    (hbounded : Bounded permitted cost base) (hwidth : settings.cuts.cutSize ≤ TruthTable.maxVars)
    {pivot : NodeId} (hpivot : base.isGate pivot = true) {cut : Cut}
    (hsound : cut.Sound base pivot) (hnarrow : cut.size ≤ max 1 settings.cuts.cutSize) {k : Nat}
    {memory : μ} (hnet : Counting base permitted cost base.readers net)
    (hwalks : wantsDontCares settings oracle = true → net.scratch.CanWalk permitted (k + 1))
    (hserves : oracle.Serves (passTerms permitted cost settings.cuts.cutSize accepts) (k + 1)
      memory net) :
    Ends permitted (net.rewriteCut oracle memory settings cost pivot cut) fun r =>
      Counting base permitted cost base.readers r.2.2 ∧ net.Extends r.2.2 ∧
        (wantsDontCares settings oracle = true → r.2.2.scratch.CanWalk permitted k) ∧
          oracle.Serves (passTerms permitted cost settings.cuts.cutSize accepts) k r.1 r.2.2 ∧
            BestIs (Offered exact base cost (minGain settings.allowZeroGain) pivot r.2.2)
              r.2.1 := by
  have hlt := lt_size_of_kindIs hpivot
  have hlt' : pivot < net.size := hlt.trans_le hnet.grown.size_le
  unfold rewriteCut
  split
  · exact ⟨hnet, .refl net, fun hwanted => (hwalks hwanted).mono (Nat.le_succ k),
      hserves.mono (Nat.le_succ k), bestIs_none _⟩
  · next hsize =>
    have hwide : cut.size ≤ settings.cuts.cutSize := by omega
    have hlen : cut.leaves.length ≤ TruthTable.maxVars := hwide.trans hwidth
    have hne : cut.leaves ≠ [] := by
      intro hnil
      rw [Cut.size, hnil] at hsize
      exact hsize (Nat.zero_le 2)
    rw [require_of (beq_iff_eq.mpr hsound.arity), ok_bind]
    -- The cone of the pivot is released while the oracle is heard, and acquired again afterwards.
    refine (release_ends hnet.proper.wellFormed hnet.proper.acyclic hlt'
      (fun _ => hnet.releasable hbase hpivot) hnet.bounded.affordable).bind ?_
    rintro ⟨released, _⟩ ⟨v, cone, scratch, hcone, rfl, hsum, hscratch, rfl⟩
    have hreleased : costOf cost cone < 2147483648 ∨ permitted .overflow := by
      refine hnet.bounded.imp_left fun ⟨hcost, _⟩ => ?_
      exact (hcone.costOf_le hnet.proper.wellFormed hlt').trans_lt hcost
    have hsum' : ∀ m, v m + net.loads cone m = base.readers m :=
      fun m => (hsum m).trans (congrFun hnet.counts m)
    have hnet' := hnet.revalue hscratch
    have hwalks' : wantsDontCares settings oracle = true → scratch.CanWalk permitted (k + 1) :=
      fun hwanted => (hwalks hwanted).keep hscratch.past hscratch.walk
    refine (maskFor_ends hbase hnet' (fun hwanted => (hwalks' hwanted).mono (Nat.le_add_left 1 k))
      hne hsound.exist hlen).bind ?_
    rintro ⟨dontCares, _⟩ ⟨hmask, scratch', hwalked, hnumber, rfl⟩
    have hvalid := valid_cutQuery hsound hnet.grown.size_le hwide hmask
    have hkeeps := hserves (cutQuery cut dontCares) scratch' hvalid
      ((congrArg Array.size hwalked.values).trans (hscratch.size.trans
        hnet.proper.wellFormed.values))
      (hwalked.size.trans ((congrArg Array.size hscratch.marks).trans
        hnet.proper.wellFormed.marks)) fun hpast => hwalked.past (hscratch.past hpast)
    refine (listen_scoreProposal_ends hdemands hbase hbounded hlt hsound hmask
      hnet.proper.wellFormed hlt' hcone hsum' hreleased (extends_withScratch net scratch')
      (hnet'.walk hwalked) (minGain_nonneg settings.allowZeroGain) hkeeps).bind ?_
    rintro ⟨memory', best, mid⟩ ⟨hserves', hmid, hext, hagrees, hbest⟩
    refine (acquire_restores hnet.proper.wellFormed hext hmid.proper.wellFormed
      hmid.proper.acyclic hlt' hcone hsum' hmid.counts
        (hnet.roomy hbounded fun _ => Nat.le_refl _).lt
        (hcone.affordable hnet.proper.wellFormed hlt' hnet.bounded.affordable)).bind ?_
    rintro ⟨restored, _⟩ ⟨-, scratch'', hscratch', rfl⟩
    refine ⟨hmid.revalue hscratch', hext.trans (extends_withScratch mid scratch''),
      fun hwanted => ?_, hserves'.withScratch hscratch'.past, hbest.mono fun c hc => ?_⟩
    · have hstep := (hwalks' hwanted).step hwalked.past hnumber
      exact (hstep.keep hagrees.past hagrees.walk).keep hscratch'.past hscratch'.walk
    · exact hc.extends hmid.proper (hlt.trans_le hmid.grown.size_le)
        (extends_withScratch mid scratch'')

/-- A pass over `pivots` in the course of collecting, with `k` queries still to be asked, for which
there are walks if don't-cares are wanted. -/
structure Collected (base : Network) (permitted : Fault → Prop) (cost : NodeCost)
    (terms : Oracle.Terms) (oracle : Oracle μ) (wanted : Bool) (exact : Prop) (leastGain : Int)
    (pivots : List NodeId) (k : Nat) (state : Collection μ) : Prop where
  counting : Counting base permitted cost base.readers state.net
  walks : wanted = true → state.net.scratch.CanWalk permitted k
  serves : oracle.Serves terms k state.memory state.net
  candidates : ∀ (n : NodeId) (i : Nat) (c : Candidate), state.candidates[(n, i)]? = some c →
    n ∈ pivots ∧ base.isGate n = true ∧ Offered exact base cost leastGain n state.net c

variable {terms : Oracle.Terms} {wanted : Bool} {leastGain : Int} {pivots : List NodeId}

theorem Collected.mono {j k : Nat} (hle : j ≤ k) {state : Collection μ}
    (h : Collected base permitted cost terms oracle wanted exact leastGain pivots k state) :
    Collected base permitted cost terms oracle wanted exact leastGain pivots j state :=
  ⟨h.counting, fun hwanted => (h.walks hwanted).mono hle, h.serves.mono hle, h.candidates⟩

/-- The candidates stay good when the network grows. -/
theorem Collected.grow {j k : Nat} {state : Collection μ} {memory : μ}
    (h : Collected base permitted cost terms oracle wanted exact leastGain pivots k state)
    (hcounting : Counting base permitted cost base.readers net) (hext : state.net.Extends net)
    (hwalks : wanted = true → net.scratch.CanWalk permitted j)
    (hserves : oracle.Serves terms j memory net) (count totalGain : Nat) :
    Collected base permitted cost terms oracle wanted exact leastGain pivots j
      ⟨memory, net, state.candidates, count, totalGain⟩ := by
  refine ⟨hcounting, hwalks, hserves, ?_⟩
  intro n i c hc
  obtain ⟨hmem, hgate, hoffered⟩ := h.candidates n i c hc
  have hlt := (lt_size_of_kindIs hgate).trans_le h.counting.grown.size_le
  exact ⟨hmem, hgate, hoffered.extends h.counting.proper hlt hext⟩

theorem Collected.insert {k : Nat} {state : Collection μ} {pivot : NodeId} {c : Candidate}
    (h : Collected base permitted cost terms oracle wanted exact leastGain pivots k state)
    (hmem : pivot ∈ pivots) (hpivot : base.isGate pivot = true)
    (hc : Offered exact base cost leastGain pivot state.net c) (i count totalGain : Nat) :
    Collected base permitted cost terms oracle wanted exact leastGain pivots k
      ⟨state.memory, state.net, state.candidates.insert (pivot, i) c, count, totalGain⟩ := by
  refine ⟨h.counting, h.walks, h.serves, ?_⟩
  intro n j d hd
  change (state.candidates.insert (pivot, i) c)[(n, j)]? = some d at hd
  rw [Std.HashMap.getElem?_insert] at hd
  split at hd
  · next heq =>
    obtain ⟨rfl, rfl⟩ := Prod.mk.inj (beq_iff_eq.mp heq)
    obtain rfl := Option.some.inj hd
    exact ⟨hmem, hpivot, hc⟩
  · exact h.candidates n j d hd

/-- The counts at the start are those of the edges. -/
theorem counting_start (hbase : base.Proper) (hbounded : Bounded permitted cost base)
    {scratch : Scratch} (hscratch : base.scratch.Revalued base.readers scratch) :
    Counting base permitted cost base.readers (base.withScratch scratch) := by
  have hself : Counting base permitted cost base.scratch.valueAt base :=
    ⟨hbase, .refl base, hbounded, rfl, id⟩
  exact hself.revalue hscratch

/-- Nothing is collected at the start. -/
theorem collected_start (hbase : base.Proper) (hbounded : Bounded permitted cost base)
    {scratch : Scratch} (hscratch : base.scratch.Revalued base.readers scratch) {k : Nat}
    {memory : μ} (hwalks : wanted = true → base.scratch.CanWalk permitted k)
    (hserves : oracle.Serves terms k memory base) :
    Collected base permitted cost terms oracle wanted exact leastGain pivots k
      ⟨memory, base.withScratch scratch, ∅, 0, 0⟩ := by
  refine ⟨counting_start hbase hbounded hscratch,
    fun hwanted => (hwalks hwanted).keep hscratch.past hscratch.walk,
    hserves.withScratch hscratch.past, ?_⟩
  intro n i c hc
  rw [Std.HashMap.getElem?_empty] at hc
  cases hc

theorem collectCut_ends (hdemands : Demands exact accepts) (hbase : base.Proper)
    (hbounded : Bounded permitted cost base) (hwidth : settings.cuts.cutSize ≤ TruthTable.maxVars)
    {pivot : NodeId} (hmem : pivot ∈ pivots) (hpivot : base.isGate pivot = true) {cut : Cut}
    {i : Nat} (hsound : cut.Sound base pivot) (hnarrow : cut.size ≤ max 1 settings.cuts.cutSize)
    {k : Nat} {state : Collection μ}
    (h : Collected base permitted cost
      (passTerms permitted cost settings.cuts.cutSize accepts) oracle
        (wantsDontCares settings oracle) exact (minGain settings.allowZeroGain) pivots (k + 1)
          state) :
    Ends permitted (collectCut oracle settings cost pivot state (cut, i))
      (Collected base permitted cost
        (passTerms permitted cost settings.cuts.cutSize accepts) oracle
          (wantsDontCares settings oracle) exact (minGain settings.allowZeroGain) pivots k) := by
  obtain ⟨memory, net, candidates, count, totalGain⟩ := state
  refine (rewriteCut_ends hdemands hbase hbounded hwidth hpivot hsound hnarrow h.counting h.walks
    h.serves).bind ?_
  rintro ⟨memory', best, net'⟩ ⟨hcounting, hext, hwalks, hserves, hbest⟩
  have hgrown := h.grow hcounting hext hwalks hserves
  cases best with
  | none => exact hgrown count totalGain
  | some c => exact (hgrown count totalGain).insert hmem hpivot (hbest c rfl) i _ _

/-- Every cut of a gate takes at most one query. After some of the cuts, one query is left for each
of the others. -/
theorem collectCuts_ends (hdemands : Demands exact accepts) (hbase : base.Proper)
    (hbounded : Bounded permitted cost base) (hwidth : settings.cuts.cutSize ≤ TruthTable.maxVars)
    {sets : CutSets} (hsets : Enumerated base settings.cuts sets)
    (hlimit : 1 ≤ settings.cuts.cutLimit) {pivot : NodeId} (hmem : pivot ∈ pivots)
    (hpivot : base.isGate pivot = true) {k : Nat} {state : Collection μ}
    (h : Collected base permitted cost (passTerms permitted cost settings.cuts.cutSize accepts)
      oracle (wantsDontCares settings oracle) exact (minGain settings.allowZeroGain) pivots
        (k + settings.cuts.cutLimit) state)
    {former rest : List (Cut × Nat)} (heq : (sets.of pivot).zipIdx = former ++ rest) :
    Ends permitted (former.foldlM (collectCut oracle settings cost pivot) state)
      (Collected base permitted cost (passTerms permitted cost settings.cuts.cutSize accepts)
        oracle (wantsDontCares settings oracle) exact (minGain settings.allowZeroGain) pivots
          (k + rest.length)) := by
  have hlen : former.length + rest.length ≤ settings.cuts.cutLimit := by
    have hmax := hsets.length pivot
    have hcount := congrArg List.length heq
    rw [Nat.max_eq_right hlimit] at hmax
    rw [List.length_zipIdx, List.length_append] at hcount
    omega
  refine (Ends.foldlM_prefix (fun before => Collected base permitted cost
    (passTerms permitted cost settings.cuts.cutSize accepts) oracle
      (wantsDontCares settings oracle) exact (minGain settings.allowZeroGain) pivots
        (k + (former.length - before.length + rest.length))) ?_ ?_).mono ?_
  · exact h.mono (by rw [List.length_nil, Nat.sub_zero]; omega)
  · rintro before ⟨cut, i⟩ after state hformer hstate
    have hentry : (cut, i) ∈ (sets.of pivot).zipIdx := by
      rw [heq, hformer]
      exact List.mem_append_left _ (List.mem_append_right _ List.mem_cons_self)
    have hcut : cut ∈ sets.of pivot :=
      List.mem_of_getElem? (List.mem_zipIdx_iff_getElem?.mp hentry)
    have hcount := congrArg List.length hformer
    rw [List.length_append, List.length_cons] at hcount
    refine collectCut_ends hdemands hbase hbounded hwidth hmem hpivot
      (hsets.sound pivot cut hcut) (hsets.narrow pivot cut hcut) (hstate.mono ?_)
    rw [List.length_append, List.length_singleton]
    omega
  · exact fun state hstate => hstate.mono (by omega)

theorem collectNode_ends (hdemands : Demands exact accepts) (hbase : base.Proper)
    (hbounded : Bounded permitted cost base) (hwidth : settings.cuts.cutSize ≤ TruthTable.maxVars)
    {sets : CutSets} (hsets : Enumerated base settings.cuts sets)
    (hlimit : 1 ≤ settings.cuts.cutLimit) {pivot : NodeId} (hmem : pivot ∈ pivots) {k : Nat}
    {state : Collection μ}
    (h : Collected base permitted cost (passTerms permitted cost settings.cuts.cutSize accepts)
      oracle (wantsDontCares settings oracle) exact (minGain settings.allowZeroGain) pivots
        (k + settings.cuts.cutLimit) state) :
    Ends permitted (collectNode oracle settings cost sets state pivot)
      (Collected base permitted cost (passTerms permitted cost settings.cuts.cutSize accepts)
        oracle (wantsDontCares settings oracle) exact (minGain settings.allowZeroGain) pivots
          k) := by
  obtain ⟨memory, net, candidates, count, totalGain⟩ := state
  show Ends permitted (if sets.size ≤ pivot ∨ net.isTerminal pivot then _ else _) _
  split
  · exact h.mono (Nat.le_add_right _ _)
  · next hgoes =>
    obtain ⟨hlt, hterm⟩ := not_or.mp hgoes
    rw [hsets.size, Nat.not_le] at hlt
    have hcounting : Counting base permitted cost base.readers net := h.counting
    have hpivot := hcounting.isGate_of_not_terminal hlt hterm
    refine (hcounting.coneCost_ends hbase hbounded hpivot).bind ?_
    rintro ⟨coneCost, _⟩ rfl
    dsimp only
    split
    · exact h.mono (Nat.le_add_right _ _)
    · exact collectCuts_ends hdemands hbase hbounded hwidth hsets hlimit hmem hpivot h
        (List.append_nil _).symm

/-- The pivots that are left bound the queries that are left. -/
theorem collectNodes_ends (hdemands : Demands exact accepts) (hbase : base.Proper)
    (hbounded : Bounded permitted cost base) (hwidth : settings.cuts.cutSize ≤ TruthTable.maxVars)
    {sets : CutSets} (hsets : Enumerated base settings.cuts sets)
    (hlimit : 1 ≤ settings.cuts.cutLimit) {state : Collection μ}
    (h : Collected base permitted cost (passTerms permitted cost settings.cuts.cutSize accepts)
      oracle (wantsDontCares settings oracle) exact (minGain settings.allowZeroGain) pivots
        (pivots.length * settings.cuts.cutLimit) state) {former rest : List NodeId}
    (heq : pivots = former ++ rest) :
    Ends permitted (former.foldlM (collectNode oracle settings cost sets) state)
      (Collected base permitted cost (passTerms permitted cost settings.cuts.cutSize accepts)
        oracle (wantsDontCares settings oracle) exact (minGain settings.allowZeroGain) pivots
          (rest.length * settings.cuts.cutLimit)) := by
  have hlen := congrArg List.length heq
  rw [List.length_append] at hlen
  refine (Ends.foldlM_prefix (fun before => Collected base permitted cost
    (passTerms permitted cost settings.cuts.cutSize accepts) oracle
      (wantsDontCares settings oracle) exact (minGain settings.allowZeroGain) pivots
        ((pivots.length - before.length) * settings.cuts.cutLimit)) h ?_).mono ?_
  · rintro before pivot after state hformer hstate
    have hcount := congrArg List.length hformer
    rw [List.length_append, List.length_cons] at hcount
    have hmem : pivot ∈ pivots := by
      rw [heq, hformer]
      exact List.mem_append_left _ (List.mem_append_right _ List.mem_cons_self)
    refine collectNode_ends hdemands hbase hbounded hwidth hsets hlimit hmem (hstate.mono ?_)
    rw [← Nat.succ_mul, List.length_append, List.length_singleton]
    exact Nat.mul_le_mul_right _ (by omega)
  · exact fun state hstate => hstate.mono (Nat.mul_le_mul_right _ (by omega))

end Pass

end Network

end LogicSynthesis
