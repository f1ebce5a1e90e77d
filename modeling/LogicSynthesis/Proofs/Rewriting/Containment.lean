import LogicSynthesis.Proofs.Network.ConeCost
import LogicSynthesis.Proofs.Rewriting.Accounts
import LogicSynthesis.Proofs.Rewriting.Soundness

/-!
# Replacements that depend on their gate

A proposal is refused when the walk that counts its gates comes upon the replaced gate. The walk
follows counts: it enters the gates that come into use with the proposal, and looks at what these
read. Gates that stay in use are not entered, so what lies below them is not seen. An accepted
replacement may still depend on the gate, but only by way of a gate that stays in use.

## Main definitions

- `Network.Idle` — a node that only gates use that die with a gate
- `Network.Enters` — the walk from a proposal

## Main statements

- `mem_cone_iff_enters` — the cone of a proposal consists of the gates that are entered
- `meets_iff_enters` — what the walk detects
- `accepted_replacement_bypasses_gate` — the replacement found for a cut
-/

namespace LogicSynthesis.Network

open Relation

variable {base net : Network} {m p r : NodeId}

/-- No output reads `m`, and all gates that read it die with `p`. -/
def Idle (base : Network) (p m : NodeId) : Prop :=
  (∀ s ∈ base.cos, s.node ≠ m) ∧ ∀ x, base.Reads x m → base.Freed p x

/-- There is a path from `r` that, after its first node, only passes nodes that are idle in
`base`. -/
def Enters (base net : Network) (p : NodeId) : NodeId → NodeId → Prop :=
  ReflTransGen fun x y => net.Reads x y ∧ base.Idle p y

section Cones

variable {v : NodeId → Nat} {freed taken : List NodeId} (hbase : base.Proper)
  (hnet : net.Proper) (hext : base.Extends net) (hp : base.isGate p = true)
  (hfreed : net.Cone v p freed) (hsum : ∀ m, v m + net.loads freed m = base.readers m)

include hbase hext hp hfreed hsum

/-- What is freed belongs to the cone. -/
theorem mem_cone_of_freed (h : base.Freed p m) : m ∈ freed := by
  induction h with
  | root => exact hfreed.root
  | @fanin m hgate hread hout _ ih =>
    by_cases hne : m = p
    · rw [hne]
      exact hfreed.root
    · obtain ⟨x, hreads⟩ := hread
      have hx : x ∈ freed := ih x hreads
      have hloads : base.loads freed m = base.readers m := loads_eq_readers hfreed.nodup hout ih
      rw [loads_cone_eq hbase hext hp hfreed] at hloads
      have hcount := hsum m
      have hold := lt_size_of_kindIs (isGate_of_mem_cone hbase hext hp hfreed hx)
      refine (hfreed.mem_iff m hne).mpr ⟨?_, by omega, x, hx, (hext.reads_iff hold).mpr hreads⟩
      rw [isTerminal, hext.kindIs_eq _ (lt_size_of_kindIs hgate)]
      exact isTerminal_of_isGate hgate

/-- The counts that are left tell which nodes are idle. -/
theorem eq_zero_iff_idle (m : NodeId) : v m = 0 ↔ base.Idle p m := by
  constructor
  · intro hzero
    obtain ⟨hout, hreaders⟩ := unread_of_eq_zero hbase hext hp hfreed hsum hzero
    exact ⟨hout, fun x hx => freed_of_mem_cone hbase hext hp hfreed hsum (hreaders x hx)⟩
  · rintro ⟨hout, hreaders⟩
    have hloads : base.loads freed m = base.readers m := loads_eq_readers hfreed.nodup hout
      fun x hx => mem_cone_of_freed hbase hext hp hfreed hsum (hreaders x hx)
    rw [loads_cone_eq hbase hext hp hfreed] at hloads
    have hcount := hsum m
    omega

include hnet

/-- The cone of a proposal consists of the gates that the walk enters. -/
theorem mem_cone_iff_enters (hr : r < net.size) (htaken : net.IsCone v r taken) :
    m ∈ taken ↔ net.isGate m = true ∧ Enters base net p r m := by
  have hidle := eq_zero_iff_idle hbase hext hp hfreed hsum
  have hcone : net.isGate r = true → net.Cone v r taken :=
    fun hgate => htaken.cone (isTerminal_of_isGate hgate)
  have hgates := htaken.isGate hnet.wellFormed hr
  constructor
  · intro hm
    have hroot : net.isGate r = true := by
      by_contra hterm
      rw [IsCone, isTerminal_eq_not_isGate hr, Bool.eq_false_of_not_eq_true hterm,
        if_pos Bool.not_false] at htaken
      rw [htaken] at hm
      cases hm
    refine ⟨hgates m hm, ?_⟩
    induction m using hnet.acyclic.induction_readers with
    | _ m ih =>
      by_cases hne : m = r
      · rw [hne]
        exact .refl
      · obtain ⟨-, hzero, x, hx, hreads⟩ := ((hcone hroot).mem_iff m hne).mp hm
        exact (ih x hreads hx).tail ⟨hreads, (hidle m).mp hzero⟩
  · rintro ⟨hgate, hpath⟩
    induction hpath with
    | refl => exact (hcone hgate).root
    | @tail x m hpath hstep ih =>
      have hx : x ∈ taken := ih (hnet.wellFormed.isGate_of_reads hstep.1)
      -- The walk has gone on from a gate, so it has started from one.
      have hroot : net.isGate r = true := by
        rcases ReflTransGen.cases_head hpath with rfl | ⟨y, hy, -⟩
        · exact hnet.wellFormed.isGate_of_reads hstep.1
        · exact hnet.wellFormed.isGate_of_reads hy.1
      by_cases hne : m = r
      · rw [hne]
        exact (hcone hroot).root
      · exact ((hcone hroot).mem_iff m hne).mpr
          ⟨isTerminal_of_isGate hgate, (hidle m).mpr hstep.2, x, hx, hstep.1⟩

/-- The walk detects the gate when it is entered itself or read by a gate that is entered. -/
theorem meets_iff_enters (hr : r < net.size) (htaken : net.IsCone v r taken) :
    net.Meets taken p ↔ ∃ m, Enters base net p r m ∧ (m = p ∨ net.Reads m p) := by
  have hp' : net.isGate p = true := (hext.kindIs_eq _ (lt_size_of_kindIs hp)).trans hp
  refine exists_congr fun m => and_congr_left fun hm => ?_
  rw [mem_cone_iff_enters hbase hnet hext hp hfreed hsum hr htaken, and_iff_right]
  rcases hm with rfl | hreads
  · exact hp'
  · exact hnet.wellFormed.isGate_of_reads hreads

end Cones

variable {μ : Type} {permitted : Fault → Prop} {cost : NodeCost} {oracle : Oracle μ} {memory : μ}
  {settings : RewriteSettings} {cut : Cut}

/-- The account of a candidate shows that it bypasses its gate. -/
theorem Saves.bypasses {leastGain : Int} {c : Candidate} (hbase : base.Proper)
    (hnet : net.Proper) (hext : base.Extends net) (hp : base.isGate p = true)
    (hlt : c.replacement.node < net.size) (h : Saves base cost leastGain p net c)
    (hm : Enters base net p c.replacement.node m) : m ≠ p ∧ ¬ net.Reads m p := by
  obtain ⟨v, freed, taken, hfreed, hsum, htaken, havoids, -⟩ := h.spec
  have hp' : net.isGate p = true := (hext.kindIs_eq _ (lt_size_of_kindIs hp)).trans hp
  have hcone := hfreed.cone (isTerminal_of_isGate hp')
  rw [meets_iff_enters hbase hnet hext hp hcone hsum hlt htaken] at havoids
  exact ⟨fun heq => havoids ⟨m, hm, .inl heq⟩, fun hreads => havoids ⟨m, hm, .inr hreads⟩⟩

/-- The counts are those of the edges, and an oracle is asked about a cut of the gate `p`. The
replacement that is found is not the gate, and every path from it to the gate passes a node that
stays in use: an output reads it, or a gate that does not die with `p`. So no gate that comes into
use with the replacement reads `p`. -/
theorem accepted_replacement_bypasses_gate (hbuilt : net.Built) (hac : net.Acyclic)
    (hcounts : net.scratch.valueAt = net.readers) (hbounded : Bounded permitted cost net)
    (hwalks : wantsDontCares settings oracle = true → net.scratch.CanWalk permitted 1)
    (hwidth : settings.cuts.cutSize ≤ TruthTable.maxVars)
    (hp : net.isGate p = true) (hsound : cut.Sound net p)
    (hnarrow : cut.size ≤ max 1 settings.cuts.cutSize)
    (hserves : oracle.Serves (passTerms permitted cost settings.cuts.cutSize Query.Existing) 1
      memory net) :
    Ends permitted (net.rewriteCut oracle memory settings cost p cut) fun r =>
      ∀ c, r.2.1 = some c → ∀ m, Enters net r.2.2 p c.replacement.node m →
        m ≠ p ∧ ¬ r.2.2.Reads m p := by
  have hnet : net.Proper := ⟨hbuilt.wellFormed, hac⟩
  have hcounting : Counting net permitted cost net.readers net :=
    ⟨hnet, .refl net, hbounded, hcounts, id⟩
  refine (rewriteCut_ends demands_existing hnet hbounded hwidth hp hsound hnarrow hcounting
    hwalks hserves).mono ?_
  rintro ⟨memory', best, net'⟩ ⟨hcounting', hext, -, -, hbest⟩ c hc m hm
  have hoffered := hbest c hc
  exact hoffered.saves.bypasses hnet hcounting'.proper hext hp hoffered.replaces.lt hm

/-! ### A replacement that depends on its gate -/

/-- The conjunction of three inputs, and two conjunctions on top of it that read its inputs once
more. -/
def repeatedConjunction : Network :=
  let more := (conjunctionOfThree.appendGate [⟨1, false⟩, ⟨5, false⟩] Basis.gateLiteral).2
  let net := (more.appendGate [⟨2, false⟩, ⟨6, false⟩] Basis.gateLiteral).2
  { net with
    nodes := countReader net.nodes 7
    pos := #[⟨7, false⟩] }

theorem built_repeatedConjunction : repeatedConjunction.Built := by
  have hmore :
      (conjunctionOfThree.appendGate [⟨1, false⟩, ⟨5, false⟩] Basis.gateLiteral).2.Built :=
    built_conjunctionOfThree.appendPair rfl (by cbv) (by decide)
  exact .addPo (hmore.appendPair rfl (by cbv) (by decide))
    (addPo_eq (s := ⟨7, false⟩) (by decide))

theorem acyclic_repeatedConjunction : repeatedConjunction.Acyclic := acyclic_of_ordered (by decide)

/-- Proposes the conjunction of the leaves, each of them taken twice. -/
def conjoinTwice : Oracle Unit :=
  .ofFunction fun _ leaves net => .single (Oracle.conjoin (leaves ++ leaves)) () net

theorem conjoin_grows {leaves : List Signal} (hnet : net.Proper) (hne : leaves ≠ [])
    (hexist : ∀ s ∈ leaves, s.node < net.size) :
    Build.Grows (Oracle.conjoin leaves) net fun s net' => s.node < net'.size := by
  cases leaves with
  | nil => exact absurd rfl hne
  | cons s leaves =>
    refine Build.Grows.foldlM_prefix (fun _ (s : Signal) net' => s.node < net'.size)
      (hexist s List.mem_cons_self) ?_
    intro before t after s net' heq hgrow hs
    have ht : t.node < net'.size := by
      refine (hexist t ?_).trans_le (hgrow.extends hnet.wellFormed).size_le
      rw [heq]
      exact List.mem_cons_of_mem _ (List.mem_append_right _ List.mem_cons_self)
    exact (Build.computes_and (hgrow.proper hnet) (drives_self hs) (drives_self ht)).mono
      fun _ _ _ h => h.lt

/-- The oracle only creates gates. -/
theorem serves_conjoinTwice (hnet : net.Proper) (width k : Nat) :
    conjoinTwice.Serves (passTerms Anything cost width Query.Existing) k () net := by
  refine Oracle.serves_of_invariant (fun _ net => net.Proper) (fun _ _ _ h => h.withScratch) ?_ k
    hnet
  intro memory net q hnet hq
  have hexist : ∀ s ∈ q.leaves ++ q.leaves, s.node < net.size :=
    fun s hs => hq.exist s ((List.mem_append.mp hs).elim id id)
  show (Dialogue.single (Oracle.conjoin (q.leaves ++ q.leaves)) () net).Keeps _ _ _ _
  rw [Dialogue.single]
  by_cases hne : q.leaves ++ q.leaves = []
  · rw [hne]
    exact .stop trivial
  · obtain ⟨s, net', hrun, hgrow, hs⟩ := conjoin_grows hnet hne hexist
    rw [hrun]
    exact .propose hgrow (.inr trivial) hs fun _ =>
      .finish .refl (.inr trivial) (hgrow.proper hnet)

/-- The conjunction of the leaves is the gate itself. Conjoined with the leaves once more it leads
to the two gates above, of which the upper one stays in use. -/
theorem rewriteCut_repeatedConjunction : ∃ counted sets cut r,
    repeatedConjunction.initReferenceCounts = .ok counted ∧
    counted.enumerateCuts {} = .ok sets ∧ cut ∈ sets.of 5 ∧
    counted.rewriteCut conjoinTwice () {} unitCost 5 cut = .ok r ∧
    r.2.1 = some ⟨1, ⟨8, false⟩⟩ ∧ r.2.2.Reads 8 7 ∧ r.2.2.Reads 7 6 ∧ r.2.2.Reads 6 5 := by
  have hrun : (do
      let counted ← repeatedConjunction.initReferenceCounts
      let sets ← counted.enumerateCuts {}
      let cut ← (sets.of 5)[1]?.elim (.error Fault.missingEntry) .ok
      let r ← counted.rewriteCut conjoinTwice () {} unitCost 5 cut
      return (r.2.1, [8, 7, 6].map r.2.2.faninNodes)) =
        .ok (some ⟨1, ⟨8, false⟩⟩, [[3, 7], [2, 6], [1, 5]]) := by cbv
  obtain ⟨counted, hcounted, hrun⟩ := bind_eq_ok hrun
  obtain ⟨sets, hsets, hrun⟩ := bind_eq_ok hrun
  obtain ⟨cut, hpicked, hrun⟩ := bind_eq_ok hrun
  obtain ⟨r, hrewrite, hresult⟩ := bind_eq_ok hrun
  obtain ⟨hbest, hfanins⟩ := Prod.mk.inj (Except.ok.inj hresult)
  obtain ⟨h8, h7, h6, -⟩ : _ ∧ _ ∧ _ ∧ True := by simpa using hfanins
  have hcut : cut ∈ sets.of 5 := by
    cases hget : (sets.of 5)[1]? with
    | none =>
      rw [hget] at hpicked
      cases hpicked
    | some picked =>
      rw [hget] at hpicked
      obtain rfl := Except.ok.inj hpicked
      exact List.mem_of_getElem? hget
  refine ⟨counted, sets, cut, r, hcounted, hsets, hcut, hrewrite, hbest, ?_, ?_, ?_⟩
  · rw [Reads, h8]
    decide
  · rw [Reads, h7]
    decide
  · rw [Reads, h6]
    decide

/-- None of the gates that come into use with this replacement reads the gate. -/
theorem accepted_replacement_bypasses_repeatedConjunction : ∃ counted cut r c,
    repeatedConjunction.initReferenceCounts = .ok counted ∧
    counted.rewriteCut conjoinTwice () {} unitCost 5 cut = .ok r ∧ r.2.1 = some c ∧
    ∀ m, Enters counted r.2.2 5 c.replacement.node m → m ≠ 5 ∧ ¬ r.2.2.Reads m 5 := by
  have hbuilt := built_repeatedConjunction
  obtain ⟨counted, sets, cut, r, hcounted, hsets, hcut, hrewrite, hbest, -⟩ :=
    rewriteCut_repeatedConjunction
  have hbounded : Bounded Anything unitCost counted := .inr trivial
  have hspec := (initReferenceCounts_ends hbuilt.wellFormed
    (show Bounded Anything unitCost repeatedConjunction from .inr trivial)).post_of_eq hcounted
  refine ⟨counted, cut, r, _, hcounted, hrewrite, hbest, ?_⟩
  obtain ⟨scratch, hscratch, rfl⟩ := hspec
  have hnet : (repeatedConjunction.withScratch scratch).Built := by
    refine .annotate hbuilt (hscratch.size.trans hbuilt.wellFormed.values) ?_
    rw [hscratch.marks]
    exact hbuilt.wellFormed.marks
  have hac : (repeatedConjunction.withScratch scratch).Acyclic := acyclic_repeatedConjunction
  have henumerated := (@enumerateCuts_ends _ hnet.wellFormed hac Anything {} (by decide) (by decide)
    (by decide)).post_of_eq hsets
  have hgate : repeatedConjunction.isGate 5 = true := by decide
  replace hgate : (repeatedConjunction.withScratch scratch).isGate 5 = true := hgate
  exact (accepted_replacement_bypasses_gate hnet hac hscratch.valueAt hbounded
    (fun _ => .anything) (by decide) hgate (henumerated.1.sound 5 cut hcut)
    (henumerated.1.narrow 5 cut hcut)
    (serves_conjoinTwice ⟨hnet.wellFormed, hac⟩ _ _)).post_of_eq hrewrite _ hbest

/-- A replacement is accepted that depends on its gate. -/
theorem accepted_replacement_depends_on_gate : ∃ counted sets cut r c,
    repeatedConjunction.initReferenceCounts = .ok counted ∧
    counted.enumerateCuts {} = .ok sets ∧ cut ∈ sets.of 5 ∧
    counted.rewriteCut conjoinTwice () {} unitCost 5 cut = .ok r ∧ r.2.1 = some c ∧
    TransGen r.2.2.Reads c.replacement.node 5 := by
  obtain ⟨counted, sets, cut, r, hcounted, hsets, hcut, hrewrite, hbest, h8, h7, h6⟩ :=
    rewriteCut_repeatedConjunction
  exact ⟨counted, sets, cut, r, _, hcounted, hsets, hcut, hrewrite, hbest, .tail (.tail (.single h8)
    h7) h6⟩

end LogicSynthesis.Network
