import LogicSynthesis.Proofs.Rewriting.Soundness

/-!
# Allowing zero gain

What is accepted as a candidate does not flow back into the scoring: the oracle is always asked to
go on, and every network that it sees is the same whether a proposal was kept or not. So two passes
that differ only in whether zero gain is allowed run side by side. They keep the same candidates of
positive gain, since a candidate of zero gain gives way to any of these.

## Main definitions

- `Network.strictly`, `Network.loosely` — settings without and with zero gain
- `Network.positive` — what is left of a candidate without zero gain
- `Network.collectCandidates` — the first stage of a pass
- `Network.Widened` — two collections, of which the second one allows zero gain

## Main statements

- `keepBest_pair` — zero gain does not affect which proposal of positive gain is kept
- `collectCandidates_agree` — the two collections
- `zero_gain_only_adds` — the candidates and the reports of two passes
-/

namespace LogicSynthesis.Network

variable {μ : Type} {net : Network} {oracle : Oracle μ} {settings : RewriteSettings}
  {cost : NodeCost} {sets : CutSets}

/-- The settings without zero gain. -/
def strictly (settings : RewriteSettings) : RewriteSettings :=
  { settings with allowZeroGain := false }

/-- The settings with zero gain. -/
def loosely (settings : RewriteSettings) : RewriteSettings :=
  { settings with allowZeroGain := true }

/-! ### One cut -/

/-- The candidate, if its gain is positive. -/
def positive (best : Option Candidate) : Option Candidate := best.filter fun c => 0 < c.gain

theorem positive_some (c : Candidate) :
    positive (some c) = if 0 < c.gain then some c else none := by
  simp [positive, Option.filter]

/-- The best candidates without and with zero gain. -/
structure BestPair (best best' : Option Candidate) : Prop where
  strict : best = positive best'
  nonneg : ∀ c, best' = some c → 0 ≤ c.gain

theorem bestPair_none : BestPair none none := ⟨rfl, fun _ h => by cases h⟩

/-- A candidate of zero gain is only kept until there is one of positive gain. Which one that is
does not depend on it. -/
theorem keepBest_pair {best best' : Option Candidate} (h : BestPair best best') (c : Candidate) :
    BestPair (keepBest 1 best c) (keepBest 0 best' c) := by
  obtain ⟨rfl, hnonneg⟩ := h
  cases best' with
  | none =>
    refine ⟨?_, fun d hd => ?_⟩
    · simp only [keepBest, positive, Option.filter_none]
      grind [positive_some]
    · grind [keepBest]
  | some b =>
    have hb := hnonneg b rfl
    refine ⟨?_, fun d hd => ?_⟩
    · simp only [keepBest, positive_some]
      grind [positive_some]
    · grind [keepBest]

/-- The proposal is scored alike, and the oracle is asked to go on. -/
theorem scoreProposal_agree (pivot : NodeId) (released : Nat) {best best' : Option Candidate}
    (s : Signal) (net : Network) (h : BestPair best best') :
    Agree (fun r r' => r.1 = r'.1 ∧ BestPair r.2.1 r'.2.1 ∧ r.2.2 = r'.2.2)
      (scoreProposal cost pivot released 1 best s net)
      (scoreProposal cost pivot released 0 best' s net) := by
  refine Agree.bind_same ?_
  rintro ⟨⟨added, contains⟩, acquired⟩
  refine Agree.bind_same ?_
  rintro ⟨restored, net⟩
  have hkeeps : ∀ gain, Agree (fun r r' => r.1 = r'.1 ∧ BestPair r.2.1 r'.2.1 ∧ r.2.2 = r'.2.2)
      (.ok (true, keepBest 1 best ⟨gain, s⟩, net)) (.ok (true, keepBest 0 best' ⟨gain, s⟩, net)) :=
    fun gain => ⟨rfl, keepBest_pair h ⟨gain, s⟩, rfl⟩
  dsimp only
  split
  · exact hkeeps (-1)
  · refine Agree.bind_same ?_
    exact hkeeps

theorem rewriteCut_agree (memory : μ) (pivot : NodeId) (cut : Cut) :
    Agree (fun r r' => r.1 = r'.1 ∧ BestPair r.2.1 r'.2.1 ∧ r.2.2 = r'.2.2)
      (net.rewriteCut oracle memory (strictly settings) cost pivot cut)
      (net.rewriteCut oracle memory (loosely settings) cost pivot cut) := by
  unfold rewriteCut
  split
  · exact ⟨rfl, bestPair_none, rfl⟩
  · refine Agree.bind_same fun _ => Agree.bind_same fun ⟨released, net⟩ =>
      Agree.bind_same fun ⟨dontCares, net⟩ => ?_
    refine (Dialogue.listen_agree BestPair (fun best best' s net h =>
      scoreProposal_agree pivot released s net h) _ bestPair_none).bind ?_
    rintro ⟨memory, best, net⟩ ⟨_, best', _⟩ ⟨rfl, hbest, rfl⟩
    exact Agree.bind_same fun ⟨_, net⟩ => ⟨rfl, hbest, rfl⟩

/-! ### All cuts -/

/-- The collections of two passes side by side, the second of which allows zero gain. Its candidates
of positive gain are those of the first one, and all others have the gain zero. -/
structure Widened (strict loose : Collection μ) : Prop where
  memory : strict.memory = loose.memory
  net : strict.net = loose.net
  kept : ∀ (n : NodeId) (i : Nat) (c : Candidate),
    strict.candidates[(n, i)]? = some c ↔ loose.candidates[(n, i)]? = some c ∧ 1 ≤ c.gain
  further : ∀ (n : NodeId) (i : Nat) (c : Candidate),
    loose.candidates[(n, i)]? = some c → strict.candidates[(n, i)]? = none → c.gain = 0
  count : strict.count ≤ loose.count
  totalGain : strict.totalGain = loose.totalGain

/-- The cuts that have a candidate were seen. -/
def Seen (seen : NodeId → Nat → Prop) (candidates : Candidates) : Prop :=
  ∀ (n : NodeId) (i : Nat) (c : Candidate), candidates[(n, i)]? = some c → seen n i

theorem Seen.mono {seen seen' : NodeId → Nat → Prop} {candidates : Candidates}
    (h : Seen seen candidates) (himp : ∀ n i, seen n i → seen' n i) : Seen seen' candidates :=
  fun n i c hc => himp n i (h n i c hc)

theorem getElem?_insert_candidate (candidates : Candidates) (key : NodeId × Nat) (c : Candidate)
    (n : NodeId) (i : Nat) : (candidates.insert key c)[(n, i)]? =
      if key = (n, i) then some c else candidates[(n, i)]? := by
  rw [Std.HashMap.getElem?_insert]
  simp only [beq_iff_eq]

theorem Seen.getElem?_eq_none {seen : NodeId → Nat → Prop} {candidates : Candidates}
    (h : Seen seen candidates) {n : NodeId} {i : Nat} (hfresh : ¬ seen n i) :
    candidates[(n, i)]? = none := by
  cases hc : candidates[(n, i)]? with
  | none => rfl
  | some c => exact absurd (h n i c hc) hfresh

theorem Seen.insert {seen : NodeId → Nat → Prop} {candidates : Candidates}
    (h : Seen seen candidates) (n : NodeId) (i : Nat) (c : Candidate) :
    Seen (fun m j => seen m j ∨ m = n ∧ j = i) (candidates.insert (n, i) c) := by
  intro m j d hd
  rw [getElem?_insert_candidate] at hd
  split at hd
  · next heq => exact .inr ⟨(Prod.mk.inj heq).1.symm, (Prod.mk.inj heq).2.symm⟩
  · exact .inl (h m j d hd)

/-- A candidate of positive gain is kept by both passes. -/
theorem Widened.insert {strict loose : Collection μ} (h : Widened strict loose)
    (key : NodeId × Nat) {c : Candidate} (hpos : 0 < c.gain) (memory : μ) (net : Network) :
    Widened ⟨memory, net, strict.candidates.insert key c, strict.count + 1,
        strict.totalGain + c.gain.toNat⟩
      ⟨memory, net, loose.candidates.insert key c, loose.count + 1,
        loose.totalGain + c.gain.toNat⟩ := by
  refine ⟨rfl, rfl, fun n i d => ?_, fun n i d => ?_, Nat.succ_le_succ h.count, ?_⟩
  · rw [getElem?_insert_candidate, getElem?_insert_candidate]
    split
    · rw [Option.some_inj]
      constructor
      · rintro rfl
        exact ⟨rfl, hpos⟩
      · exact And.left
    · exact h.kept n i d
  · rw [getElem?_insert_candidate, getElem?_insert_candidate]
    split
    · intro _ hnone
      cases hnone
    · exact h.further n i d
  · rw [h.totalGain]

/-- A candidate of zero gain, for a cut without one, is kept by the second pass only. -/
theorem Widened.insert_zero {strict loose : Collection μ} (h : Widened strict loose)
    {key : NodeId × Nat} (hfresh : loose.candidates[key]? = none) {c : Candidate}
    (hzero : c.gain = 0) (memory : μ) (net : Network) :
    Widened ⟨memory, net, strict.candidates, strict.count, strict.totalGain⟩
      ⟨memory, net, loose.candidates.insert key c, loose.count + 1,
        loose.totalGain + c.gain.toNat⟩ := by
  refine ⟨rfl, rfl, fun n i d => ?_, fun n i d => ?_, Nat.le_succ_of_le h.count, ?_⟩
  · rw [getElem?_insert_candidate]
    split
    · next heq =>
      subst heq
      rw [h.kept, hfresh, Option.some_inj]
      constructor
      · rintro ⟨hfalse, -⟩
        cases hfalse
      · rintro ⟨rfl, hone⟩
        omega
    · exact h.kept n i d
  · rw [getElem?_insert_candidate]
    split
    · rintro hd -
      rw [← Option.some_inj.mp hd]
      exact hzero
    · exact h.further n i d
  · dsimp only
    rw [hzero, h.totalGain]
    rfl

/-- A cut that was not seen before. -/
theorem collectCut_agree {strict loose : Collection μ} (h : Widened strict loose) {pivot : NodeId}
    {cut : Cut} {i : Nat} {seen : NodeId → Nat → Prop} (hseen : Seen seen loose.candidates)
    (hfresh : ¬ seen pivot i) :
    Agree (fun s t => Widened s t ∧ Seen (fun n j => seen n j ∨ n = pivot ∧ j = i) t.candidates)
      (collectCut oracle (strictly settings) cost pivot strict (cut, i))
      (collectCut oracle (loosely settings) cost pivot loose (cut, i)) := by
  obtain ⟨memory, net, candidates, count, totalGain⟩ := strict
  obtain ⟨memory', net', candidates', count', totalGain'⟩ := loose
  obtain rfl : memory = memory' := h.memory
  obtain rfl : net = net' := h.net
  refine (rewriteCut_agree memory pivot cut).bind ?_
  rintro ⟨memory, best, net⟩ ⟨_, best', _⟩ ⟨hmemory, hbest, hnet⟩
  dsimp only at hmemory hbest hnet
  subst hmemory hnet
  obtain ⟨rfl, hnonneg⟩ := hbest
  cases best' with
  | none => exact ⟨⟨rfl, rfl, h.kept, h.further, h.count, h.totalGain⟩, hseen.mono fun _ _ => .inl⟩
  | some c =>
    have hgain := hnonneg c rfl
    by_cases hpos : 0 < c.gain
    · rw [positive_some, if_pos hpos]
      exact ⟨h.insert (pivot, i) hpos memory net, hseen.insert pivot i c⟩
    · have hzero : c.gain = 0 := by omega
      rw [positive_some, if_neg hpos]
      exact ⟨h.insert_zero (hseen.getElem?_eq_none hfresh) hzero memory net,
        hseen.insert pivot i c⟩

/-- The cuts of a gate that was not seen before. -/
theorem collectCuts_agree {strict loose : Collection μ} (h : Widened strict loose) {pivot : NodeId}
    {seen : NodeId → Prop} (hseen : Seen (fun n _ => seen n) loose.candidates)
    (hfresh : ¬ seen pivot) (cuts : List Cut) :
    Agree (fun s t => Widened s t ∧ Seen (fun n _ => seen n ∨ n = pivot) t.candidates)
      (cuts.zipIdx.foldlM (collectCut oracle (strictly settings) cost pivot) strict)
      (cuts.zipIdx.foldlM (collectCut oracle (loosely settings) cost pivot) loose) := by
  refine (Agree.foldlM_prefix (fun before s t => Widened s t ∧
    Seen (fun n i => seen n ∨ n = pivot ∧ i < before.length) t.candidates) ?_ ?_).mono ?_
  · exact ⟨h, hseen.mono fun _ _ => .inl⟩
  · rintro before ⟨cut, i⟩ after s t heq ⟨hwidened, hbefore⟩
    have hentry : cuts.zipIdx[before.length]? = some (cut, i) := by
      rw [heq, List.getElem?_append_right (Nat.le_refl _), Nat.sub_self]
      rfl
    obtain rfl : before.length = i := by
      rw [List.getElem?_zipIdx, Option.map_eq_some_iff] at hentry
      obtain ⟨_, -, hentry⟩ := hentry
      rw [← (Prod.mk.inj hentry).2, Nat.zero_add]
    have hnew : ¬ (seen pivot ∨ pivot = pivot ∧ before.length < before.length) :=
      fun hold => hold.elim hfresh fun hlt => Nat.lt_irrefl _ hlt.2
    refine (collectCut_agree hwidened hbefore hnew).mono fun s t ⟨hwidened, hafter⟩ =>
      ⟨hwidened, hafter.mono fun n j hj => ?_⟩
    rw [List.length_append, List.length_singleton]
    rcases hj with (hold | ⟨hsame, hj⟩) | ⟨hsame, hj⟩
    · exact .inl hold
    · exact .inr ⟨hsame, Nat.lt_succ_of_lt hj⟩
    · exact .inr ⟨hsame, hj.trans_lt (Nat.lt_succ_self _)⟩
  · exact fun s t ⟨hwidened, hafter⟩ =>
      ⟨hwidened, hafter.mono fun _ _ hold => hold.imp id And.left⟩

theorem collectNode_agree {strict loose : Collection μ} (h : Widened strict loose) {pivot : NodeId}
    {seen : NodeId → Prop} (hseen : Seen (fun n _ => seen n) loose.candidates)
    (hfresh : ¬ seen pivot) :
    Agree (fun s t => Widened s t ∧ Seen (fun n _ => seen n ∨ n = pivot) t.candidates)
      (collectNode oracle (strictly settings) cost sets strict pivot)
      (collectNode oracle (loosely settings) cost sets loose pivot) := by
  obtain ⟨memory, net, candidates, count, totalGain⟩ := strict
  obtain ⟨memory', net', candidates', count', totalGain'⟩ := loose
  obtain ⟨hmemory, hnet, hkept, hfurther, hcount, htotal⟩ := h
  dsimp only at hmemory hnet htotal
  subst hmemory hnet htotal
  have hstays : ∀ mid : Network,
      Widened (⟨memory, mid, candidates, count, totalGain⟩ : Collection μ)
        ⟨memory, mid, candidates', count', totalGain⟩ :=
    fun mid => ⟨rfl, rfl, hkept, hfurther, hcount, rfl⟩
  have hseen' : Seen (fun n _ => seen n ∨ n = pivot) candidates' := hseen.mono fun _ _ => .inl
  unfold collectNode
  dsimp only
  split
  · exact ⟨hstays net, hseen'⟩
  · refine Agree.bind_same ?_
    rintro ⟨coneCost, mid⟩
    dsimp only
    split
    · exact ⟨hstays mid, hseen'⟩
    · exact collectCuts_agree (hstays mid) hseen hfresh (sets.of pivot)

/-! ### Passes -/

/-- The cuts of all nodes, and the candidates that a pass finds among them. -/
def collectCandidates (net : Network) (pivots : List NodeId) (oracle : Oracle μ) (memory : μ)
    (settings : RewriteSettings) (cost : NodeCost) : Except Fault (CutSets × Collection μ) := do
  let sets ← net.enumerateCuts settings.cuts
  let net ← net.initReferenceCounts
  let state ← pivots.foldlM (collectNode oracle settings cost sets) ⟨memory, net, ∅, 0, 0⟩
  return (sets, state)

variable {pivots : List NodeId} {memory : μ}

theorem collectCandidates_agree (hnodup : pivots.Nodup) :
    Agree (fun x y => x.1 = y.1 ∧ Widened x.2 y.2)
      (net.collectCandidates pivots oracle memory (strictly settings) cost)
      (net.collectCandidates pivots oracle memory (loosely settings) cost) := by
  refine Agree.bind_same fun sets => Agree.bind_same fun counted => ?_
  have hloop : Agree (fun s t => Widened s t ∧ Seen (fun n _ => n ∈ pivots) t.candidates)
      (pivots.foldlM (collectNode oracle (strictly settings) cost sets) ⟨memory, counted, ∅, 0, 0⟩)
      (pivots.foldlM (collectNode oracle (loosely settings) cost sets)
        ⟨memory, counted, ∅, 0, 0⟩) := by
    refine Agree.foldlM_prefix
      (fun before s t => Widened s t ∧ Seen (fun n _ => n ∈ before) t.candidates) ⟨?_, ?_⟩ ?_
    · refine ⟨rfl, rfl, fun n i c => ?_, fun n i c hc => ?_, Nat.le_refl 0, rfl⟩
      · simp only [Std.HashMap.getElem?_empty, reduceCtorEq, false_and]
      · simp only [Std.HashMap.getElem?_empty, reduceCtorEq] at hc
    · intro n i c hc
      simp only [Std.HashMap.getElem?_empty, reduceCtorEq] at hc
    · rintro before pivot after s t heq ⟨hwidened, hseen⟩
      have hfresh : pivot ∉ before := by
        rw [heq, List.nodup_append] at hnodup
        exact fun hmem => hnodup.2.2 pivot hmem pivot List.mem_cons_self rfl
      refine (collectNode_agree hwidened hseen hfresh).mono fun s t ⟨hwidened, hafter⟩ =>
        ⟨hwidened, hafter.mono fun n _ hn => ?_⟩
      rwa [List.mem_append, List.mem_singleton]
  exact hloop.bind fun s t h => ⟨rfl, h.1⟩

/-- The report of a pass counts what was collected. -/
theorem collectCandidates_of_rewritePivots {r : RewriteReport × μ × Network}
    (h : net.rewritePivots pivots oracle memory settings cost = .ok r) :
    ∃ x, net.collectCandidates pivots oracle memory settings cost = .ok x ∧
      r.1.candidates = x.2.count ∧ r.1.totalGain = x.2.totalGain := by
  obtain ⟨plan, hplan, -, hcandidates, htotal⟩ := rewritePivots_eq_ok h
  obtain ⟨sets, hsets, hplan⟩ := bind_eq_ok hplan
  obtain ⟨counted, hcounted, hplan⟩ := bind_eq_ok hplan
  obtain ⟨state, hstate, hplan⟩ := bind_eq_ok hplan
  obtain ⟨⟨g, mid⟩, -, hplan⟩ := bind_eq_ok hplan
  obtain ⟨selected, -, hplan⟩ := bind_eq_ok hplan
  obtain rfl := Except.ok.inj hplan
  refine ⟨(sets, state), ?_, hcandidates, htotal⟩
  rw [collectCandidates, hsets, ok_bind, hcounted, ok_bind, hstate]
  rfl

/-- What a pass is promised does not depend on whether it allows zero gain. -/
theorem Feasible.allow {permitted : Fault → Prop} {accepts : Query → Network → Signal → Prop}
    (h : Feasible permitted accepts net pivots oracle memory settings cost) (allow : Bool) :
    Feasible permitted accepts net pivots oracle memory { settings with allowZeroGain := allow }
      cost := ⟨h.limit_pos, h.limit_lt, h.width, h.bounded, h.walks, h.serves⟩

/-- Two passes over the same network that differ only in whether zero gain is allowed. Collecting
candidates goes alike: where it ends, the cuts are the same ones, the first pass has the candidates
of positive gain that the second one has, and the others of the second pass have the gain zero. So
if both passes go through, as they do when they are feasible, the second one reports as many
candidates or more, and the same total gain. -/
theorem zero_gain_only_adds (net : Network) {pivots : List NodeId} (hnodup : pivots.Nodup)
    (oracle : Oracle μ) (memory : μ) (settings : RewriteSettings) (cost : NodeCost) :
    Agree (fun x y => x.1 = y.1 ∧ Widened x.2 y.2)
        (net.collectCandidates pivots oracle memory (strictly settings) cost)
        (net.collectCandidates pivots oracle memory (loosely settings) cost) ∧
      (∀ r r', net.rewritePivots pivots oracle memory (strictly settings) cost = .ok r →
        net.rewritePivots pivots oracle memory (loosely settings) cost = .ok r' →
          r.1.candidates ≤ r'.1.candidates ∧ r.1.totalGain = r'.1.totalGain) ∧
      ∀ permitted, net.Built → net.Acyclic →
        Feasible permitted Query.Existing net pivots oracle memory settings cost →
          Ends permitted (net.rewritePivots pivots oracle memory (strictly settings) cost) fun r =>
            Ends permitted (net.rewritePivots pivots oracle memory (loosely settings) cost)
              fun r' => r.1.candidates ≤ r'.1.candidates ∧ r.1.totalGain = r'.1.totalGain := by
  have hagree : Agree (fun x y => x.1 = y.1 ∧ Widened x.2 y.2)
      (net.collectCandidates pivots oracle memory (strictly settings) cost)
      (net.collectCandidates pivots oracle memory (loosely settings) cost) :=
    collectCandidates_agree hnodup
  have hreports : ∀ r r', net.rewritePivots pivots oracle memory (strictly settings) cost = .ok r →
      net.rewritePivots pivots oracle memory (loosely settings) cost = .ok r' →
        r.1.candidates ≤ r'.1.candidates ∧ r.1.totalGain = r'.1.totalGain := by
    intro r r' hrun hrun'
    obtain ⟨x, hx, hcount, htotal⟩ := collectCandidates_of_rewritePivots hrun
    obtain ⟨y, hy, hcount', htotal'⟩ := collectCandidates_of_rewritePivots hrun'
    obtain ⟨-, hwidened⟩ := hagree.related_of_eq hx hy
    rw [hcount, hcount', htotal, htotal']
    exact ⟨hwidened.count, hwidened.totalGain⟩
  refine ⟨hagree, hreports, fun permitted hbuilt hac hfeasible => ?_⟩
  have hends : ∀ allow, Ends permitted (net.rewritePivots pivots oracle memory
      { settings with allowZeroGain := allow } cost) fun _ => True := fun allow =>
    (rewritePivots_ends demands_existing ⟨hbuilt.wellFormed, hac⟩
      (hfeasible.allow allow)).mono fun _ _ => trivial
  refine (hends false).mono_eq fun r hrun _ => (hends true).mono_eq fun r' hrun' _ => ?_
  exact hreports r r' hrun hrun'

/-- Proposes the conjunction of the leaves, taken from the last one on. -/
def conjoinBackwards : Oracle Unit :=
  .ofFunction fun _ leaves net => .single (Oracle.conjoin leaves.reverse) () net

/-- The two gates of a conjunction can be replaced by two others. -/
theorem zero_gain_only_adds_conjunctionOfThree : ∃ r r',
    conjunctionOfThree.rewritePivots [5] conjoinBackwards () (strictly {}) unitCost = .ok r ∧
    conjunctionOfThree.rewritePivots [5] conjoinBackwards () (loosely {}) unitCost = .ok r' ∧
    r.1.candidates = 0 ∧ r'.1.candidates = 1 ∧ r'.1.substitutions = 1 ∧
    r.1.totalGain = r'.1.totalGain := by
  have hstrict : (conjunctionOfThree.rewritePivots [5] conjoinBackwards () (strictly {})
      unitCost).map (fun r => r.1.candidates) = .ok 0 := by cbv
  have hloose : (conjunctionOfThree.rewritePivots [5] conjoinBackwards () (loosely {})
      unitCost).map (fun r => (r.1.candidates, r.1.substitutions)) = .ok (1, 1) := by cbv
  cases hrun : conjunctionOfThree.rewritePivots [5] conjoinBackwards () (strictly {}) unitCost with
  | error fault =>
    rw [hrun] at hstrict
    cases hstrict
  | ok r =>
    cases hrun' : conjunctionOfThree.rewritePivots [5] conjoinBackwards () (loosely {})
        unitCost with
    | error fault =>
      rw [hrun'] at hloose
      cases hloose
    | ok r' =>
      rw [hrun, map_ok] at hstrict
      rw [hrun', map_ok] at hloose
      obtain ⟨hone, hreplaced⟩ := Prod.mk.inj (Except.ok.inj hloose)
      have hreports := (zero_gain_only_adds conjunctionOfThree (List.nodup_singleton 5)
        conjoinBackwards () {} unitCost).2.1 r r' hrun hrun'
      exact ⟨r, r', rfl, rfl, Except.ok.inj hstrict, hone, hreplaced, hreports.2⟩

end LogicSynthesis.Network
