import LogicSynthesis.Proofs.Network.Built
import LogicSynthesis.Proofs.Resynthesis.Contract
import LogicSynthesis.Proofs.Resynthesis.Shannon

/-!
# The proposals of the Shannon decomposition

The oracle builds the function once for each variable to split on first, and proposes what is new.
The leaves of a query form the pattern, whatever signals they are, so that each proposal answers the
query. There is a first proposal in any case, and at most as many are made as there are variables
to split on.

## Main definitions

- `Shannon.Proposed` — different signals that realize a function
- `Dialogue.recording` — an asker that puts down what it hears
- `Query.careSet` — the patterns that are no don't-cares

## Main statements

- `proposeSplits_listen`, `answer_listen` — what the asker hears
- `Oracle.shannon_serves` — the oracle keeps to the terms of any number of queries
- `Oracle.shannon_answers` — the proposals of the oracle
-/

namespace LogicSynthesis

open Network TruthTable

namespace Shannon

variable {n : Nat} {net net' : Network} {p : Assignment → Nat} {function care : TruthTable}
  {s : Signal}

/-- Proposals without repetition, each of which realizes the function. -/
structure Proposed (net : Network) (p : Assignment → Nat) (function care : TruthTable)
    (proposals : List Signal) : Prop where
  nodup : proposals.Nodup
  realizes : ∀ s ∈ proposals, Realizes net p function care s

theorem proposed_nil : Proposed net p function care [] :=
  ⟨List.nodup_nil, fun _ hs => absurd hs List.not_mem_nil⟩

theorem Proposed.grow {proposals : List Signal} (h : Proposed net p function care proposals)
    (hnet : net.Proper) (hgrow : net.GrowsTo net') : Proposed net' p function care proposals :=
  ⟨h.nodup, fun s hs => (h.realizes s hs).grow hnet hgrow⟩

theorem Proposed.cons {proposals : List Signal} (h : Proposed net p function care proposals)
    (hs : Realizes net p function care s) (hfresh : s ∉ proposals) :
    Proposed net p function care (s :: proposals) := by
  refine ⟨List.nodup_cons.mpr ⟨hfresh, h.nodup⟩, ?_⟩
  intro s' hs'
  rcases List.mem_cons.mp hs' with rfl | hs'
  · exact hs
  · exact h.realizes s' hs'

end Shannon

/-- An asker that puts down the proposals, the latest first, and decides from them whether it wants
more. -/
def Dialogue.recording (more : List Signal → Signal → Network → Bool) (heard : List Signal)
    (s : Signal) (net : Network) : Except Fault (Bool × List Signal × Network) :=
  .ok (more heard s net, s :: heard, net)

/-- Of one built signal the asker hears that signal. -/
theorem Dialogue.listen_single {build : Build Signal} {net net' : Network} {s : Signal}
    (hrun : build net = .ok (s, net')) (more : List Signal → Signal → Network → Bool) :
    (Dialogue.single build () net).listen (Dialogue.recording more) [] =
      .ok ((), [s], net') := by
  rw [Dialogue.single, hrun]
  rfl

namespace Shannon

variable {n : Nat} {net : Network} {leaves : List Signal} {p : Assignment → Nat}
  {care function : TruthTable} {memo : Memo} {vars : List Nat}
  (more : List Signal → Signal → Network → Bool)

theorem proposeSplits_listen (hnet : net.Proper) (hdriven : Driven net leaves n p)
    (h : OverVars n function care) (hlt : ∀ v ∈ vars, v < n) (hmemo : Remembers net p memo)
    {proposed : List Signal} (hproposed : Proposed net p function care proposed) :
    ∃ proposals net', (proposeSplits leaves function care vars memo proposed net).listen
        (Dialogue.recording more) proposed = .ok ((), proposals, net') ∧ net.GrowsTo net' ∧
      Proposed net' p function care proposals ∧
        proposals.length ≤ proposed.length + vars.length ∧
          (vars ≠ [] ∨ proposed ≠ [] → proposals ≠ []) := by
  -- The memo and the proposals so far stay right while the network grows.
  induction vars generalizing net memo proposed with
  | nil => exact ⟨proposed, net, rfl, .refl, hproposed, Nat.le_refl _, by simp⟩
  | cons v vars ih =>
    obtain ⟨s, memo', net₁, hrun, hgrow₁, hs, hmemo'⟩ :=
      build_grows hnet hdriven h (some v)
        (fun w hw => Option.some.inj hw ▸ hlt v List.mem_cons_self) hmemo
    have hnet₁ := hgrow₁.proper hnet
    have hdriven₁ := hdriven.grow hnet hgrow₁
    have hproposed₁ := hproposed.grow hnet hgrow₁
    have hlt' : ∀ w ∈ vars, w < n := fun w hw => hlt w (List.mem_cons_of_mem v hw)
    rw [proposeSplits, hrun]
    dsimp only
    -- A signal that was proposed before is passed over, and something was heard.
    by_cases hold : proposed.contains s = true
    · rw [if_pos hold]
      obtain ⟨proposals, net', hlisten, hgrow, hproposals, hlen, hne⟩ :=
        ih hnet₁ hdriven₁ hlt' hmemo' hproposed₁
      refine ⟨proposals, net', hlisten, hgrow₁.trans hgrow, hproposals, ?_, ?_⟩
      · exact hlen.trans (Nat.add_le_add_left (Nat.le_succ _) _)
      · exact fun _ => hne (.inr (List.ne_nil_of_mem (List.contains_iff_mem.mp hold)))
    · rw [if_neg hold, Dialogue.listen, Dialogue.recording, ok_bind]
      have hnew := hproposed₁.cons hs fun hmem => hold (List.contains_iff_mem.mpr hmem)
      by_cases hmore : more proposed s net₁ = true
      · obtain ⟨proposals, net', hlisten, hgrow, hproposals, hlen, hne⟩ :=
          ih hnet₁ hdriven₁ hlt' hmemo' hnew
        dsimp only
        rw [if_pos hmore]
        refine ⟨proposals, net', hlisten, hgrow₁.trans hgrow, hproposals, ?_, ?_⟩
        · rw [List.length_cons] at hlen ⊢
          omega
        · exact fun _ => hne (.inr (List.cons_ne_nil _ _))
      · dsimp only
        rw [if_neg hmore]
        refine ⟨s :: proposed, net₁, rfl, hgrow₁, hnew, ?_, fun _ => List.cons_ne_nil _ _⟩
        rw [List.length_cons, List.length_cons]
        omega

/-- A proposal of the one signal that is built. -/
theorem single_eq (hnet : net.Proper) (hdriven : Driven net leaves n p)
    (h : OverVars n function care) :
    ∃ s net', Dialogue.single (Prod.fst <$>
        (build leaves (function.numVars + 1) function care none).run ∅) () net =
      .propose net' s (fun _ net => .finish () net) ∧ net.GrowsTo net' ∧
        Realizes net' p function care s := by
  obtain ⟨s, memo', net', hrun, hgrow, hs, -⟩ :=
    build_grows hnet hdriven h none nofun (remembers_empty net p)
  have hrun' : (Prod.fst <$> (build leaves (function.numVars + 1) function care none).run ∅) net =
      .ok (s, net') := Build.map_run hrun
  refine ⟨s, net', ?_, hgrow, hs⟩
  rw [Dialogue.single, hrun']

/-- Without a variable that matters there is one signal to build. Otherwise there are variables to
split on first, as many as wanted at most. -/
theorem answer_cases (hlen : function.numVars = leaves.length)
    (hsame : function.numVars = care.numVars) (maxCandidates : Nat) (net : Network) :
    answer maxCandidates function care leaves net = .single (Prod.fst <$>
        (build leaves (function.numVars + 1) function care none).run ∅) () net ∨
      ∃ vars, vars ≠ [] ∧ (∀ v ∈ vars, v < function.numVars) ∧
        (maxCandidates ≠ 0 → vars.length ≤ maxCandidates) ∧
          answer maxCandidates function care leaves net =
            proposeSplits leaves function care vars ∅ [] net := by
  rw [answer, if_neg (not_not_intro hlen), if_neg (not_not_intro hsame)]
  have hlt : ∀ v ∈ splitVars function care, v < function.numVars := by
    intro v hv
    exact List.mem_range.mp (List.mem_reverse.mp (List.mem_filter.mp hv).1)
  cases hsplit : splitVars function care with
  | nil => exact .inl rfl
  | cons v vars =>
    rw [hsplit] at hlt
    right
    refine ⟨_, ?_, fun w hw => hlt w (List.mem_of_mem_take hw), ?_, rfl⟩
    · rw [Ne, List.take_eq_nil_iff, not_or]
      refine ⟨?_, List.cons_ne_nil v vars⟩
      split
      · exact Nat.succ_ne_zero _
      · assumption
    · intro hmax
      rw [if_neg hmax, List.length_take]
      exact Nat.min_le_left _ _

theorem answer_listen (hnet : net.Proper) (hdriven : Driven net leaves n p)
    (h : OverVars n function care) (maxCandidates : Nat) :
    ∃ proposals net', (answer maxCandidates function care leaves net).listen
        (Dialogue.recording more) [] = .ok ((), proposals, net') ∧ net.GrowsTo net' ∧
      Proposed net' p function care proposals ∧ proposals ≠ [] ∧
        (maxCandidates ≠ 0 → proposals.length ≤ maxCandidates) := by
  rcases answer_cases (h.on_vars.trans hdriven.length.symm)
    (h.on_vars.trans h.care_vars.symm) maxCandidates net with heq | ⟨vars, hne, hlt, hmax, heq⟩
  · obtain ⟨s, net', hsingle, hgrow, hs⟩ :=
      single_eq hnet hdriven h
    rw [heq, hsingle]
    exact ⟨[s], net', rfl, hgrow, proposed_nil.cons hs List.not_mem_nil, List.cons_ne_nil _ _,
      fun hmax => Nat.one_le_iff_ne_zero.mpr hmax⟩
  · rw [heq]
    obtain ⟨proposals, net', hlisten, hgrow, hproposals, hle, hne'⟩ :=
      proposeSplits_listen more hnet hdriven h
        (fun v hv => h.on_vars ▸ hlt v hv) (remembers_empty net p) proposed_nil
    refine ⟨proposals, net', hlisten, hgrow, hproposals, hne' (.inl hne), ?_⟩
    intro hmax'
    rw [List.length_nil, Nat.zero_add] at hle
    exact hle.trans (hmax hmax')

section Keeps

variable {terms : Oracle.Terms} {q : Query} {fin : Unit → Network → Prop}

theorem proposeSplits_keeps (hnet : net.Proper) (hdriven : Driven net leaves n p)
    (h : OverVars n function care) (hlt : ∀ v ∈ vars, v < n) (hmemo : Remembers net p memo)
    {proposed : List Signal} (hadmits : ∀ net', net.GrowsTo net' → terms.admits net')
    (haccepts : ∀ s net', net.GrowsTo net' → Realizes net' p function care s →
      terms.accepts q net' s)
    (hfin : ∀ net', net.GrowsTo net' → fin () net') :
    (proposeSplits leaves function care vars memo proposed net).Keeps terms q fin net := by
  induction vars generalizing net memo proposed with
  | nil => exact .finish .refl (hadmits net .refl) (hfin net .refl)
  | cons v vars ih =>
    obtain ⟨s, memo', net₁, hrun, hgrow, hs, hmemo'⟩ :=
      build_grows hnet hdriven h (some v)
        (fun w hw => Option.some.inj hw ▸ hlt v List.mem_cons_self) hmemo
    have hnext : ∀ proposed, (proposeSplits leaves function care vars memo' proposed net₁).Keeps
        terms q fin net₁ := fun proposed =>
      ih (hgrow.proper hnet) (hdriven.grow hnet hgrow)
        (fun w hw => hlt w (List.mem_cons_of_mem v hw)) hmemo'
        (fun net' h => hadmits net' (hgrow.trans h))
        (fun s net' h => haccepts s net' (hgrow.trans h)) fun net' h => hfin net' (hgrow.trans h)
    rw [proposeSplits, hrun]
    dsimp only
    split
    · exact (hnext proposed).grow hgrow
    · refine .propose hgrow (hadmits net₁ hgrow) (haccepts s net₁ hgrow hs) fun more => ?_
      cases more with
      | true => exact hnext (s :: proposed)
      | false => exact .finish .refl (hadmits net₁ hgrow) (hfin net₁ hgrow)

theorem answer_keeps (hnet : net.Proper) (hdriven : Driven net leaves n p)
    (h : OverVars n function care) (maxCandidates : Nat)
    (hadmits : ∀ net', net.GrowsTo net' → terms.admits net')
    (haccepts : ∀ s net', net.GrowsTo net' → Realizes net' p function care s →
      terms.accepts q net' s)
    (hfin : ∀ net', net.GrowsTo net' → fin () net') :
    (answer maxCandidates function care leaves net).Keeps terms q fin net := by
  rcases answer_cases (h.on_vars.trans hdriven.length.symm)
    (h.on_vars.trans h.care_vars.symm) maxCandidates net with heq | ⟨vars, -, hlt, -, heq⟩
  · obtain ⟨s, net', hsingle, hgrow, hs⟩ :=
      single_eq hnet hdriven h
    rw [heq, hsingle]
    exact .propose hgrow (hadmits net' hgrow) (haccepts s net' hgrow hs) fun _ =>
      .finish .refl (hadmits net' hgrow) (hfin net' hgrow)
  · rw [heq]
    exact proposeSplits_keeps hnet hdriven h
      (fun v hv => h.on_vars ▸ hlt v hv) (remembers_empty net p) hadmits haccepts hfin

end Keeps

end Shannon

/-! ### The oracle -/

namespace Query

open Shannon

variable {width : Nat} {net net' : Network} {q : Query} {s : Signal}

/-- The patterns on which the decomposition works. -/
def careSet (q : Query) : TruthTable :=
  match q.dontCares with
  | some mask => mask.not
  | none => .one q.function.numVars

theorem Valid.careSet_spec (h : q.Valid width net) :
    OverVars q.leaves.length q.function q.careSet ∧
      ∀ i < 2 ^ q.leaves.length, q.Matters i → q.careSet.bit i = true := by
  unfold careSet
  cases hmask : q.dontCares with
  | some mask =>
    obtain ⟨hcanonical, hvars⟩ := h.mask mask hmask
    refine ⟨⟨h.canonical, hcanonical.not, h.arity, (numVars_not mask).trans hvars⟩, ?_⟩
    intro i hi hmatters
    rw [bit_not hcanonical, hmatters mask hmask, hvars, decide_eq_true hi]
    rfl
  | none =>
    have hle := h.canonical.numVars_le
    refine ⟨⟨h.canonical, canonical_one hle, h.arity, (numVars_one _).trans h.arity⟩, ?_⟩
    intro i hi _
    exact (bit_one _ i).trans (decide_eq_true (h.arity ▸ hi))

theorem pattern_lt (q : Query) (net : Network) (inputs : Assignment) :
    q.pattern net inputs < 2 ^ q.leaves.length := by
  have hlt := codeOf_lt (q.leaves.map (net.signalValue inputs))
  rwa [List.length_map] at hlt

theorem Valid.driven (h : q.Valid width net) :
    Driven net q.leaves q.leaves.length (q.pattern net) := by
  refine ⟨rfl, q.pattern_lt net, ?_⟩
  intro i s hs
  refine ⟨h.exist s (List.mem_of_getElem? hs), ?_⟩
  intro inputs
  rw [pattern, testBit_codeOf, List.getElem?_map, hs]
  rfl

theorem Valid.pattern_eq (h : q.Valid width net) (hnet : net.Proper) (hgrow : net.GrowsTo net')
    (inputs : Assignment) : q.pattern net' inputs = q.pattern net inputs := by
  have hext := hgrow.extends hnet.wellFormed
  rw [pattern, pattern]
  congr 1
  exact List.map_congr_left fun s hs =>
    hext.signalValue_eq hnet.wellFormed hnet.acyclic inputs (h.exist s hs)

/-- What realizes the function on the care set answers the query. -/
theorem Valid.answered (h : q.Valid width net) (hnet : net.Proper) (hgrow : net.GrowsTo net')
    (hs : Realizes net' (q.pattern net) q.function q.careSet s) : q.Answered net' s := by
  refine ⟨hs.lt, ?_⟩
  intro inputs hmatters
  rw [h.pattern_eq hnet hgrow] at hmatters ⊢
  exact hs.value inputs (h.careSet_spec.2 _ (q.pattern_lt net inputs) hmatters)

end Query

namespace Oracle

variable {net : Network} {q : Query}

/-- The decomposition keeps to all terms under which answers to the query are accepted, whatever
the network grows to. -/
theorem shannon_serves {terms : Terms} (maxCandidates : Nat) (hadmits : ∀ net, terms.admits net)
    (haccepts : ∀ q net s, Query.Answered q net s → terms.accepts q net s) (hnet : net.Proper)
    (k : Nat) : (shannon maxCandidates).Serves terms k () net := by
  refine serves_of_invariant (fun _ net => net.Proper) (fun _ _ _ h => h.withScratch) ?_ k hnet
  intro memory net q hnet hq
  apply Shannon.answer_keeps hnet hq.driven hq.careSet_spec.1
  · exact fun net' _ => hadmits net'
  · exact fun s net' hgrow hs => haccepts q net' s (hq.answered hnet hgrow hs)
  · exact fun net' hgrow => hgrow.proper hnet

/-- The decomposition ends with proposals whatever the leaves are and whenever the asker has heard
enough. There is at least one, there are no more than wanted, and none is repeated. All of them
answer the query. -/
theorem shannon_answers (hbuilt : net.Built) (hac : net.Acyclic) (hq : q.Valid maxVars net)
    (maxCandidates : Nat) (more : List Signal → Signal → Network → Bool) :
    ∃ proposals net', ((shannon maxCandidates).answer () q net).listen
        (Dialogue.recording more) [] = .ok ((), proposals, net') ∧ net.GrowsTo net' ∧
      proposals ≠ [] ∧ (maxCandidates ≠ 0 → proposals.length ≤ maxCandidates) ∧
        proposals.Nodup ∧ ∀ s ∈ proposals, q.Answered net' s := by
  have hnet : net.Proper := ⟨hbuilt.wellFormed, hac⟩
  obtain ⟨proposals, net', hlisten, hgrow, hproposals, hne, hlen⟩ :=
    Shannon.answer_listen more hnet hq.driven hq.careSet_spec.1 maxCandidates
  refine ⟨proposals, net', hlisten, hgrow, hne, hlen, hproposals.nodup, ?_⟩
  exact fun s hs => hq.answered hnet hgrow (hproposals.realizes s hs)

/-- A majority of leaves that repeat, on all patterns but two. -/
def majorityQuery : Query :=
  { function := .ofWord 3 0xE8
    leaves := [⟨1, false⟩, ⟨5, true⟩, ⟨1, true⟩]
    dontCares := some (.ofWord 3 0x12) }

theorem shannon_answers_majorityQuery :
    ∃ proposals net', ((shannon 2).answer () majorityQuery conjunctionOfThree).listen
        (Dialogue.recording fun _ _ _ => true) [] = .ok ((), proposals, net') ∧
      conjunctionOfThree.GrowsTo net' ∧ proposals ≠ [] ∧ (2 ≠ 0 → proposals.length ≤ 2) ∧
        proposals.Nodup ∧ ∀ s ∈ proposals, majorityQuery.Answered net' s := by
  have hvalid : majorityQuery.Valid maxVars conjunctionOfThree := by
    refine ⟨canonical_ofWord (by decide) _, numVars_ofWord _ _, by decide, by decide, ?_⟩
    rintro _ ⟨⟩
    exact ⟨canonical_ofWord (by decide) _, numVars_ofWord _ _⟩
  exact shannon_answers built_conjunctionOfThree acyclic_conjunctionOfThree hvalid 2 _

end Oracle

end LogicSynthesis
