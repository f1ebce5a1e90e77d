import LogicSynthesis.Equivalence
import LogicSynthesis.Proofs.Simulation.Words

/-!
# Equivalence checking is right

The tables of the outputs say what two networks answer, so comparing them decides equivalence, and
the lowest bit at which two tables differ is the code of the first assignment that tells the outputs
apart. Words only show the answers to the assignments in their lanes: a difference between them is
one between the networks.

## Main definitions

- `Network.Distinguishes` — an assignment on which an output differs
- `Network.Equivalent` — the same interface and the same answers
- `Difference.Holds` — what a report says about two networks

## Main statements

- `compareExhaustively_run`, `compareWords_run` — the two comparisons
- `checkEquivalence_right` — the check reports what holds, and with few inputs it decides
-/

namespace LogicSynthesis

namespace Network

open TruthTable (wordBit)

variable {a b net : Network}

/-! ### First differences -/

section FirstDifference

variable {α : Type} [DecidableEq α] {left right : List α}

theorem firstDifference_eq_none (hlen : left.length = right.length) :
    firstDifference left right = none ↔ left = right := by
  rw [firstDifference, Option.map_eq_none_iff, List.find?_eq_none]
  constructor
  · intro h
    apply List.ext_getElem hlen
    intro i hi hi'
    have hlt : i < (left.zip right).zipIdx.length := by
      rw [List.length_zipIdx, List.length_zip]
      omega
    have hsame := h _ (List.getElem_mem hlt)
    rw [List.getElem_zipIdx, List.getElem_zip] at hsame
    simpa using hsame
  · rintro rfl x hx
    have hpair : x.1 ∈ left.zip left := by
      rw [← List.zipIdx_map_fst 0 (left.zip left)]
      exact List.mem_map_of_mem hx
    have hself : ∀ p ∈ left.zip left, p.1 = p.2 := by
      intro p hp
      obtain ⟨i, hi, rfl⟩ := List.getElem_of_mem hp
      rw [List.getElem_zip]
    simpa using hself _ hpair

/-- The first difference is between the entries of its position, and all entries before it are the
same. -/
theorem firstDifference_eq_some {i : Nat} {x y : α}
    (h : firstDifference left right = some (i, x, y)) :
    left[i]? = some x ∧ right[i]? = some y ∧ x ≠ y ∧ ∀ j < i, left[j]? = right[j]? := by
  obtain ⟨⟨⟨x', y'⟩, i'⟩, hfind, heq⟩ := Option.map_eq_some_iff.mp h
  obtain ⟨hi, hx, hy⟩ : i' = i ∧ x' = x ∧ y' = y := by simpa using heq
  subst hi hx hy
  obtain ⟨hdiffer, k, hk, hentry, hbefore⟩ := List.find?_eq_some_iff_getElem.mp hfind
  rw [List.getElem_zipIdx, List.getElem_zip] at hentry
  obtain ⟨hentries, hindex⟩ := Prod.mk.inj hentry
  obtain ⟨rfl, rfl⟩ := Prod.mk.inj hentries
  obtain rfl : k = i' := (Nat.zero_add k).symm.trans hindex
  rw [List.length_zipIdx, List.length_zip] at hk
  refine ⟨List.getElem?_eq_getElem _, List.getElem?_eq_getElem _, by simpa using hdiffer, ?_⟩
  intro j hj
  have hsame := hbefore j hj
  rw [List.getElem_zipIdx, List.getElem_zip] at hsame
  rw [List.getElem?_eq_getElem (by omega), List.getElem?_eq_getElem (by omega)]
  simpa using hsame

end FirstDifference

/-- The first number below `n` with a property, if there is one. -/
theorem first_of_range {n : Nat} {p : Nat → Bool} (h : ∃ i < n, p i = true) :
    ∃ m < n, ((List.range n).find? p).getD 0 = m ∧ p m = true ∧ ∀ i < m, p i = false := by
  cases hfind : (List.range n).find? p with
  | none =>
    obtain ⟨i, hi, hp⟩ := h
    exact absurd hp (List.find?_eq_none.mp hfind i (List.mem_range.mpr hi))
  | some m =>
    obtain ⟨hp, hm, hbefore⟩ := List.find?_range_eq_some.mp hfind
    exact ⟨m, List.mem_range.mp hm, rfl, hp, fun i hi => by simpa using hbefore i hi⟩

/-! ### What can be told apart -/

/-- Output `i` has different values when the inputs have the given ones. -/
def Distinguishes (a b : Network) (i : Nat) (values : List Bool) : Prop :=
  ∃ x y, (a.response values)[i]? = some x ∧ (b.response values)[i]? = some y ∧ x ≠ y

/-- As many inputs and outputs, and the same outputs on every assignment. -/
structure Equivalent (a b : Network) : Prop where
  inputs : a.numCis = b.numCis
  outputs : a.numCos = b.numCos
  response : ∀ values, values.length = a.numCis → a.response values = b.response values

/-- The first output that differs on any assignment is `i`, and the given assignment is the one of
the least code on which it differs. -/
structure FirstDistinction (a b : Network) (i : Nat) (values : List Bool) : Prop where
  length : values.length = a.numCis
  distinguishes : Distinguishes a b i values
  first : ∀ j < i, ∀ others, others.length = a.numCis → ¬ Distinguishes a b j others
  least : ∀ others, others.length = a.numCis → codeOf others < codeOf values →
    ¬ Distinguishes a b i others

/-- The table gives output `i` on every assignment. -/
def TabulatesOutput (net : Network) (i : Nat) (t : TruthTable) : Prop :=
  ∀ values, values.length = net.numCis → (net.response values)[i]? = some (t.bit (codeOf values))

/-- The tables of the outputs, in their order. -/
structure OutputTables (net : Network) (tables : List TruthTable) : Prop where
  arity : TruthTable.OfArity net.numCis tables
  bits : ∀ values, values.length = net.numCis →
    tables.map (·.bit (codeOf values)) = net.response values

theorem length_response (net : Network) (values : List Bool) :
    (net.response values).length = net.numCos := by
  rw [response, List.length_map, cos, List.length_append, Array.length_toList, Array.length_toList,
    numCos]

theorem length_pattern (k m : Nat) : (pattern k m).length = k := by
  rw [pattern, List.length_map, List.length_range]

theorem codeOf_pattern {k m : Nat} (h : m < 2 ^ k) : codeOf (pattern k m) = m :=
  codeOf_map_testBit h

theorem OutputTables.length {tables : List TruthTable} (h : net.OutputTables tables) :
    tables.length = net.numCos := by
  have hbits := congrArg List.length (h.bits _ (length_pattern net.numCis 0))
  rwa [List.length_map, length_response] at hbits

theorem OutputTables.tabulates {tables : List TruthTable} (h : net.OutputTables tables) {i : Nat}
    {t : TruthTable} (ht : tables[i]? = some t) : net.TabulatesOutput i t := by
  intro values hlen
  rw [← h.bits values hlen, List.getElem?_map, ht]
  rfl

theorem ofArity_of_tabulates {targets : List NodeId} {tables : List TruthTable}
    (h : List.Forall₂ (net.Tabulates net.cis) targets tables) :
    TruthTable.OfArity net.numCis tables := by
  induction h with
  | nil => exact fun _ ht => absurd ht List.not_mem_nil
  | cons ht _ ih =>
    exact List.forall_mem_cons.mpr ⟨⟨ht.canonical, ht.numVars.trans (length_cis net)⟩, ih⟩

/-- Exhaustive simulation has the tables of the outputs. -/
theorem simulateOutputs_run (hnet : net.Built) (hac : net.Acyclic)
    (hfew : net.numCis ≤ maxExhaustiveInputs) :
    ∃ tables, net.simulateOutputs = .ok tables ∧ net.OutputTables tables := by
  have hwf := hnet.wellFormed
  have hinv := hnet.inventory
  have hlen : net.cis.length ≤ TruthTable.maxVars := by
    rw [length_cis]
    exact hfew.trans (by decide)
  have hcos : net.Encloses net.cis (net.cos.map Signal.node) := by
    apply encloses_cis hinv
    intro n hn
    obtain ⟨s, hs, rfl⟩ := List.mem_map.mp hn
    exact hwf.output_lt hs
  obtain ⟨tables, htables, hdrivers⟩ := ends_never_iff.mp (simulateCone_ends hwf hac hlen hcos)
  refine ⟨List.zipWith (fun t s => t.withPolarity s.negated) tables net.cos, ?_, ?_, ?_⟩
  · rw [simulateOutputs, exhaustiveInputs, require_of (decide_eq_true hfew)]
    simp only [ok_bind, pure_eq_ok, htables]
  · intro t ht
    rw [← List.map_uncurry_zip_eq_zipWith] at ht
    obtain ⟨⟨u, s⟩, hus, rfl⟩ := List.mem_map.mp ht
    obtain ⟨hcanonical, hvars⟩ := ofArity_of_tabulates hdrivers u (List.of_mem_zip hus).1
    exact ⟨hcanonical.withPolarity _, (TruthTable.numVars_withPolarity _ _).trans hvars⟩
  · intro values hvalues
    have hcode := codeOf_lt values
    rw [hvalues] at hcode
    rw [map_bit_outputs hac hinv hdrivers hcode, pattern_codeOf hvalues]
    rfl

/-! ### Comparing tables -/

/-- Tables of one arity that differ have a first bit at which they do. -/
theorem first_bit_of_ne {n : Nat} {x y : TruthTable} (hx : x.Canonical ∧ x.numVars = n)
    (hy : y.Canonical ∧ y.numVars = n) (hne : x ≠ y) : ∃ code < 2 ^ n,
      ((List.range (x.xor y).numBits).find? (x.xor y).bit).getD 0 = code ∧
      x.bit code ≠ y.bit code ∧ ∀ m < code, x.bit m = y.bit m := by
  have hvars : x.numVars = y.numVars := hx.2.trans hy.2.symm
  have hbits : (x.xor y).numBits = 2 ^ n := by
    rw [TruthTable.numBits_eq, TruthTable.numVars_xor, hx.2]
  have hbit : ∀ m, (x.xor y).bit m = (x.bit m ^^ y.bit m) :=
    TruthTable.bit_xor hx.1 hy.1 hvars
  have hsome : ∃ m < 2 ^ n, (x.xor y).bit m = true := by
    by_contra hnone
    refine hne (hx.1.ext hy.1 hvars fun m hm => ?_)
    rw [hx.2] at hm
    have hfalse : (x.xor y).bit m ≠ true := fun h => hnone ⟨m, hm, h⟩
    rwa [hbit, ne_eq, Bool.not_eq_true, bne_eq_false_iff_eq] at hfalse
  obtain ⟨code, hlt, hfind, hdiffer, hbefore⟩ := first_of_range hsome
  rw [hbits]
  refine ⟨code, hlt, hfind, ?_, fun m hm => ?_⟩
  · rwa [hbit, bne_iff_ne] at hdiffer
  · have hsame := hbefore m hm
    rwa [hbit, bne_eq_false_iff_eq] at hsame

/-- Tables of the outputs are the same just when the networks answer alike. -/
theorem OutputTables.eq_iff {left right : List TruthTable} (ha : a.OutputTables left)
    (hb : b.OutputTables right) (hcis : a.numCis = b.numCis) (hcos : a.numCos = b.numCos) :
    left = right ↔ a.Equivalent b := by
  constructor
  · rintro rfl
    refine ⟨hcis, hcos, fun values hlen => ?_⟩
    rw [← ha.bits values hlen, hb.bits values (hlen.trans hcis)]
  · intro h
    apply List.ext_getElem (ha.length.trans (hcos.trans hb.length.symm))
    intro i hi hi'
    obtain ⟨hx, hxvars⟩ := ha.arity _ (List.getElem_mem hi)
    obtain ⟨hy, hyvars⟩ := hb.arity _ (List.getElem_mem hi')
    refine hx.ext hy (hxvars.trans (hcis.trans hyvars.symm)) fun m hm => ?_
    rw [hxvars] at hm
    have hlen := length_pattern a.numCis m
    have hleft := ha.tabulates (List.getElem?_eq_getElem hi) _ hlen
    have hright := hb.tabulates (List.getElem?_eq_getElem hi') _ (hlen.trans hcis)
    rw [h.response _ hlen, hright, codeOf_pattern hm] at hleft
    exact (Option.some.inj hleft).symm

/-- The comparison of all tables decides equivalence, and reports the first distinction. -/
theorem compareExhaustively_run (ha : a.Built) (haac : a.Acyclic) (hb : b.Built)
    (hbac : b.Acyclic) (hcis : a.numCis = b.numCis) (hcos : a.numCos = b.numCos)
    (hfew : a.numCis ≤ maxExhaustiveInputs) :
    ∃ result, a.compareExhaustively b = .ok result ∧ (result = none ↔ a.Equivalent b) ∧
      ∀ d, result = some d → ∃ i x y values, d = .onAssignment i x y values ∧
        FirstDistinction a b i values ∧ a.TabulatesOutput i x ∧ b.TabulatesOutput i y := by
  obtain ⟨left, hleft, hl⟩ := simulateOutputs_run ha haac hfew
  obtain ⟨right, hright, hr⟩ := simulateOutputs_run hb hbac (hcis ▸ hfew)
  have hlen : left.length = right.length := hl.length.trans (hcos.trans hr.length.symm)
  rw [compareExhaustively, hleft, ok_bind, hright, ok_bind]
  cases hdiff : firstDifference left right with
  | none =>
    have heq := (firstDifference_eq_none hlen).mp hdiff
    exact ⟨none, rfl, iff_of_true rfl ((hl.eq_iff hr hcis hcos).mp heq), fun _ hd => by cases hd⟩
  | some found =>
    obtain ⟨i, x, y⟩ := found
    obtain ⟨hx, hy, hne, hbefore⟩ := firstDifference_eq_some hdiff
    have hxarity := hl.arity x (List.mem_of_getElem? hx)
    have hyarity := hr.arity y (List.mem_of_getElem? hy)
    rw [← hcis] at hyarity
    have hxtable := hl.tabulates hx
    have hytable := hr.tabulates hy
    obtain ⟨code, hcode, hfind, hdiffer, hleast⟩ := first_bit_of_ne hxarity hyarity hne
    have hchecked := TruthTable.Checked.xor_eq hxarity.1 hyarity.1
      (hxarity.2.trans hyarity.2.symm)
    simp only [hchecked, ok_bind, hfind]
    refine ⟨_, rfl, iff_of_false (by simp) fun h => ?_, ?_⟩
    · exact hne (Option.some.inj (hx.symm.trans
        ((congrArg (·[i]?) ((hl.eq_iff hr hcis hcos).mpr h)).trans hy)))
    rintro d hd
    obtain rfl := Option.some.inj hd
    refine ⟨i, x, y, pattern a.numCis code, rfl, ⟨length_pattern _ _, ?_, ?_, ?_⟩, hxtable,
      hytable⟩
    · have hlen := length_pattern a.numCis code
      refine ⟨x.bit code, y.bit code, ?_, ?_, hdiffer⟩
      · rw [hxtable _ hlen, codeOf_pattern hcode]
      · rw [hytable _ (hlen.trans hcis), codeOf_pattern hcode]
    · rintro j hj others hothers ⟨u, w, hu, hw, huw⟩
      have hsame : (a.response others)[j]? = (b.response others)[j]? := by
        rw [← hl.bits others hothers, ← hr.bits others (hothers.trans hcis), List.getElem?_map,
          List.getElem?_map, hbefore j hj]
      exact huw (Option.some.inj (hu.symm.trans (hsame.trans hw)))
    · rintro others hothers hlt ⟨u, w, hu, hw, huw⟩
      rw [codeOf_pattern hcode] at hlt
      rw [hxtable others hothers] at hu
      rw [hytable others (hothers.trans hcis)] at hw
      exact huw ((Option.some.inj hu).symm.trans ((hleast _ hlt).trans (Option.some.inj hw)))

/-! ### Comparing words -/

/-- Words that differ have a first lane in which they do. -/
theorem first_lane_of_ne {x y : UInt64} (hne : x ≠ y) : ∃ l < 64,
    ((List.range 64).find? (wordBit (x ^^^ y))).getD 0 = l ∧ wordBit x l ≠ wordBit y l := by
  have hsome : ∃ l < 64, wordBit (x ^^^ y) l = true := by
    by_contra hnone
    refine hne (TruthTable.word_ext fun l hl => ?_)
    have hfalse : wordBit (x ^^^ y) l ≠ true := fun h => hnone ⟨l, hl, h⟩
    rwa [TruthTable.wordBit_xor x y hl, ne_eq, Bool.not_eq_true, bne_eq_false_iff_eq] at hfalse
  obtain ⟨l, hl, hfind, hdiffer, -⟩ := first_of_range hsome
  refine ⟨l, hl, hfind, ?_⟩
  rwa [TruthTable.wordBit_xor x y hl, bne_iff_ne] at hdiffer

/-- The comparison of words decides whether the networks answer alike in every lane, and reports a
lane in which they do not. -/
theorem compareWords_run (ha : a.Built) (haac : a.Acyclic) (hb : b.Built) (hbac : b.Acyclic)
    (hcis : a.numCis = b.numCis) (hcos : a.numCos = b.numCos) (round : Nat)
    {words : List UInt64} (hwords : words.length = a.numCis) :
    ∃ result, a.compareWords b round words = .ok result ∧
      (result = none ↔ ∀ l < 64, a.response (lane words l) = b.response (lane words l)) ∧
      ∀ d, result = some d → ∃ i, ∃ l < 64, d = .inRound i round (lane words l) ∧
        Distinguishes a b i (lane words l) := by
  obtain ⟨left, hleft, hl⟩ := simulateWords_run ha haac hwords
  obtain ⟨right, hright, hr⟩ := simulateWords_run hb hbac (hwords.trans hcis)
  have hlen : left.length = right.length := by
    have hllen := congrArg List.length (hl 0 (by decide))
    have hrlen := congrArg List.length (hr 0 (by decide))
    rw [length_lane, length_response] at hllen hrlen
    rw [hllen, hrlen, hcos]
  rw [compareWords, hleft, ok_bind, hright, ok_bind]
  cases hdiff : firstDifference left right with
  | none =>
    obtain rfl := (firstDifference_eq_none hlen).mp hdiff
    refine ⟨none, rfl, iff_of_true rfl fun l hlt => ?_, fun _ hd => by cases hd⟩
    rw [← hl l hlt, hr l hlt]
  | some found =>
    obtain ⟨i, x, y⟩ := found
    obtain ⟨hx, hy, hne, -⟩ := firstDifference_eq_some hdiff
    obtain ⟨l, hlt, hfind, hdiffer⟩ := first_lane_of_ne hne
    have hdistinguishes : Distinguishes a b i (lane words l) := by
      refine ⟨wordBit x l, wordBit y l, ?_, ?_, hdiffer⟩
      · rw [← hl l hlt, lane, List.getElem?_map, hx]
        rfl
      · rw [← hr l hlt, lane, List.getElem?_map, hy]
        rfl
    simp only [hfind]
    refine ⟨_, rfl, iff_of_false (by simp) fun h => ?_, ?_⟩
    · obtain ⟨u, w, hu, hw, huw⟩ := hdistinguishes
      rw [h l hlt] at hu
      exact huw (Option.some.inj (hu.symm.trans hw))
    · rintro d hd
      obtain rfl := Option.some.inj hd
      exact ⟨i, l, hlt, rfl, hdistinguishes⟩

theorem length_words {σ : Type} (source : WordSource σ) (count : Nat) (state : σ) :
    (source.words count state).1.length = count := by
  induction count generalizing state with
  | zero => rfl
  | succ count ih =>
    show (source.words count (source.next state).2).1.length + 1 = count + 1
    rw [ih]

/-- Rounds of words from any source have a result, and only report an output that some assignment
distinguishes. -/
theorem compareRounds_run (ha : a.Built) (haac : a.Acyclic) (hb : b.Built) (hbac : b.Acyclic)
    (hcis : a.numCis = b.numCis) (hcos : a.numCos = b.numCos) {σ : Type} (source : WordSource σ)
    (round rounds : Nat) (state : σ) :
    ∃ result, a.compareRounds b source round rounds state = .ok result ∧
      ∀ d, result = some d → ∃ i r values, d = .inRound i r values ∧
        values.length = a.numCis ∧ Distinguishes a b i values := by
  induction rounds generalizing round state with
  | zero => exact ⟨none, rfl, fun _ hd => by cases hd⟩
  | succ rounds ih =>
    have hlen := length_words source a.numCis state
    obtain ⟨found, hrun, -, hfound⟩ := compareWords_run ha haac hb hbac hcis hcos round hlen
    rw [compareRounds]
    simp only [hrun, ok_bind]
    cases found with
    | none => exact ih (round + 1) _
    | some difference =>
      refine ⟨some difference, rfl, ?_⟩
      rintro d hd
      obtain rfl := Option.some.inj hd
      obtain ⟨i, l, -, rfl, hdistinguishes⟩ := hfound _ rfl
      exact ⟨i, round, _, rfl, (length_lane _ l).trans hlen, hdistinguishes⟩

end Network

/-- What a report says about two networks. The assignment of an exhaustive comparison is the first
distinction, next to the tables of the output in both. That of a random round distinguishes the
output. -/
def Difference.Holds (a b : Network) : Difference → Prop
  | .inputCount left right => left = a.numCis ∧ right = b.numCis ∧ left ≠ right
  | .outputCount left right =>
    a.numCis = b.numCis ∧ left = a.numCos ∧ right = b.numCos ∧ left ≠ right
  | .onAssignment i x y values =>
    a.numCis ≤ maxExhaustiveInputs ∧ Network.FirstDistinction a b i values ∧
      a.TabulatesOutput i x ∧ b.TabulatesOutput i y
  | .inRound i _ values =>
    maxExhaustiveInputs < a.numCis ∧ values.length = a.numCis ∧ Network.Distinguishes a b i values

namespace Network

variable {a b : Network}

/-- For two networks of any bases and any source of words the check has a result, and what it
reports holds. Up to 16 combinational inputs it finds no difference just when the networks are
equivalent. A comparison of any words, one for each input, finds no difference just when the
networks answer alike in all lanes, and reports an output and a lane that distinguishes it. -/
theorem checkEquivalence_right (ha : a.Built) (haac : a.Acyclic) (hb : b.Built)
    (hbac : b.Acyclic) {σ : Type} (source : WordSource σ) (rounds : Nat) (seed : UInt64) :
    (∃ result, a.checkEquivalence b source rounds seed = .ok result ∧
      (a.numCis ≤ maxExhaustiveInputs → (result = none ↔ a.Equivalent b)) ∧
      ∀ d, result = some d → d.Holds a b) ∧
    (a.numCis = b.numCis → a.numCos = b.numCos → ∀ (round : Nat) (words : List UInt64),
      words.length = a.numCis → ∃ result, a.compareWords b round words = .ok result ∧
        (result = none ↔ ∀ l < 64, a.response (lane words l) = b.response (lane words l)) ∧
        ∀ d, result = some d → ∃ i, ∃ l < 64, d = .inRound i round (lane words l) ∧
          Distinguishes a b i (lane words l)) := by
  refine ⟨?_, fun hcis hcos round words => compareWords_run ha haac hb hbac hcis hcos round⟩
  unfold checkEquivalence
  by_cases hcis : a.numCis = b.numCis
  swap
  · rw [if_pos hcis]
    refine ⟨_, rfl, fun _ => iff_of_false (by simp) fun h => hcis h.inputs, ?_⟩
    rintro d hd
    obtain rfl := Option.some.inj hd
    exact ⟨rfl, rfl, hcis⟩
  rw [if_neg (not_not.mpr hcis)]
  by_cases hcos : a.numCos = b.numCos
  swap
  · rw [if_pos hcos]
    refine ⟨_, rfl, fun _ => iff_of_false (by simp) fun h => hcos h.outputs, ?_⟩
    rintro d hd
    obtain rfl := Option.some.inj hd
    exact ⟨hcis, rfl, rfl, hcos⟩
  rw [if_neg (not_not.mpr hcos)]
  by_cases hfew : a.numCis ≤ maxExhaustiveInputs
  · rw [if_pos hfew]
    obtain ⟨result, hrun, hnone, hsome⟩ :=
      compareExhaustively_run ha haac hb hbac hcis hcos hfew
    refine ⟨result, hrun, fun _ => hnone, fun d hd => ?_⟩
    obtain ⟨i, x, y, values, rfl, hfirst, hx, hy⟩ := hsome d hd
    exact ⟨hfew, hfirst, hx, hy⟩
  · rw [if_neg hfew]
    obtain ⟨result, hrun, hsome⟩ :=
      compareRounds_run ha haac hb hbac hcis hcos source 0 rounds (source.ofSeed seed)
    refine ⟨result, hrun, fun h => absurd h hfew, fun d hd => ?_⟩
    obtain ⟨i, r, values, rfl, hlen, hdistinguishes⟩ := hsome d hd
    exact ⟨Nat.lt_of_not_le hfew, hlen, hdistinguishes⟩

/-- The conjunction of two inputs as output, in the form of a majority with the constant. -/
def majorityOutput : Network :=
  let inputs := (new .majorityInverter).addPi.2.addPi.2
  let net := (inputs.appendGate [⟨0, false⟩, ⟨1, false⟩, ⟨2, false⟩] Basis.gateLiteral).2
  { net with
    nodes := countReader net.nodes 3
    pos := #[⟨3, false⟩] }

/-- The first of two inputs as output. -/
def firstInput : Network :=
  let net := (new .andInverter).addPi.2.addPi.2
  { net with
    nodes := countReader net.nodes 1
    pos := #[⟨1, false⟩] }

theorem built_majorityOutput : majorityOutput.Built := by
  have hinputs : (new .majorityInverter).addPi.2.addPi.2.Built := .addPi (.addPi (.new _))
  refine .addPo (.gate hinputs ⟨List.cons_ne_nil _ _, fun _ => rfl, _,
    hinputs.wellFormed.basisFunction _ rfl, rfl⟩
      (createNode_eq_appendGate Std.HashMap.getElem?_empty (by decide)))
        (addPo_eq (s := ⟨3, false⟩) (by decide))

theorem built_firstInput : firstInput.Built :=
  .addPo (.addPi (.addPi (.new _))) (addPo_eq (s := ⟨1, false⟩) (by decide))

theorem acyclic_majorityOutput : majorityOutput.Acyclic := acyclic_of_ordered (by decide)

theorem response_majorityOutput (x y : Bool) : majorityOutput.response [x, y] = [x && y] := by
  have hnode : majorityOutput.nodes[3]? =
      some ⟨.gate, [⟨0, false⟩, ⟨1, false⟩, ⟨2, false⟩], Basis.gateLiteral, 1⟩ := rfl
  have hfanins : [(⟨0, false⟩ : Signal), ⟨1, false⟩, ⟨2, false⟩].map
      (majorityOutput.signalValue (majorityOutput.assign [x, y])) = [false, x, y] := by
    cases x <;> cases y <;> decide
  show [majorityOutput.signalValue _ ⟨3, false⟩] = _
  rw [signalValue, edgeValue, value_of_gate acyclic_majorityOutput hnode rfl,
    (built_majorityOutput.wellFormed.functionOf_eq rfl hnode rfl).1, hfanins, Build.bit_majTable]
  cases x <;> cases y <;> rfl

theorem response_firstInput (x y : Bool) : firstInput.response [x, y] = [x] := by
  cases x <;> cases y <;> decide

/-- Two networks of different bases. Without any input on, both outputs are off. The words show the
difference in the lanes in which only the first input is on, and the lowest of these is reported. -/
theorem checkEquivalence_right_majorityOutput :
    (∃ x y, majorityOutput.checkEquivalence firstInput Random.source 4 1 =
      .ok (some (.onAssignment 0 x y [true, false]))) ∧
    majorityOutput.compareWords firstInput 2 [0xF0, 0x30] =
      .ok (some (.inRound 0 2 [true, false])) ∧
    Distinguishes majorityOutput firstInput 0 [true, false] := by
  have hinput : firstInput.Acyclic := acyclic_of_ordered (by decide)
  obtain ⟨⟨result, hrun, hdecides, hholds⟩, hwords⟩ := checkEquivalence_right built_majorityOutput
    acyclic_majorityOutput built_firstInput hinput Random.source 4 1
  have hcompare : majorityOutput.compareWords firstInput 2 [0xF0, 0x30] =
      .ok (some (.inRound 0 2 [true, false])) := by cbv
  obtain ⟨_, hresult, -, hreport⟩ := hwords rfl rfl 2 [0xF0, 0x30] rfl
  obtain rfl := Except.ok.inj (hcompare.symm.trans hresult)
  obtain ⟨i, l, -, hround, hdistinguishes⟩ := hreport _ rfl
  obtain ⟨rfl, -, hlane⟩ := Difference.inRound.inj hround
  rw [← hlane] at hdistinguishes
  refine ⟨?_, hcompare, hdistinguishes⟩
  have hdifferent : ¬ majorityOutput.Equivalent firstInput := by
    intro h
    have hsame := h.response [true, false] rfl
    rw [response_majorityOutput, response_firstInput] at hsame
    cases hsame
  cases result with
  | none => exact absurd ((hdecides (by decide)).mp rfl) hdifferent
  | some d =>
    have hd := hholds d rfl
    cases d with
    | inputCount left right =>
      obtain ⟨rfl, rfl, hne⟩ := hd
      exact absurd rfl hne
    | outputCount left right =>
      obtain ⟨-, rfl, rfl, hne⟩ := hd
      exact absurd rfl hne
    | inRound i round values => exact absurd hd.1 (by decide)
    | onAssignment i left right values =>
      obtain ⟨-, ⟨hlen, ⟨u, w, hu, hw, huw⟩, -, -⟩, -, -⟩ := hd
      obtain ⟨x, y, rfl⟩ := List.length_eq_two.mp hlen
      rw [response_majorityOutput] at hu
      rw [response_firstInput] at hw
      obtain rfl : i = 0 := by
        have hi := (List.getElem?_eq_some_iff.mp hu).1
        simpa using hi
      obtain rfl := Option.some.inj hu
      obtain rfl := Option.some.inj hw
      cases x <;> cases y <;> simp at huw
      exact ⟨left, right, hrun⟩

end Network

end LogicSynthesis
