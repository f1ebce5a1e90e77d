import LogicSynthesis.DontCares
import LogicSynthesis.Proofs.Network.Built
import LogicSynthesis.Proofs.Window

/-!
# Don't-cares cannot occur

A pattern of the leaves that the table of don't-cares contains is one that the leaves take under
no assignment of the inputs of the network. Where the window consists of inputs, it contains all
such patterns, since every assignment of a window of inputs can happen.

## Main statements

- `producedPatterns_spec` — the patterns that the tables form
- `exists_window_of_dontCares` — what the table holds, in terms of the window
- `dontCares_ends` — no assignment leads to a don't-care
- `dontCares_exact` — over a window of inputs, nothing else is a don't-care
-/

namespace LogicSynthesis.Network

variable {net : Network} {permitted : Fault → Prop}

/-- The patterns that the tables form at the first `k` assignments join those of the start. -/
theorem producedPatterns_spec {tables : List TruthTable} {start : TruthTable}
    (hstart : start.Canonical) (hvars : start.numVars = tables.length) (k : Nat) :
    (producedPatterns k tables start).Canonical ∧
      (producedPatterns k tables start).numVars = tables.length ∧
        ∀ p, (producedPatterns k tables start).bit p = true ↔
          start.bit p = true ∨ ∃ m < k, codeOf (tables.map (·.bit m)) = p := by
  induction k with
  | zero => exact ⟨hstart, hvars, fun p => by simp [producedPatterns]⟩
  | succ k ih =>
    obtain ⟨hcanonical, hn, hbits⟩ := ih
    have hstep : producedPatterns (k + 1) tables start =
        (producedPatterns k tables start).setBit (codeOf (tables.map (·.bit k))) true := by
      rw [producedPatterns, List.range_succ, List.foldl_append]
      rfl
    have hlt := codeOf_lt (tables.map (·.bit k))
    rw [List.length_map, ← hn] at hlt
    rw [hstep]
    refine ⟨hcanonical.setBit hlt true, hn, fun p => ?_⟩
    rw [TruthTable.bit_setBit hcanonical hlt, ite_eq_left_iff, ← or_iff_not_imp_left, hbits,
      or_left_comm]
    refine or_congr_right ?_
    constructor
    · rintro (rfl | ⟨m, hm, hp⟩)
      · exact ⟨k, Nat.lt_succ_self k, rfl⟩
      · exact ⟨m, Nat.lt_succ_of_lt hm, hp⟩
    · rintro ⟨m, hm, hp⟩
      rcases Nat.lt_succ_iff_lt_or_eq.mp hm with hm | rfl
      · exact .inr ⟨m, hm, hp⟩
      · exact .inl hp.symm

/-- The values of the window select the pattern that the leaves form. -/
theorem map_bit_tables {window leaves : List NodeId} {tables : List TruthTable}
    (h : List.Forall₂ (net.Tabulates window) leaves tables) (env : Assignment) :
    tables.map (·.bit (codeOf (window.map (net.value env)))) = leaves.map (net.value env) := by
  induction h with
  | nil => rfl
  | cons ht _ ih => rw [List.map_cons, List.map_cons, ih, ht.bit env]

/-- Different inputs can take any values together. -/
theorem exists_assignment (hac : net.Acyclic) {window : List NodeId} (hnodup : window.Nodup)
    (hinputs : ∀ n ∈ window, net.isInput n = true) {m : Nat} (hm : m < 2 ^ window.length) :
    ∃ env, codeOf (window.map (net.value env)) = m := by
  refine ⟨fun n => m.testBit (window.idxOf n), ?_⟩
  have hvalues : window.map (net.value fun n => m.testBit (window.idxOf n)) =
      (List.range window.length).map m.testBit := by
    apply List.ext_getElem (by simp)
    intro i hi _
    rw [List.length_map] at hi
    rw [List.getElem_map, List.getElem_map, List.getElem_range,
      value_of_input hac (hinputs _ (List.getElem_mem hi)), hnodup.idxOf_getElem]
  rw [hvalues, codeOf_map_testBit hm]

/-- A mask for leaves: a table over the leaves that is false wherever their values may lead. -/
structure IsMask (net : Network) (leaves : List NodeId) (mask : TruthTable) : Prop where
  canonical : mask.Canonical
  numVars : mask.numVars = leaves.length
  never : ∀ env : Assignment, mask.bit (codeOf (leaves.map (net.value env))) = false

/-- The table that comes from tables of the leaves is a mask, and what it leaves out is the patterns
that some assignment of the window makes. -/
theorem isMask_of_tables {window leaves : List NodeId} {tables : List TruthTable}
    (hlen : leaves.length ≤ TruthTable.maxVars)
    (htables : List.Forall₂ (net.Tabulates window) leaves tables) {mask : TruthTable}
    (hmask : mask = (producedPatterns (1 <<< window.length) tables (.zero leaves.length)).not) :
    net.IsMask leaves mask ∧ ∀ p < 2 ^ leaves.length, mask.bit p = true ↔
      ∀ m < 2 ^ window.length, codeOf (tables.map (·.bit m)) ≠ p := by
  have hlength : leaves.length = tables.length := htables.length_eq
  obtain ⟨hcanonical, hn, hbits⟩ := producedPatterns_spec
    (TruthTable.canonical_zero hlen) hlength (1 <<< window.length)
  rw [Nat.one_shiftLeft] at hmask hcanonical hn hbits
  have hmarked : ∀ p < 2 ^ leaves.length, mask.bit p = true ↔
      ∀ m < 2 ^ window.length, codeOf (tables.map (·.bit m)) ≠ p := by
    intro p hp
    rw [hmask, TruthTable.bit_not hcanonical, hn, ← hlength, decide_eq_true hp, Bool.true_and,
      Bool.not_eq_true', ← Bool.not_eq_true, hbits, TruthTable.bit_zero]
    simp
  refine ⟨⟨hmask ▸ hcanonical.not, ?_, fun env => ?_⟩, hmarked⟩
  · rw [hmask, TruthTable.numVars_not, hn, hlength]
  · rw [← Bool.not_eq_true, hmarked _ (net.codeOf_values_lt leaves env)]
    exact fun hnone => hnone _ (net.codeOf_values_lt window env)
      (congrArg codeOf (map_bit_tables htables env))

/-- A table of don't-cares that was found is a mask, whatever the marks were. What it leaves out is
the patterns that some assignment of the window makes. -/
theorem exists_window_of_dontCares (hwf : net.WellFormed) (hac : net.Acyclic)
    {leaves : List NodeId} {maxInputs : Nat} {mask : TruthTable} {net' : Network}
    (h : net.dontCares leaves maxInputs = .ok (mask, net')) :
    ∃ window scratch tables,
      net.window leaves { cutSize := max maxInputs leaves.length } = .ok (window, net') ∧
      net' = net.withScratch scratch ∧ Walking net.scratch (window, scratch) ∧
      List.Forall₂ (net.Tabulates window) leaves tables ∧ net.IsMask leaves mask ∧
      ∀ p < 2 ^ leaves.length, mask.bit p = true ↔
        ∀ m < 2 ^ window.length, codeOf (tables.map (·.bit m)) ≠ p := by
  obtain ⟨⟨window, _⟩, hwindow, h⟩ := bind_eq_ok h
  obtain ⟨scratch, rfl, hwalking⟩ := walking_of_window hwindow
  obtain ⟨tables, hsimulate, h⟩ := bind_eq_ok h
  obtain ⟨_, hnone, h⟩ := bind_eq_ok h
  obtain ⟨hmask, rfl⟩ := Prod.mk.inj (Except.ok.inj h)
  obtain ⟨_, hfew, hzero⟩ := bind_eq_ok hnone
  obtain rfl := Except.ok.inj hzero
  have hwalked := hwalking.walked
  have hwf' : (net.withScratch scratch).WellFormed := by
    refine hwf.withScratch ?_ (hwalked.size.trans hwf.marks)
    rw [hwalked.values]
    exact hwf.values
  have htables : List.Forall₂ (net.Tabulates window) leaves tables := by
    have hac' : (net.withScratch scratch).Acyclic := hac
    refine (tabulates_of_simulateCone hwf' hac' hsimulate).imp fun n t ht =>
      ⟨ht.canonical, ht.numVars, fun env => ?_⟩
    have hbit := ht.bit env
    rwa [value_withScratch] at hbit
  have hspec := isMask_of_tables (of_decide_eq_true (require_eq_ok hfew)) htables hmask.symm
  exact ⟨window, scratch, tables, hwindow, rfl, hwalking, htables, hspec.1, hspec.2⟩

/-- No assignment leads to a don't-care. Don't-cares are found for up to 20 leaves and window
inputs. -/
theorem dontCares_ends (hwf : net.WellFormed) (hac : net.Acyclic)
    (hwalk : net.scratch.CanWalk permitted 1) {leaves : List NodeId} (hne : leaves ≠ [])
    (hexist : ∀ n ∈ leaves, n < net.size) {maxInputs : Nat}
    (hbound : max maxInputs leaves.length ≤ TruthTable.maxVars) :
    Ends permitted (net.dontCares leaves maxInputs) fun r => net.IsMask leaves r.1 ∧
      ∃ scratch, net.scratch.Walked scratch ∧ scratch.walk = net.scratch.walk + 1 ∧
        r.2 = net.withScratch scratch := by
  have hends : Ends permitted (net.dontCares leaves maxInputs) fun _ => True := by
    rcases hwalk.past with hpast | hall
    swap
    · exact .of_forall hall fun _ _ => trivial
    have hlen : leaves.length ≤ TruthTable.maxVars := (Nat.le_max_right _ _).trans hbound
    have hcard : leaves.toFinset.card ≤ max maxInputs leaves.length :=
      (List.toFinset_card_le leaves).trans (Nat.le_max_right _ _)
    refine (window_ends hwf hpast hwalk.room hne hexist hcard
      (hbound.trans_lt (by decide))).bind ?_
    rintro ⟨window, _⟩ ⟨scratch, rfl, hencloses, hsmall, -, hwalked, -, -, -⟩
    have hwf' : (net.withScratch scratch).WellFormed := by
      refine hwf.withScratch ?_ (hwalked.size.trans hwf.marks)
      rw [hwalked.values]
      exact hwf.values
    have hac' : (net.withScratch scratch).Acyclic := hac
    have hencloses' : (net.withScratch scratch).Encloses window leaves :=
      ⟨hencloses.window_lt, hencloses.target_lt, hencloses.region⟩
    refine (simulateCone_ends hwf' hac' (hsmall.trans hbound) hencloses').bind fun tables _ => ?_
    rw [TruthTable.Checked.const0_eq hlen, ok_bind]
    trivial
  refine hends.mono_eq fun r hrun _ => ?_
  obtain ⟨_, scratch, _, -, hnet', hwalking, -, hmask, -⟩ :=
    exists_window_of_dontCares hwf hac hrun
  exact ⟨hmask, scratch, hwalking.walked, hwalking.walk, hnet'⟩

/-- Where the window consists of inputs, the patterns that no assignment leads to are marked. -/
theorem dontCares_exact (hac : net.Acyclic) {window leaves : List NodeId}
    {tables : List TruthTable} (htables : List.Forall₂ (net.Tabulates window) leaves tables)
    (hnodup : window.Nodup) (hinputs : ∀ n ∈ window, net.isInput n = true) (p : Nat) :
    (∀ m < 2 ^ window.length, codeOf (tables.map (·.bit m)) ≠ p) ↔
      ∀ env, codeOf (leaves.map (net.value env)) ≠ p := by
  constructor
  · intro h env
    rw [← map_bit_tables htables env]
    exact h _ (net.codeOf_values_lt window env)
  · intro h m hm
    obtain ⟨env, rfl⟩ := exists_assignment hac hnodup hinputs hm
    rw [map_bit_tables htables env]
    exact h env

/-- Don't-cares are found in every acyclic network, for up to 20 leaves and window inputs, and the
logic and the values of nodes stay as they are. No pattern is marked that some assignment of the
inputs leads to, and if the window consists of inputs, all others are marked. -/
theorem dontCares_never_occur (hnet : net.Built) (hac : net.Acyclic) (hpast : net.scratch.Past)
    (hwalk : net.scratch.walk + 1 < 2 ^ 32) {leaves : List NodeId} (hne : leaves ≠ [])
    (hexist : ∀ n ∈ leaves, n < net.size) {maxInputs : Nat}
    (hbound : max maxInputs leaves.length ≤ TruthTable.maxVars) :
    ∃ window mask scratch,
      net.window leaves { cutSize := max maxInputs leaves.length } =
        .ok (window, net.withScratch scratch) ∧
      net.dontCares leaves maxInputs = .ok (mask, net.withScratch scratch) ∧
      scratch.values = net.scratch.values ∧ mask.numVars = leaves.length ∧
      (∀ env, mask.bit (codeOf (leaves.map (net.value env))) = false) ∧
      ((∀ n ∈ window, net.isInput n = true) → ∀ p < 2 ^ leaves.length,
        mask.bit p = true ↔ ∀ env, codeOf (leaves.map (net.value env)) ≠ p) := by
  have hcan : net.scratch.CanWalk Never 1 := ⟨.inl hpast, .inl hwalk⟩
  obtain ⟨⟨mask, _⟩, hrun, -⟩ :=
    ends_never_iff.mp (dontCares_ends hnet.wellFormed hac hcan hne hexist hbound)
  obtain ⟨window, scratch, tables, hwindow, rfl, hwalking, htables, hmask, hbits⟩ :=
    exists_window_of_dontCares hnet.wellFormed hac hrun
  refine ⟨window, mask, scratch, hwindow, hrun, hwalking.walked.values, hmask.numVars, hmask.never,
    fun hinputs p hp => ?_⟩
  rw [hbits p hp, dontCares_exact hac htables hwalking.distinct.nodup hinputs]

/-- The gate gives way to its second fanin, since its first one is a leaf already. -/
theorem window_conjunctionOfThree : ∃ scratch, conjunctionOfThree.window [1, 4] { cutSize := 16 } =
    .ok ([1, 2], conjunctionOfThree.withScratch scratch) := by
  let marked := (conjunctionOfThree.scratch.nextWalk.visit 1).visit 4
  have hpivots : (conjunctionOfThree.scratch.beginWalk >>= fun start =>
      [1, 4].foldlM addPivot ([], start)) = .ok ([1, 4], marked) := by decide
  have hfirst : (conjunctionOfThree.withScratch {}).sortLeaves marked [1, 4] = [4, 1] := by cbv
  have hsecond : (conjunctionOfThree.withScratch {}).sortLeaves (marked.visit 2) [1, 2] =
      [1, 2] := by cbv
  have hgrow : (conjunctionOfThree.withScratch {}).growWindow 16 ([1, 4], marked) =
      .ok ([1, 2], marked.visit 2) := by
    rw [growWindow_of_sortLeaves (by decide) hfirst, if_neg (by decide)]
    exact (growWindow_of_sortLeaves (by decide) hsecond).trans (if_pos (by decide))
  refine ⟨marked.visit 2, ?_⟩
  rw [window_eq (by decide) (by decide), ← bind_assoc, hpivots, ok_bind, hgrow]
  rfl

/-- The don't-cares of an input and a gate that reads it. The window consists of two inputs. -/
theorem dontCares_conjunctionOfThree : ∃ mask scratch,
    conjunctionOfThree.window [1, 4] { cutSize := 16 } =
      .ok ([1, 2], conjunctionOfThree.withScratch scratch) ∧
    conjunctionOfThree.dontCares [1, 4] 16 = .ok (mask, conjunctionOfThree.withScratch scratch) ∧
    (∀ env, mask.bit (codeOf ([1, 4].map (conjunctionOfThree.value env))) = false) ∧
    ∀ p < 4, mask.bit p = true ↔
      ∀ env, codeOf ([1, 4].map (conjunctionOfThree.value env)) ≠ p := by
  obtain ⟨window, mask, scratch, hwindow, hrun, -, -, hnever, hexact⟩ :=
    @dontCares_never_occur conjunctionOfThree built_conjunctionOfThree acyclic_conjunctionOfThree
      past_conjunctionOfThree (by decide) [1, 4] (by decide) (by decide) 16 (by decide)
  obtain ⟨_, hinputs⟩ := window_conjunctionOfThree
  obtain ⟨rfl, -⟩ := Prod.mk.inj (Except.ok.inj (hwindow.symm.trans hinputs))
  exact ⟨mask, scratch, hwindow, hrun, hnever, hexact (by decide)⟩

end LogicSynthesis.Network
