import LogicSynthesis.Proofs.Cut.Completeness

/-!
# Faults of cut enumeration

Nothing bounds the width of a cut but the settings, and the function of a cut is a table. So
enumeration stops when the leaves that some cuts of the fanins of a gate have together are few
enough for a cut and too many for a table. It stops for no other reason, as long as the limit on
the number of cuts is within range. And where no limit is hit and cuts are not shrunk, a gate that
depends on so many inputs does stop it.

## Main definitions

- `Network.wideConjunction` — a conjunction of more inputs than a table has variables

## Main statements

- `enumeration_stops_only_when_crowded` — all that can keep enumeration from a result
- `enumerateCuts_ne_ok_of_inputs` — a gate of too many inputs
-/

namespace LogicSynthesis.Network

variable {net : Network} {settings : CutSettings} {sets : CutSets} {n : NodeId}

theorem Crowded.isGate {k : Nat} (h : net.Crowded settings n k) (hwf : net.WellFormed) :
    net.isGate n = true := by
  obtain ⟨leaves, hcard, hfeeds⟩ := h.feeders
  have hne : leaves.Nonempty := Finset.card_pos.mp (hcard ▸ (Nat.zero_le _).trans_lt h.table)
  obtain ⟨m, hreads, -⟩ := Relation.TransGen.head'_iff.mp (hfeeds _ hne.choose_spec).2
  exact hwf.isGate_of_reads hreads

/-- The faults of a crowded node. -/
def CrowdedFault (net : Network) (settings : CutSettings) (fault : Fault) : Prop :=
  ∃ n k, fault = .tooManyVariables k ∧ net.Crowded settings n k

theorem enumerateCuts_ends_or_crowded (hwf : net.WellFormed) (hac : net.Acyclic)
    (hpos : 1 ≤ settings.cutLimit) (hlimit : settings.cutLimit < 2 ^ 62) :
    Ends (net.CrowdedFault settings) (net.enumerateCuts settings) fun _ => True :=
  (enumerateCuts_formed_or_crowded hwf hac (.inl hpos) (.inl hlimit)
    fun n k h => ⟨n, k, rfl, h⟩).mono fun _ _ => trivial

/-- Enumeration has a result, or a table for the leaves of a cut would have too many variables. Then
some gate depends on as many nodes that are no constants. -/
theorem enumeration_stops_only_when_crowded (hbuilt : net.Built) (hac : net.Acyclic)
    (hpos : 1 ≤ settings.cutLimit) (hlimit : settings.cutLimit < 2 ^ 62) :
    (∃ sets, net.enumerateCuts settings = .ok sets) ∨
      ∃ n k, net.enumerateCuts settings = .error (.tooManyVariables k) ∧
        net.isGate n = true ∧ net.Crowded settings n k := by
  have hends := enumerateCuts_ends_or_crowded hbuilt.wellFormed hac hpos hlimit
  cases hrun : net.enumerateCuts settings with
  | ok sets => exact .inl ⟨sets, rfl⟩
  | error fault =>
    rw [hrun] at hends
    obtain ⟨n, k, rfl, hcrowded⟩ := hends
    exact .inr ⟨n, k, rfl, hcrowded.isGate hbuilt.wellFormed, hcrowded⟩

/-- A small network is never crowded, however wide the cuts may be. -/
theorem enumeration_stops_only_when_crowded_conjunctionOfThree :
    ∃ sets, conjunctionOfThree.enumerateCuts { cutSize := 100 } = .ok sets := by
  refine (enumeration_stops_only_when_crowded built_conjunctionOfThree acyclic_conjunctionOfThree
    (by decide) (by decide)).resolve_right ?_
  rintro ⟨n, k, -, -, htable, -, leaves, rfl, hfeeds⟩
  have hsub : leaves ⊆ Finset.range conjunctionOfThree.size := by
    intro l hl
    obtain ⟨m, -, hreads⟩ := Relation.TransGen.tail'_iff.mp (hfeeds l hl).2
    exact Finset.mem_range.mpr (built_conjunctionOfThree.wellFormed.reads_lt hreads)
  have hcard := htable.trans_le (Finset.card_le_card hsub)
  rw [Finset.card_range] at hcard
  exact absurd hcard (by decide)

/-! ### Gates of too many inputs -/

/-- A gate that depends on more inputs than a table has variables, and on few enough for a cut,
keeps an enumeration that hits no limit from its result. -/
theorem enumerateCuts_ne_ok_of_inputs (hwf : net.WellFormed) (hac : net.Acyclic)
    (hminimize : settings.minimize = false) (hlimit : 2 ^ net.size + 1 < settings.cutLimit)
    (hgate : net.isGate n = true) {inputs : Finset NodeId}
    (hinputs : ∀ m, m ∈ inputs ↔ net.isInput m = true ∧ Relation.TransGen net.Reads n m)
    (hwide : TruthTable.maxVars < inputs.card) (hcard : inputs.card ≤ settings.cutSize) :
    net.enumerateCuts settings ≠ .ok sets := by
  intro hrun
  have hseparates : net.Separates inputs n := by
    refine separates_of_region (Relation.ReflTransGen net.Reads n) ?_ ?_ .refl
    · exact fun _ _ hpath _ hreads => hpath.tail hreads
    · intro m hpath hm
      rcases Relation.reflTransGen_iff_eq_or_transGen.mp hpath with rfl | hpath
      · exact isInput_of_isGate hgate
      · rw [← Bool.not_eq_true]
        exact fun hinput => hm ((hinputs m).mpr ⟨hinput, hpath⟩)
  -- The leaves of a cut within the inputs separate, so they are all of the inputs.
  obtain ⟨c, hc, hwithin⟩ := exists_cut_within hwf hac hrun
    (fun _ => length_lt_of_enumerateCuts hwf hac hrun hlimit) hcard (lt_size_of_kindIs hgate)
    hseparates
  have hall : inputs ⊆ c.leaves.toFinset := by
    intro m hm
    obtain ⟨hinput, hpath⟩ := (hinputs m).mp hm
    refine (separates_of_mem_cuts hwf hminimize hrun hc).mem_of_inputs hwf (fun l hl => ?_)
      hpath.to_reflTransGen hinput
    exact ((hinputs l).mp (hwithin l (List.mem_toFinset.mp hl))).1
  have hstored :=
    ((enumerateCuts_formed hwf hac settings.allowed_anything).post_of_eq hrun).1 n c hc
  have hle : inputs.card ≤ TruthTable.maxVars := calc
    inputs.card ≤ c.leaves.toFinset.card := Finset.card_le_card hall
    _ ≤ c.leaves.length := List.toFinset_card_le c.leaves
    _ = c.function.numVars := hstored.sound.arity.symm
    _ ≤ TruthTable.maxVars := hstored.sound.canonical.numVars_le
  exact (hwide.trans_le hle).false

/-! ### A network that is too wide -/

/-- The conjunction of eleven variables. -/
def conjunctionOfEleven : TruthTable := (TruthTable.zero 11).setBit 2047 true

/-- Twenty-one inputs. -/
def manyInputs : Network := Nat.iterate (fun net => net.addPi.2) 21 (new .lookupTable)

/-- The inputs, with the function of the two gates. -/
def wideInputs : Network := (manyInputs.insertFunction conjunctionOfEleven).2

def wideLiteral : Nat := (manyInputs.insertFunction conjunctionOfEleven).1

/-- The conjunction of the last eleven inputs. -/
def innerWideConjunction : Network :=
  (wideInputs.appendGate ((List.range' 12 11).map .ofNode) wideLiteral).2

/-- The conjunction of all inputs: of the first ten and of that of the others. -/
def wideConjunction : Network :=
  (innerWideConjunction.appendGate ((List.range' 2 10 ++ [23]).map .ofNode) wideLiteral).2

theorem canonical_conjunctionOfEleven : conjunctionOfEleven.Canonical :=
  (TruthTable.canonical_zero (by decide)).setBit (by decide) true

theorem built_manyInputs : manyInputs.Built :=
  Function.Iterate.rec Built (.new _) (fun _ former => former.addPi) 21

theorem fits_wideInputs {fanins : List Signal} (hlen : fanins.length = 11) :
    wideInputs.Fits fanins wideLiteral := by
  refine ⟨List.ne_nil_of_length_pos (hlen ▸ by decide), fun h => ?_, conjunctionOfEleven, ?_, ?_⟩
  · cases h
  · exact FunctionCache.get?_insert built_manyInputs.wellFormed.functions
      canonical_conjunctionOfEleven
  · exact (TruthTable.numVars_setBit _ _ _).trans hlen.symm

theorem built_wideConjunction : wideConjunction.Built := by
  have hinputs : wideInputs.Built := built_manyInputs.function canonical_conjunctionOfEleven
  have hinner : innerWideConjunction.Built := by
    refine .gate hinputs (fits_wideInputs rfl) (createNode_eq_appendGate ?_ (by decide))
    exact Std.HashMap.getElem?_empty
  refine .gate hinner ((fits_wideInputs rfl).of_length rfl rfl rfl)
    (createNode_eq_appendGate ?_ (by decide))
  refine Std.HashMap.getElem?_insert.trans ((if_neg (by decide)).trans ?_)
  exact Std.HashMap.getElem?_empty

theorem acyclic_wideConjunction : wideConjunction.Acyclic := acyclic_of_ordered (by decide +kernel)

/-- Cuts of all inputs are allowed, and no limit is hit. -/
def wideSettings : CutSettings := { cutSize := 21, cutLimit := 2 ^ 40, minimize := false }

/-- The outer gate depends on all inputs, on some of them through the inner one. -/
theorem mem_inputs_wideConjunction (m : NodeId) : m ∈ Finset.Icc 2 22 ↔
    wideConjunction.isInput m = true ∧ Relation.TransGen wideConjunction.Reads 24 m := by
  constructor
  · intro hm
    have hreads : ∀ m ∈ Finset.Icc 2 22, wideConjunction.isInput m = true ∧
        (m ∈ wideConjunction.faninNodes 24 ∨
          23 ∈ wideConjunction.faninNodes 24 ∧ m ∈ wideConjunction.faninNodes 23) := by
      decide +kernel
    obtain ⟨hinput, hdirect | ⟨hinner, hm⟩⟩ := hreads m hm
    · exact ⟨hinput, .single hdirect⟩
    · exact ⟨hinput, .head hinner (.single hm)⟩
  · rintro ⟨hinput, -⟩
    have hinputs : ∀ m < wideConjunction.size, wideConjunction.isInput m = true →
        m ∈ Finset.Icc 2 22 := by decide +kernel
    exact hinputs m (lt_size_of_kindIs hinput) hinput

/-- A network and settings within range under which enumeration has no result. -/
theorem enumerateCuts_wideConjunction :
    wideConjunction.Built ∧ wideConjunction.Acyclic ∧ 1 ≤ wideSettings.cutLimit ∧
      wideConjunction.enumerateCuts wideSettings = .error (.tooManyVariables 21) := by
  have hwf := built_wideConjunction.wellFormed
  refine ⟨built_wideConjunction, acyclic_wideConjunction, by decide, ?_⟩
  have hends : Ends (wideConjunction.CrowdedFault wideSettings) _ _ :=
    enumerateCuts_ends_or_crowded hwf acyclic_wideConjunction (by decide) (by decide)
  cases hrun : wideConjunction.enumerateCuts wideSettings with
  | ok sets =>
    exact absurd hrun (enumerateCuts_ne_ok_of_inputs hwf acyclic_wideConjunction rfl
      (by decide +kernel) (by decide +kernel) mem_inputs_wideConjunction (by decide) (by decide))
  | error fault =>
    rw [hrun] at hends
    obtain ⟨n, k, rfl, htable, hcut, -⟩ := hends
    obtain rfl : k = 21 := le_antisymm hcut htable
    rfl

end LogicSynthesis.Network
