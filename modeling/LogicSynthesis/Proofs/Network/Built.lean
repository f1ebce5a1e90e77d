import LogicSynthesis.Proofs.Network.Substitution

/-!
# Networks built by constructors and substitutions

A network is built when it arises from a new one by adding inputs, outputs and gates, entering
functions and substituting signals for gates, in any order. Notes in the scratch state and watchers
may come and go meanwhile. Every such network is well formed, also when a substitution closed a
cycle.

## Main definitions

- `Network.Built` — the networks that can be built
- `Basis.Arranged` — the form in which gates keep their fanins
- `Build.GrowthInvariant` — what arranged gates and functions keep
- `Network.threeInputs`, `Network.conjunctionOfThree`, `Network.conjunctionOutput` — small networks

## Main statements

- `Built.wellFormed` — what can be built is well formed
- `conjunction_eq_ok`, `majority_eq_ok`, `lut_eq_ok` — all that the three gates can do
- `GrowthInvariant.and` and its like — every operator keeps what arranged gates keep
- `growthInvariant_growsTo` — so every operator lets the network grow
-/

namespace LogicSynthesis

namespace Network

/-- The networks that constructors and substitutions make. -/
inductive Built : Network → Prop
  | new (basis : Basis) : Built (.new basis)
  | addPi {net : Network} (former : Built net) : Built net.addPi.2
  | addRo {net : Network} (former : Built net) : Built net.addRo.2
  | addPo {net net' : Network} {s : Signal} {i : Nat} (former : Built net)
      (hadd : net.addPo s = .ok (i, net')) : Built net'
  | addRi {net net' : Network} {s : Signal} {i : Nat} (former : Built net)
      (hadd : net.addRi s = .ok (i, net')) : Built net'
  | gate {net net' : Network} {fanins : List Signal} {literal : Nat} {n : NodeId}
      (former : Built net) (hfits : net.Fits fanins literal)
      (hcreate : net.createNode fanins literal = .ok (n, net')) : Built net'
  | function {net : Network} {t : TruthTable} (former : Built net) (ht : t.Canonical) :
      Built (net.insertFunction t).2
  | substitute {net net' : Network} {old : NodeId} {new : Signal} (former : Built net)
      (hsub : net.substitute old new = .ok net') : Built net'
  | annotate {net : Network} {scratch : Scratch} (former : Built net)
      (hvalues : scratch.values.size = net.size) (hmarks : scratch.marks.size = net.size) :
      Built (net.withScratch scratch)
  | watch {net : Network} (former : Built net) (events : Events) : Built { net with events }

variable {net net' : Network}

theorem Built.wellFormed (h : net.Built) : net.WellFormed := by
  induction h with
  | new basis => exact wellFormed_new basis
  | addPi _ ih => exact ih.addPi
  | addRo _ ih => exact ih.addRo
  | addPo _ hadd ih => exact ih.addOutput (addsOutput_of_addPo hadd)
  | addRi _ hadd ih => exact ih.addOutput (addsOutput_of_addRi hadd)
  | gate _ hfits hcreate ih => exact ih.createNode hfits hcreate
  | function _ ht ih => exact ih.insertFunction ht
  | substitute _ hsub ih =>
    rcases (substitute_spec ih hsub).2 with ⟨-, rfl⟩ | ⟨-, -, -, hwf⟩
    · exact ih
    · exact hwf
  | annotate _ hvalues hmarks ih => exact ih.withScratch hvalues hmarks
  | watch _ events ih => exact ih.withEvents events

theorem GrowsTo.built (h : net.GrowsTo net') (hnet : net.Built) : net'.Built := by
  induction h with
  | refl => exact hnet
  | gate _ hfits hcreate ih => exact .gate ih hfits hcreate
  | function _ ht ih => exact .function ih ht

end Network

/-- The order and the polarities in which the gates of a basis keep their fanins. -/
def Basis.Arranged (basis : Basis) (fanins : List Signal) : Prop :=
  match basis with
  | .andInverter => fanins.Pairwise (·.node < ·.node) ∧ ∀ s ∈ fanins, s.node ≠ 0
  | .majorityInverter => fanins.Pairwise (·.node < ·.node) ∧ fanins.countP Signal.negated ≤ 1
  | .lookupTable => True

namespace Build

open Network

variable {α β : Type} {P : Network → Prop} {net net' : Network}

/-! ### All that gates can do -/

/-- A conjunction is folded, or it is the gate of two fanins. -/
theorem conjunction_eq_ok {a b s : Signal} (h : conjunction a b net = .ok (s, net')) :
    net' = net ∨ ∃ fanins n, fanins.length = 2 ∧ Basis.andInverter.Arranged fanins ∧
      net.createNode fanins Basis.gateLiteral = .ok (n, net') := by
  have hsorted : ∀ a b : Signal, a.le b = true → conjunction a b net = .ok (s, net') →
      net' = net ∨ ∃ fanins n, fanins.length = 2 ∧ Basis.andInverter.Arranged fanins ∧
        net.createNode fanins Basis.gateLiteral = .ok (n, net') := by
    intro a b hab h
    have hle := Signal.node_le_of_le hab
    rw [conjunction_of_le hab] at h
    split_ifs at h with hnode _ hzero
    · exact .inl (Prod.mk.inj (Except.ok.inj h)).2.symm
    · exact .inl (Prod.mk.inj (Except.ok.inj h)).2.symm
    · exact .inl (Prod.mk.inj (Except.ok.inj h)).2.symm
    · exact .inl (Prod.mk.inj (Except.ok.inj h)).2.symm
    · obtain ⟨⟨n, mid⟩, hrun, h⟩ := bind_eq_ok h
      obtain ⟨-, rfl⟩ := Prod.mk.inj (Except.ok.inj h)
      refine .inr ⟨[a, b], n, rfl, ⟨?_, ?_⟩, hrun⟩
      · exact List.pairwise_pair.mpr (lt_of_le_of_ne hle hnode)
      · simp only [List.mem_cons, List.not_mem_nil, or_false, forall_eq_or_imp, forall_eq]
        exact ⟨hzero, fun hb => hzero (Nat.le_zero.mp (hb ▸ hle))⟩
  by_cases hle : a.le b = true
  · exact hsorted a b hle h
  · rw [conjunction_comm] at h
    exact hsorted b a (Signal.le_of_not_le hle) h

theorem distinctMajority_eq_ok {signals : List Signal} {s : Signal} (hlen : signals.length = 3)
    (hsorted : signals.Pairwise (·.node < ·.node))
    (h : distinctMajority signals net = .ok (s, net')) : ∃ fanins n, fanins.length = 3 ∧
      Basis.majorityInverter.Arranged fanins ∧
        net.createNode fanins Basis.gateLiteral = .ok (n, net') := by
  unfold distinctMajority at h
  split at h
  · next hcount =>
    obtain ⟨⟨n, mid⟩, hrun, h⟩ := bind_eq_ok h
    obtain ⟨-, rfl⟩ := Prod.mk.inj (Except.ok.inj h)
    refine ⟨signals.map .negate, n, by rw [List.length_map, hlen], ⟨?_, ?_⟩, hrun⟩
    · exact List.pairwise_map.mpr hsorted
    · have hsplit := signals.length_eq_countP_add_countP Signal.negated
      have hnegate : (signals.map .negate).countP Signal.negated =
          signals.countP fun s => !s.negated := List.countP_map
      simp only [Bool.not_eq_true, Bool.decide_eq_false] at hsplit
      omega
  · obtain ⟨⟨n, mid⟩, hrun, h⟩ := bind_eq_ok h
    obtain ⟨-, rfl⟩ := Prod.mk.inj (Except.ok.inj h)
    exact ⟨signals, n, hlen, ⟨hsorted, by omega⟩, hrun⟩

/-- A majority is folded, or it is the gate of three fanins. -/
theorem majority_eq_ok {a b c s : Signal} (h : majority a b c net = .ok (s, net')) :
    net' = net ∨ ∃ fanins n, fanins.length = 3 ∧ Basis.majorityInverter.Arranged fanins ∧
      net.createNode fanins Basis.gateLiteral = .ok (n, net') := by
  obtain ⟨a', b', c', hsort⟩ := List.length_eq_three.mp (Signal.sort_perm [a, b, c]).length_eq
  have hsorted := Signal.pairwise_sort [a, b, c]
  simp only [hsort, List.pairwise_cons, List.forall_mem_cons] at hsorted
  obtain ⟨⟨hab, -⟩, ⟨hbc, -⟩, -⟩ := hsorted
  simp only [majority, hsort] at h
  split at h
  · exact .inl (Prod.mk.inj (Except.ok.inj h)).2.symm
  split at h
  · exact .inl (Prod.mk.inj (Except.ok.inj h)).2.symm
  split at h
  · exact .inl (Prod.mk.inj (Except.ok.inj h)).2.symm
  · next hnab hnbc _ =>
    have hltab := lt_of_le_of_ne (Signal.node_le_of_le hab) hnab
    have hltbc := lt_of_le_of_ne (Signal.node_le_of_le hbc) hnbc
    refine .inr (distinctMajority_eq_ok rfl ?_ h)
    simp [hltab, hltbc, hltab.trans hltbc]

/-- A lookup table has a fanin for each variable. Without fanins it is a constant, and else the
gate of its fanins and its function. -/
theorem lut_eq_ok {fanins : List Signal} {t : TruthTable} {s : Signal}
    (h : lut fanins t net = .ok (s, net')) : fanins.length = t.numVars ∧
      (net' = net ∨ fanins ≠ [] ∧ ∃ n, (net.insertFunction t).2.createNode fanins
        (net.insertFunction t).1 = .ok (n, net')) := by
  obtain ⟨⟨u, mid⟩, hrun, h⟩ := bind_eq_ok h
  unfold ask at hrun
  cases hcheck : require (fanins.length == t.numVars) .lutArity with
  | error fault =>
    rw [hcheck] at hrun
    cases hrun
  | ok u' =>
    rw [hcheck] at hrun
    obtain ⟨rfl, rfl⟩ := Prod.mk.inj (Except.ok.inj hrun)
    refine ⟨beq_iff_eq.mp (require_eq_ok hcheck), ?_⟩
    cases fanins with
    | nil => exact .inl (Prod.mk.inj (Except.ok.inj h)).2.symm
    | cons a fanins =>
      have hrun : function t net = .ok (net.insertFunction t) := rfl
      obtain ⟨⟨n, last⟩, hcreate, h⟩ := bind_eq_ok ((bind_run hrun).symm.trans h)
      obtain ⟨-, rfl⟩ := Prod.mk.inj (Except.ok.inj h)
      exact .inr ⟨List.cons_ne_nil a fanins, n, hcreate⟩

/-! ### What gates keep -/

/-- Whenever the computation ends, the network has kept the property. -/
def Maintains (P : Network → Prop) (b : Build α) : Prop :=
  ∀ net a net', P net → b net = .ok (a, net') → P net'

theorem maintains_pure (a : α) : Maintains P (pure a) := by
  intro net a' net' hnet h
  obtain ⟨rfl, rfl⟩ := Prod.mk.inj (Except.ok.inj h)
  exact hnet

theorem Maintains.bind {b : Build α} {f : α → Build β} (hb : b.Maintains P)
    (hf : ∀ a, (f a).Maintains P) : (b >>= f).Maintains P := by
  intro net c net' hnet h
  obtain ⟨⟨a, mid⟩, hrun, h⟩ := bind_eq_ok h
  exact hf a mid c net' (hb net a mid hnet hrun) h

/-- A computation that depends on the basis maintains what it does on networks of each basis. -/
theorem maintains_get {f : Network → Build α}
    (h : ∀ net a net', P net → f net net = .ok (a, net') → P net') : Maintains P (get >>= f) := h

/-- A property of well-formed networks that the creation of arranged gates keeps, and the entering
of functions. -/
structure GrowthInvariant (P : Network → Prop) : Prop where
  wellFormed : ∀ {net : Network}, P net → net.WellFormed
  gate : ∀ {net net' : Network} {fanins : List Signal} {literal : Nat} {n : NodeId}, P net →
    net.Fits fanins literal → net.basis.Arranged fanins →
      net.createNode fanins literal = .ok (n, net') → P net'
  function : ∀ {net : Network} {t : TruthTable}, P net → t.Canonical → P (net.insertFunction t).2

/-- Growing is such a property. -/
theorem growthInvariant_growsTo (hwf : net.WellFormed) : GrowthInvariant net.GrowsTo :=
  ⟨fun h => h.wellFormed hwf, fun h hfits _ hcreate => .gate h hfits hcreate,
    fun h ht => .function h ht⟩

namespace GrowthInvariant

theorem of_gate (hP : GrowthInvariant P) (hnet : P net) {fanins : List Signal} {t : TruthTable}
    (ht : net.basis.gateFunction? = some t) (hvars : t.numVars = fanins.length)
    (harranged : net.basis.Arranged fanins) {n : NodeId}
    (h : net.createNode fanins Basis.gateLiteral = .ok (n, net')) : P net' := by
  refine hP.gate hnet ⟨?_, fun _ => rfl, t, (hP.wellFormed hnet).basisFunction t ht, hvars⟩
    harranged h
  rintro rfl
  have hspec := (gateFunction_spec ht).2.1
  rw [hvars] at hspec
  cases hspec

theorem of_conjunction (hP : GrowthInvariant P) (hbasis : net.basis = .andInverter) (hnet : P net)
    {a b s : Signal} (h : conjunction a b net = .ok (s, net')) : P net' := by
  rcases conjunction_eq_ok h with rfl | ⟨fanins, n, hlen, harranged, hcreate⟩
  · exact hnet
  · exact hP.of_gate hnet (by rw [hbasis]; rfl) hlen.symm (hbasis ▸ harranged) hcreate

theorem of_majority (hP : GrowthInvariant P) (hbasis : net.basis = .majorityInverter)
    (hnet : P net) {a b c s : Signal} (h : majority a b c net = .ok (s, net')) : P net' := by
  rcases majority_eq_ok h with rfl | ⟨fanins, n, hlen, harranged, hcreate⟩
  · exact hnet
  · exact hP.of_gate hnet (by rw [hbasis]; rfl) hlen.symm (hbasis ▸ harranged) hcreate

theorem of_lut (hP : GrowthInvariant P) (hbasis : net.basis = .lookupTable) (hnet : P net)
    {fanins : List Signal} {t : TruthTable} (ht : t.Canonical) {s : Signal}
    (h : lut fanins t net = .ok (s, net')) : P net' := by
  obtain ⟨hlen, rfl | ⟨hne, n, hcreate⟩⟩ := lut_eq_ok h
  · exact hnet
  · refine hP.gate (hP.function hnet ht) ⟨hne, ?_, t, ?_, hlen.symm⟩ ?_ hcreate
    · intro hsymmetric
      change net.basis.isSymmetric = true at hsymmetric
      rw [hbasis] at hsymmetric
      cases hsymmetric
    · exact FunctionCache.get?_insert (hP.wellFormed hnet).functions ht
    · change net.basis.Arranged fanins
      rw [hbasis]
      trivial

/-! ### Operators -/

variable {a b c : Signal}

theorem not (hP : GrowthInvariant P) (a : Signal) : (Build.not a).Maintains P := by
  apply maintains_get
  intro net s net' hnet h
  cases hbasis : net.basis <;> simp only [hbasis] at h
  · exact maintains_pure _ net s net' hnet h
  · exact maintains_pure _ net s net' hnet h
  · exact hP.of_lut hbasis hnet (TruthTable.canonical_proj (by decide) 0).not h

theorem and (hP : GrowthInvariant P) (a b : Signal) : (Build.and a b).Maintains P := by
  apply maintains_get
  intro net s net' hnet h
  cases hbasis : net.basis <;> simp only [hbasis] at h
  · exact hP.of_conjunction hbasis hnet h
  · exact hP.of_majority hbasis hnet h
  · exact hP.of_lut hbasis hnet (TruthTable.canonical_ofWord (by decide) _) h

theorem or (hP : GrowthInvariant P) (a b : Signal) : (Build.or a b).Maintains P := by
  apply maintains_get
  intro net s net' hnet h
  cases hbasis : net.basis <;> simp only [hbasis] at h
  · refine Maintains.bind (hP.not a) (fun na => ?_) net s net' hnet h
    refine Maintains.bind (hP.not b) fun nb => ?_
    exact Maintains.bind (hP.and na nb) hP.not
  · exact hP.of_majority hbasis hnet h
  · exact hP.of_lut hbasis hnet (TruthTable.canonical_ofWord (by decide) _) h

theorem xor (hP : GrowthInvariant P) (a b : Signal) : (Build.xor a b).Maintains P := by
  have hgates : Maintains P (do
      let nb ← Build.not b
      let na ← Build.not a
      let left ← Build.and a nb
      let right ← Build.and na b
      Build.or left right) :=
    (hP.not b).bind fun nb => (hP.not a).bind fun na => (hP.and a nb).bind fun left =>
      (hP.and na b).bind fun right => hP.or left right
  apply maintains_get
  intro net s net' hnet h
  cases hbasis : net.basis <;> simp only [hbasis] at h
  · exact hgates net s net' hnet h
  · exact hgates net s net' hnet h
  · exact hP.of_lut hbasis hnet (TruthTable.canonical_ofWord (by decide) _) h

theorem ite (hP : GrowthInvariant P) (a b c : Signal) : (Build.ite a b c).Maintains P := by
  have hgates : Maintains P (do
      let otherwise ← Build.not a
      let left ← Build.and a b
      let right ← Build.and otherwise c
      Build.or left right) :=
    (hP.not a).bind fun otherwise => (hP.and a b).bind fun left =>
      (hP.and otherwise c).bind fun right => hP.or left right
  apply maintains_get
  intro net s net' hnet h
  cases hbasis : net.basis <;> simp only [hbasis] at h
  · exact hgates net s net' hnet h
  · exact hgates net s net' hnet h
  · exact hP.of_lut hbasis hnet (TruthTable.canonical_ofWord (by decide) _) h

theorem maj (hP : GrowthInvariant P) (a b c : Signal) : (Build.maj a b c).Maintains P := by
  apply maintains_get
  intro net s net' hnet h
  cases hbasis : net.basis <;> simp only [hbasis] at h
  · refine Maintains.bind (hP.and a b) (fun both => ?_) net s net' hnet h
    refine Maintains.bind (hP.or a b) fun either => ?_
    exact Maintains.bind (hP.and c either) (hP.or both)
  · exact hP.of_majority hbasis hnet h
  · exact hP.of_lut hbasis hnet (TruthTable.canonical_ofWord (by decide) _) h

end GrowthInvariant

end Build

/-! ### A small network -/

namespace Network

/-- Three inputs. -/
def threeInputs : Network := (Network.new .andInverter).addPi.2.addPi.2.addPi.2

/-- Three inputs and the conjunction of two of them. -/
def innerConjunction : Network :=
  (threeInputs.appendGate [⟨1, false⟩, ⟨2, false⟩] Basis.gateLiteral).2

/-- Three inputs and their conjunction, which two gates form. -/
def conjunctionOfThree : Network :=
  (innerConjunction.appendGate [⟨3, false⟩, ⟨4, false⟩] Basis.gateLiteral).2

/-- Two fanins make a gate of an and-inverter network. -/
theorem Built.fits_pair {net : Network} (h : net.Built) (hbasis : net.basis = .andInverter)
    (a b : Signal) : net.Fits [a, b] Basis.gateLiteral := by
  have hfunction := h.wellFormed.basisFunction
  rw [hbasis] at hfunction
  exact ⟨List.cons_ne_nil _ _, fun _ => rfl, _, hfunction _ rfl, rfl⟩

theorem Built.appendPair {net : Network} (h : net.Built) (hbasis : net.basis = .andInverter)
    {a b : Signal} (hnew : net.index[([a, b], Basis.gateLiteral)]? = none)
    (hlt : ∀ s ∈ [a, b], s.node < net.size) : (net.appendGate [a, b] Basis.gateLiteral).2.Built :=
  .gate h (h.fits_pair hbasis a b) (createNode_eq_appendGate hnew hlt)

theorem built_threeInputs : threeInputs.Built := .addPi (.addPi (.addPi (.new _)))

theorem built_innerConjunction : innerConjunction.Built :=
  built_threeInputs.appendPair rfl (by cbv) (by decide)

theorem built_conjunctionOfThree : conjunctionOfThree.Built :=
  built_innerConjunction.appendPair rfl (by cbv) (by decide)

theorem acyclic_conjunctionOfThree : conjunctionOfThree.Acyclic := acyclic_of_ordered (by decide)

theorem past_conjunctionOfThree : conjunctionOfThree.scratch.Past :=
  Scratch.past_of_forall_mem (by decide)

/-- The conjunction of three inputs as output. -/
def conjunctionOutput : Network :=
  { conjunctionOfThree with
    nodes := countReader conjunctionOfThree.nodes 5
    pos := #[⟨5, false⟩] }

theorem built_conjunctionOutput : conjunctionOutput.Built :=
  .addPo built_conjunctionOfThree (addPo_eq (s := ⟨5, false⟩) (by decide))

theorem acyclic_conjunctionOutput : conjunctionOutput.Acyclic := acyclic_of_ordered (by decide)

end Network

end LogicSynthesis
