import LogicSynthesis.Proofs.Network.Built

/-!
# Networks assembled by operations

What a user of a network can do is to add inputs, outputs and gates, to copy a gate of another
network, and to replace gates. A network that arises from a new one in this way, with any
annotations and watchers in between, is assembled. The signals of a lookup-table network are plain
nodes, and so are its edges.

## Main definitions

- `Basis.Admits` — the signals of a network over a basis
- `Operator` — a gate constructor with its operands
- `Network.Constructs`, `Network.Edits` — one construction, and one operation of any kind
- `Network.Assembled` — the networks that operations make
- `Network.Constructed` — those that no substitution changed

## Main statements

- `Assembled.built` — what is assembled is built
- `Assembled.admits` — every edge of an assembled network is a signal of its basis
-/

namespace LogicSynthesis

open Network

/-- The signals of a network over the basis. A lookup table reads plain nodes. -/
def Basis.Admits (basis : Basis) (s : Signal) : Prop := basis = .lookupTable → s.negated = false

/-- A gate constructor with its operands. -/
inductive Operator where
  | not (a : Signal)
  | and (a b : Signal)
  | or (a b : Signal)
  | xor (a b : Signal)
  | ite (condition thenPart elsePart : Signal)
  | maj (a b c : Signal)
  | lut (fanins : List Signal) (t : TruthTable)

namespace Operator

def operands : Operator → List Signal
  | not a => [a]
  | and a b | or a b | xor a b => [a, b]
  | ite a b c | maj a b c => [a, b, c]
  | lut fanins _ => fanins

def build : Operator → Build Signal
  | not a => Build.not a
  | and a b => Build.and a b
  | or a b => Build.or a b
  | xor a b => Build.xor a b
  | ite a b c => Build.ite a b c
  | maj a b c => Build.maj a b c
  | lut fanins t => Build.lut fanins t

/-- The operands are signals of the basis. Tables of free choice belong to one basis only. -/
structure Available (op : Operator) (basis : Basis) : Prop where
  operands : ∀ s ∈ op.operands, basis.Admits s
  table : ∀ fanins t, op = .lut fanins t → basis = .lookupTable ∧ t.Canonical

variable {op : Operator} {net net' : Network} {s : Signal}

/-- Operators keep what arranged gates keep. -/
theorem Available.maintains {P : Network → Prop} (hop : op.Available net.basis)
    (hP : Build.GrowthInvariant P) (hnet : P net) (h : op.build net = .ok (s, net')) : P net' := by
  cases op with
  | not a => exact hP.not a net s net' hnet h
  | and a b => exact hP.and a b net s net' hnet h
  | or a b => exact hP.or a b net s net' hnet h
  | xor a b => exact hP.xor a b net s net' hnet h
  | ite a b c => exact hP.ite a b c net s net' hnet h
  | maj a b c => exact hP.maj a b c net s net' hnet h
  | lut fanins t =>
    obtain ⟨hbasis, ht⟩ := hop.table fanins t rfl
    exact hP.of_lut hbasis hnet ht h

theorem Available.grows (hop : op.Available net.basis) (hwf : net.WellFormed)
    (h : op.build net = .ok (s, net')) : net.GrowsTo net' :=
  hop.maintains (Build.growthInvariant_growsTo hwf) .refl h

/-- Over lookup tables every operator is one table over its operands. -/
theorem exists_lut (op : Operator) (hbasis : net.basis = .lookupTable) :
    ∃ t, op.build net = Build.lut op.operands t net := by
  cases op with
  | lut fanins t => exact ⟨t, rfl⟩
  | _ =>
    simp only [build, Build.not, Build.and, Build.or, Build.xor, Build.ite, Build.maj,
      Build.get_run, hbasis]
    exact ⟨_, rfl⟩

end Operator

namespace Build

variable {model net net' : Network} {source : NodeId} {fanins : List Signal} {s : Signal}

/-- A copy of a conjunction is the conjunction of its two new fanins. -/
theorem cloneNode_andInverter (hbasis : net.basis = .andInverter)
    (h : cloneNode model source fanins net = .ok (s, net')) :
    ∃ a b, fanins = [a, b] ∧ conjunction a b net = .ok (s, net') := by
  rw [cloneNode, get_run] at h
  simp only [hbasis] at h
  match fanins, h with
  | [a, b], h =>
    change Build.and a b net = _ at h
    rw [Build.and, get_run] at h
    simp only [hbasis] at h
    exact ⟨a, b, rfl, h⟩

/-- A copy of a majority is the majority of its three new fanins. -/
theorem cloneNode_majorityInverter (hbasis : net.basis = .majorityInverter)
    (h : cloneNode model source fanins net = .ok (s, net')) :
    ∃ a b c, fanins = [a, b, c] ∧ majority a b c net = .ok (s, net') := by
  rw [cloneNode, get_run] at h
  simp only [hbasis] at h
  match fanins, h with
  | [a, b, c], h =>
    change maj a b c net = _ at h
    rw [maj, get_run] at h
    simp only [hbasis] at h
    exact ⟨a, b, c, rfl, h⟩

/-- A copy of a lookup table is the table over its new fanins. -/
theorem cloneNode_lookupTable (hbasis : net.basis = .lookupTable)
    (h : cloneNode model source fanins net = .ok (s, net')) :
    ∃ t, model.nodeFunction source = .ok t ∧ lut fanins t net = .ok (s, net') := by
  rw [cloneNode, get_run] at h
  simp only [hbasis] at h
  obtain ⟨⟨t, mid⟩, hask, h⟩ := bind_eq_ok h
  unfold ask at hask
  cases hfunction : model.nodeFunction source with
  | error fault =>
    rw [hfunction] at hask
    cases hask
  | ok t' =>
    rw [hfunction] at hask
    obtain ⟨rfl, rfl⟩ := Prod.mk.inj (Except.ok.inj hask)
    exact ⟨t', rfl, h⟩

theorem canonical_of_nodeFunction (hmodel : model.WellFormed) {t : TruthTable}
    (h : model.nodeFunction source = .ok t) : t.Canonical := by
  obtain ⟨node, -, h⟩ := bind_eq_ok h
  exact hmodel.functions.canonical_of_get? (FunctionCache.get_eq_ok.mp h)

/-- Copies of gates keep what arranged gates keep. -/
theorem GrowthInvariant.of_cloneNode {P : Network → Prop} (hP : GrowthInvariant P)
    (hmodel : model.WellFormed) (hnet : P net)
    (h : cloneNode model source fanins net = .ok (s, net')) : P net' := by
  cases hbasis : net.basis with
  | andInverter =>
    obtain ⟨a, b, -, hrun⟩ := cloneNode_andInverter hbasis h
    exact hP.of_conjunction hbasis hnet hrun
  | majorityInverter =>
    obtain ⟨a, b, c, -, hrun⟩ := cloneNode_majorityInverter hbasis h
    exact hP.of_majority hbasis hnet hrun
  | lookupTable =>
    obtain ⟨t, hfunction, hlut⟩ := cloneNode_lookupTable hbasis h
    exact hP.of_lut hbasis hnet (canonical_of_nodeFunction hmodel hfunction) hlut

theorem grows_of_cloneNode (hmodel : model.WellFormed) (hwf : net.WellFormed)
    (h : cloneNode model source fanins net = .ok (s, net')) : net.GrowsTo net' :=
  (growthInvariant_growsTo hwf).of_cloneNode hmodel .refl h

end Build

namespace Network

/-- One construction: an input, an output, a gate, or a copy of a gate of another network. -/
inductive Constructs (net : Network) : Network → Prop
  | pi : Constructs net net.addPi.2
  | ro : Constructs net net.addRo.2
  | po {s : Signal} {i : Nat} {net' : Network} (hs : net.basis.Admits s)
      (hadd : net.addPo s = .ok (i, net')) : Constructs net net'
  | ri {s : Signal} {i : Nat} {net' : Network} (hs : net.basis.Admits s)
      (hadd : net.addRi s = .ok (i, net')) : Constructs net net'
  | operator {op : Operator} {s : Signal} {net' : Network} (hop : op.Available net.basis)
      (hrun : op.build net = .ok (s, net')) : Constructs net net'
  | clone {model : Network} {source : NodeId} {fanins : List Signal} {s : Signal} {net' : Network}
      (hmodel : model.WellFormed) (hbasis : model.basis = net.basis)
      (hfanins : ∀ s ∈ fanins, net.basis.Admits s)
      (hrun : Build.cloneNode model source fanins net = .ok (s, net')) : Constructs net net'

/-- One operation: a construction, a substitution, or a change of annotations or watchers. -/
inductive Edits (net : Network) : Network → Prop
  | construct {net' : Network} (h : net.Constructs net') : Edits net net'
  | substitute {old : NodeId} {new : Signal} {net' : Network} (hnew : net.basis.Admits new)
      (hsub : net.substitute old new = .ok net') : Edits net net'
  | annotate {scratch : Scratch} (hvalues : scratch.values.size = net.size)
      (hmarks : scratch.marks.size = net.size) : Edits net (net.withScratch scratch)
  | watch (events : Events) : Edits net { net with events }

/-- The networks that operations make. -/
inductive Assembled : Network → Prop
  | new (basis : Basis) : Assembled (.new basis)
  | edit {net net' : Network} (former : Assembled net) (hedit : net.Edits net') : Assembled net'

/-- The networks that constructions make, with any annotations and watchers in between. -/
inductive Constructed : Network → Prop
  | new (basis : Basis) : Constructed (.new basis)
  | construct {net net' : Network} (former : Constructed net) (h : net.Constructs net') :
      Constructed net'
  | annotate {net : Network} {scratch : Scratch} (former : Constructed net)
      (hvalues : scratch.values.size = net.size) (hmarks : scratch.marks.size = net.size) :
      Constructed (net.withScratch scratch)
  | watch {net : Network} (former : Constructed net) (events : Events) :
      Constructed { net with events }

variable {net net' : Network}

theorem Constructs.built (h : net.Constructs net') (hnet : net.Built) : net'.Built := by
  cases h with
  | pi => exact .addPi hnet
  | ro => exact .addRo hnet
  | po _ hadd => exact .addPo hnet hadd
  | ri _ hadd => exact .addRi hnet hadd
  | operator hop hrun => exact (hop.grows hnet.wellFormed hrun).built hnet
  | clone hmodel _ _ hrun =>
    exact (Build.grows_of_cloneNode hmodel hnet.wellFormed hrun).built hnet

theorem Edits.built (h : net.Edits net') (hnet : net.Built) : net'.Built := by
  cases h with
  | construct h => exact h.built hnet
  | substitute _ hsub => exact .substitute hnet hsub
  | annotate hvalues hmarks => exact .annotate hnet hvalues hmarks
  | watch events => exact .watch hnet events

theorem Assembled.built (h : net.Assembled) : net.Built := by
  induction h with
  | new basis => exact .new basis
  | edit _ hedit ih => exact hedit.built ih

theorem Assembled.construct (h : net.Assembled) (hconstruct : net.Constructs net') :
    net'.Assembled := h.edit (.construct hconstruct)

theorem Constructed.assembled (h : net.Constructed) : net.Assembled := by
  induction h with
  | new basis => exact .new basis
  | construct _ h ih => exact ih.construct h
  | annotate _ hvalues hmarks ih => exact ih.edit (.annotate hvalues hmarks)
  | watch _ events ih => exact ih.edit (.watch events)

/-! ### Edges of lookup tables -/

/-- Every edge is a signal of the basis. -/
def AdmitsEdges (net : Network) : Prop := ∀ s ∈ net.edges, net.basis.Admits s

theorem admitsEdges_of_basis (h : net.basis ≠ .lookupTable) : net.AdmitsEdges :=
  fun _ _ hbasis => absurd hbasis h

theorem AdmitsEdges.of_perm (h : net.AdmitsEdges) {added : List Signal}
    (hbasis : net'.basis = net.basis) (hedges : net'.edges.Perm (net.edges ++ added))
    (hadded : ∀ s ∈ added, net.basis.Admits s) : net'.AdmitsEdges := by
  intro s hs
  rw [hbasis]
  rw [hedges.mem_iff, List.mem_append] at hs
  exact hs.elim (h s) (hadded s)

theorem AdmitsEdges.addOutput (h : net.AdmitsEdges) {s : Signal} (hadd : net.AddsOutput s net')
    (hs : net.basis.Admits s) : net'.AdmitsEdges :=
  h.of_perm hadd.basis hadd.edges (List.forall_mem_singleton.mpr hs)

theorem edges_appendGate (net : Network) (fanins : List Signal) (literal : Nat) :
    (net.appendGate fanins literal).2.edges.Perm (net.edges ++ fanins) :=
  @edges_push net _ { kind := .gate, fanins, function := literal, fanout := 0 } rfl rfl

/-- Creating a gate brings in no edges but its fanins. -/
theorem AdmitsEdges.createNode (h : net.AdmitsEdges) {fanins : List Signal}
    (hfanins : ∀ s ∈ fanins, net.basis.Admits s) {literal : Nat} {n : NodeId}
    (hcreate : net.createNode fanins literal = .ok (n, net')) : net'.AdmitsEdges := by
  rcases createNode_eq_ok hcreate with ⟨-, rfl⟩ | ⟨-, rfl, -⟩
  · exact h
  · exact h.of_perm rfl (edges_appendGate net fanins literal) hfanins

/-- A lookup table reads its fanins and nothing else. -/
theorem AdmitsEdges.lut (h : net.AdmitsEdges) {fanins : List Signal}
    (hfanins : ∀ s ∈ fanins, net.basis.Admits s) {t : TruthTable} {s : Signal}
    (hrun : Build.lut fanins t net = .ok (s, net')) : net'.AdmitsEdges := by
  obtain ⟨-, rfl | ⟨-, n, hcreate⟩⟩ := Build.lut_eq_ok hrun
  · exact h
  · have hentered : (net.insertFunction t).2.AdmitsEdges := h
    exact hentered.createNode hfanins hcreate

theorem AdmitsEdges.substitute (h : net.AdmitsEdges) {old : NodeId} {new : Signal}
    (hnew : net.basis.Admits new) (hsub : Substituted net old new net') : net'.AdmitsEdges := by
  intro s hs
  rw [hsub.basis]
  rcases hsub.mem_edges hs with hs | ⟨s', hs', rfl⟩
  · exact h s (mem_edges_iff.mpr (.inl ⟨_, hs⟩))
  · unfold redirect
    split
    · intro hbasis
      rw [Signal.retarget, hnew hbasis, h s' hs' hbasis, Bool.xor_self]
    · exact h s' hs'

theorem Constructs.admitsEdges (h : net.Constructs net') (hwf : net.WellFormed)
    (hnet : net.AdmitsEdges) : net'.AdmitsEdges := by
  have hinput : ∀ kind (net' : Network), net'.nodes = net.nodes.push (inputNode kind) →
      net'.basis = net.basis → net'.cos = net.cos → net'.AdmitsEdges := by
    intro kind net' hnodes hbasis hcos
    have hedges : net'.edges.Perm (net.edges ++ []) :=
      @edges_push net net' (inputNode kind) hnodes hcos
    exact hnet.of_perm hbasis hedges (List.forall_mem_nil _)
  cases h with
  | pi => exact hinput .primaryInput _ rfl rfl rfl
  | ro => exact hinput .registerOutput _ rfl rfl rfl
  | po hs hadd => exact hnet.addOutput (addsOutput_of_addPo hadd) hs
  | ri hs hadd => exact hnet.addOutput (addsOutput_of_addRi hadd) hs
  | operator hop hrun =>
    by_cases hbasis : net.basis = .lookupTable
    · obtain ⟨t, hlut⟩ := Operator.exists_lut _ hbasis
      exact hnet.lut hop.operands (hlut.symm.trans hrun)
    · apply admitsEdges_of_basis
      rwa [((hop.grows hwf hrun).extends hwf).basis]
  | clone hmodel _ hfanins hrun =>
    by_cases hbasis : net.basis = .lookupTable
    · obtain ⟨t, -, hlut⟩ := Build.cloneNode_lookupTable hbasis hrun
      exact hnet.lut hfanins hlut
    · apply admitsEdges_of_basis
      rwa [((Build.grows_of_cloneNode hmodel hwf hrun).extends hwf).basis]

theorem Edits.admitsEdges (h : net.Edits net') (hwf : net.WellFormed) (hnet : net.AdmitsEdges) :
    net'.AdmitsEdges := by
  cases h with
  | construct h => exact h.admitsEdges hwf hnet
  | substitute hnew hsub =>
    rcases (substitute_spec hwf hsub).2 with ⟨-, rfl⟩ | ⟨-, -, hspec, -⟩
    · exact hnet
    · exact hnet.substitute hnew hspec
  | annotate => exact hnet
  | watch => exact hnet

theorem Assembled.admits (h : net.Assembled) : net.AdmitsEdges := by
  induction h with
  | new basis =>
    intro s hs
    rw [edges_new] at hs
    cases hs
  | edit former hedit ih => exact hedit.admitsEdges former.built.wellFormed ih

/-! ### A small network with an output -/

/-- The conjunction of signals in their order, of which none is constant. -/
theorem Constructs.conjunction (hbasis : net.basis = .andInverter) {a b : Signal}
    (hle : a.le b = true) (hne : a.node ≠ b.node) (hzero : a.node ≠ 0)
    (hnew : net.index[([a, b], Basis.gateLiteral)]? = none)
    (hlt : ∀ s ∈ [a, b], s.node < net.size) :
    net.Constructs (net.appendGate [a, b] Basis.gateLiteral).2 := by
  have havailable : (Operator.and a b).Available net.basis := by
    refine ⟨fun _ _ hlut => absurd (hbasis.symm.trans hlut) (by decide), ?_⟩
    intro fanins t heq
    cases heq
  refine .operator havailable (s := .ofNode (net.appendGate [a, b] Basis.gateLiteral).1) ?_
  rw [Operator.build, Build.and, Build.get_run]
  simp only [hbasis, Build.conjunction, hle, if_true, if_neg hne, if_neg hzero]
  exact Build.map_run (createNode_eq_appendGate hnew hlt)

theorem constructed_innerConjunction : innerConjunction.Constructed := by
  have hinputs : threeInputs.Constructed :=
    (((Constructed.new .andInverter).construct .pi).construct .pi).construct .pi
  exact hinputs.construct (.conjunction rfl (by decide) (by decide) (by decide)
    Std.HashMap.getElem?_empty (by decide))

theorem constructed_conjunctionOfThree : conjunctionOfThree.Constructed := by
  refine constructed_innerConjunction.construct
    (.conjunction rfl (by decide) (by decide) (by decide) ?_ (by decide))
  refine Std.HashMap.getElem?_insert.trans ((if_neg (by decide)).trans ?_)
  exact Std.HashMap.getElem?_empty

/-- The conjunction of three inputs, with the complement of the inner gate as output. -/
def tappedConjunction : Network :=
  { conjunctionOfThree with
    nodes := countReader conjunctionOfThree.nodes 4
    pos := #[⟨4, true⟩] }

theorem constructed_tappedConjunction : tappedConjunction.Constructed :=
  constructed_conjunctionOfThree.construct
    (.po (fun hlut => absurd hlut (by decide)) (addPo_eq (s := ⟨4, true⟩) (by decide)))

theorem assembled_tappedConjunction : tappedConjunction.Assembled :=
  constructed_tappedConjunction.assembled

theorem acyclic_tappedConjunction : tappedConjunction.Acyclic := acyclic_of_ordered (by decide)

end Network

end LogicSynthesis
