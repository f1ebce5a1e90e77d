import LogicSynthesis.Proofs.Network.Assembly
import LogicSynthesis.Proofs.Network.Inventory

/-!
# The normal form of constructed networks

Constructors append gates that read existing nodes, keep the fanins of each in the form of the basis
and enter it into the index. So the gates of a network that was never edited read earlier nodes, and
no two of them have the same fanins and the same function. A substitution may break all of this.

Conjunctions and majorities read distinct nodes in ascending order. A conjunction reads no constant,
a majority has at most one complemented edge, and a lookup table has one variable for each fanin.

## Main definitions

- `Network.HasGate` — a gate with its fanins and the literal of its function
- `Network.Normal` — the form

## Main statements

- `Normal.unique` — no two gates are alike
- `Normal.createNode`, `growthInvariant_normal` — what keeps the form
- `Constructed.normal` — constructed networks have it
- `constructed_in_normal_form` — what it says of the gates of each basis
-/

namespace LogicSynthesis.Network

variable {net net' : Network} {n m : NodeId} {fanins : List Signal} {literal : Nat}

/-! ### Gates -/

/-- Node `n` is a gate with these fanins and the function of this literal. -/
def HasGate (net : Network) (n : NodeId) (fanins : List Signal) (literal : Nat) : Prop :=
  ∃ fanout, net.nodes[n]? = some { kind := .gate, fanins, function := literal, fanout }

theorem hasGate_of_node {node : Node} (hnode : net.nodes[n]? = some node)
    (hkind : node.kind = .gate) : net.HasGate n node.fanins node.function :=
  ⟨node.fanout, by rw [hnode, ← hkind]⟩

theorem isGate_iff_hasGate :
    net.isGate n = true ↔ ∃ fanins literal, net.HasGate n fanins literal := by
  rw [isGate_iff]
  constructor
  · rintro ⟨node, hnode, hkind⟩
    exact ⟨_, _, hasGate_of_node hnode hkind⟩
  · rintro ⟨fanins, literal, fanout, hnode⟩
    exact ⟨_, hnode, rfl⟩

theorem hasGate_of_index (hwf : net.WellFormed)
    (h : net.index[(fanins, literal)]? = some n) : net.HasGate n fanins literal := by
  obtain ⟨node, hnode, hkind, hkey⟩ := hwf.index _ _ h
  obtain ⟨rfl, rfl⟩ := Prod.mk.inj hkey
  exact hasGate_of_node hnode hkind

namespace HasGate

theorem isGate (h : net.HasGate n fanins literal) : net.isGate n = true :=
  isGate_iff_hasGate.mpr ⟨_, _, h⟩

theorem lt_size (h : net.HasGate n fanins literal) : n < net.size := lt_size_of_kindIs h.isGate

theorem fanins_eq (h : net.HasGate n fanins literal) : net.fanins n = fanins := by
  obtain ⟨fanout, hnode⟩ := h
  exact Network.fanins_eq hnode

theorem reads_iff (h : net.HasGate n fanins literal) :
    net.Reads n m ↔ ∃ s ∈ fanins, s.node = m := by
  rw [Network.reads_iff, h.fanins_eq]

theorem fits (h : net.HasGate n fanins literal) (hwf : net.WellFormed) :
    net.Fits fanins literal := by
  obtain ⟨fanout, hnode⟩ := h
  exact hwf.fits n _ hnode rfl

theorem «extends» (h : net.HasGate n fanins literal) (hext : net.Extends net') :
    net'.HasGate n fanins literal := by
  obtain ⟨fanout, hnode⟩ := h
  obtain ⟨node, hnode', hkind, rfl, rfl⟩ := hext.kept n _ hnode
  exact hasGate_of_node hnode' hkind

theorem inj {fanins' : List Signal} {literal' : Nat} (h : net.HasGate n fanins literal)
    (h' : net.HasGate n fanins' literal') : fanins = fanins' ∧ literal = literal' := by
  obtain ⟨fanout, hnode⟩ := h
  obtain ⟨fanout', hnode'⟩ := h'
  have heq := Option.some.inj (hnode.symm.trans hnode')
  exact ⟨congrArg Node.fanins heq, congrArg Node.function heq⟩

end HasGate

/-- Counting readings changes no gate. -/
theorem hasGate_countReaders {edges : List Signal}
    (hnodes : net'.nodes = countReaders net.nodes edges) :
    net'.HasGate n fanins literal ↔ net.HasGate n fanins literal := by
  rw [HasGate, HasGate, hnodes, getElem?_countReaders]
  cases hnode : net.nodes[n]? with
  | none => simp
  | some node =>
    obtain ⟨kind, fanins', literal', fanout⟩ := node
    simp only [Option.map_some, Option.some.injEq, Node.mk.injEq]
    exact ⟨fun ⟨_, hkind, hfanins, hliteral, _⟩ => ⟨_, hkind, hfanins, hliteral, rfl⟩,
      fun ⟨_, hkind, hfanins, hliteral, _⟩ => ⟨_, hkind, hfanins, hliteral, rfl⟩⟩

theorem not_hasGate_of_size_le (hn : net.size ≤ n) : ¬ net.HasGate n fanins literal :=
  fun h => absurd h.lt_size (Nat.not_lt.mpr hn)

/-- The gates after a node was appended. -/
theorem hasGate_push {node : Node}
    (hnodes : net'.nodes = (countReaders net.nodes node.fanins).push node) :
    net'.HasGate n fanins literal ↔ net.HasGate n fanins literal ∨
      n = net.size ∧ node.kind = .gate ∧ node.fanins = fanins ∧ node.function = literal := by
  by_cases hn : n = net.size
  · rw [HasGate, getElem?_push_countReaders hnodes, if_pos hn]
    have hnot : ¬ net.HasGate n fanins literal := not_hasGate_of_size_le hn.ge
    obtain ⟨kind, fanins', literal', fanout⟩ := node
    subst hn
    simp [hnot]
  · rw [HasGate, getElem?_push_countReaders hnodes, if_neg hn]
    have hsame := @hasGate_countReaders net { net with nodes := countReaders net.nodes node.fanins }
      n fanins literal node.fanins rfl
    simp only [hn, false_and, or_false]
    exact hsame

theorem hasGate_appendGate {fanins' : List Signal} {literal' : Nat} :
    (net.appendGate fanins literal).2.HasGate n fanins' literal' ↔ net.HasGate n fanins' literal' ∨
      n = net.size ∧ fanins = fanins' ∧ literal = literal' := by
  have hpush := @hasGate_push net (net.appendGate fanins literal).2 n fanins' literal'
    { kind := .gate, fanins, function := literal, fanout := 0 } rfl
  simpa only [true_and] using hpush

/-! ### The form -/

/-- What constructions keep and substitutions may break: gates read earlier nodes, through arranged
fanins, and the index finds each of them. -/
structure Normal (net : Network) : Prop where
  ordered : ∀ {n : NodeId} {fanins : List Signal} {literal : Nat}, net.HasGate n fanins literal →
    ∀ s ∈ fanins, s.node < n
  arranged : ∀ {n : NodeId} {fanins : List Signal} {literal : Nat}, net.HasGate n fanins literal →
    net.basis.Arranged fanins
  indexed : ∀ {n : NodeId} {fanins : List Signal} {literal : Nat}, net.HasGate n fanins literal →
    net.index[(fanins, literal)]? = some n
  functions : net.functions.Indexed

namespace Normal

/-- No two gates have the same fanins and the same function. -/
theorem unique (h : net.Normal) (hn : net.HasGate n fanins literal)
    (hm : net.HasGate m fanins literal) : n = m :=
  Option.some.inj ((h.indexed hn).symm.trans (h.indexed hm))

theorem reads_lt (h : net.Normal) (hwf : net.WellFormed) (hreads : net.Reads n m) : m < n := by
  obtain ⟨fanins, literal, hgate⟩ := isGate_iff_hasGate.mp (hwf.isGate_of_reads hreads)
  obtain ⟨s, hs, rfl⟩ := hgate.reads_iff.mp hreads
  exact h.ordered hgate s hs

theorem acyclic (h : net.Normal) (hwf : net.WellFormed) : net.Acyclic :=
  acyclic_of_rank id fun _ _ hreads => h.reads_lt hwf hreads

theorem congr (h : net.Normal) (hbasis : net'.basis = net.basis) (hindex : net'.index = net.index)
    (hfunctions : net'.functions.Indexed)
    (hgates : ∀ {n fanins literal}, net'.HasGate n fanins literal →
      net.HasGate n fanins literal) : net'.Normal := by
  refine ⟨fun hn => h.ordered (hgates hn), fun hn => ?_, fun hn => ?_, hfunctions⟩
  · rw [hbasis]
    exact h.arranged (hgates hn)
  · rw [hindex]
    exact h.indexed (hgates hn)

/-- An input is appended. -/
theorem push (h : net.Normal) (kind : NodeKind) (hkind : kind ≠ .gate)
    (hnodes : net'.nodes = net.nodes.push (inputNode kind)) (hbasis : net'.basis = net.basis)
    (hindex : net'.index = net.index) (hfunctions : net'.functions = net.functions) :
    net'.Normal := by
  refine h.congr hbasis hindex (hfunctions ▸ h.functions) fun hn => ?_
  have hcases := (@hasGate_push net net' _ _ _ (inputNode kind) hnodes).mp hn
  exact hcases.resolve_right fun hnew => hkind hnew.2.1

theorem addOutput (h : net.Normal) {s : Signal} (hadd : net.AddsOutput s net') : net'.Normal :=
  h.congr hadd.basis hadd.index (hadd.functions ▸ h.functions) (hasGate_countReaders hadd.nodes).mp

theorem appendGate (h : net.Normal) (harranged : net.basis.Arranged fanins)
    (hfound : net.index[(fanins, literal)]? = none) (hlt : ∀ s ∈ fanins, s.node < net.size) :
    (net.appendGate fanins literal).2.Normal := by
  have hindex : (net.appendGate fanins literal).2.index =
      net.index.insert (fanins, literal) net.size :=
    congrArg (net.index.insert (fanins, literal)) (appendGate_fst net fanins literal)
  refine ⟨fun hn => ?_, fun hn => ?_, fun {n fanins' literal'} hn => ?_, h.functions⟩
  · rcases hasGate_appendGate.mp hn with hn | ⟨rfl, rfl, -⟩
    · exact h.ordered hn
    · exact hlt
  · rcases hasGate_appendGate.mp hn with hn | ⟨-, rfl, -⟩
    · exact h.arranged hn
    · exact harranged
  · rw [hindex, Std.HashMap.getElem?_insert]
    rcases hasGate_appendGate.mp hn with hn | ⟨rfl, rfl, rfl⟩
    · have hold := h.indexed hn
      have hne : (fanins, literal) ≠ (fanins', literal') := by
        intro heq
        rw [← heq, hfound] at hold
        cases hold
      rw [beq_eq_false_iff_ne.mpr hne, if_neg Bool.false_ne_true, hold]
    · rw [beq_self_eq_true, if_pos rfl]

theorem createNode (h : net.Normal) (harranged : net.basis.Arranged fanins)
    (hcreate : net.createNode fanins literal = .ok (n, net')) : net'.Normal := by
  cases hfound : net.index[(fanins, literal)]? with
  | some m =>
    rw [Network.createNode, hfound] at hcreate
    obtain ⟨-, rfl⟩ := Prod.mk.inj (Except.ok.inj hcreate)
    exact h
  | none =>
    rcases createNode_eq_ok hcreate with ⟨hsome, -⟩ | ⟨-, rfl, hlt⟩
    · cases hfound.symm.trans hsome
    · exact h.appendGate harranged hfound hlt

theorem insertFunction (h : net.Normal) {t : TruthTable} (ht : t.Canonical) :
    (net.insertFunction t).2.Normal :=
  h.congr rfl rfl (h.functions.insert ht) fun hn => hn

end Normal

theorem normal_new (basis : Basis) : (new basis).Normal := by
  have hnone : ∀ {n fanins literal}, ¬ (new basis).HasGate n fanins literal := by
    rintro n fanins literal ⟨fanout, hnode⟩
    obtain ⟨v, -, heq⟩ := getElem?_new hnode
    cases congrArg Node.kind heq
  refine ⟨fun h => absurd h hnone, fun h => absurd h hnone, fun h => absurd h hnone, ?_⟩
  rw [new]
  cases ht : basis.gateFunction? with
  | none => exact FunctionCache.indexed_base
  | some t => exact FunctionCache.indexed_base.insert (gateFunction_spec ht).1

/-- Creating arranged gates and entering functions keeps the form. -/
theorem growthInvariant_normal :
    Build.GrowthInvariant fun net => net.WellFormed ∧ net.Normal :=
  ⟨fun h => h.1, fun h hfits harranged hcreate =>
    ⟨h.1.createNode hfits hcreate, h.2.createNode harranged hcreate⟩,
    fun h ht => ⟨h.1.insertFunction ht, h.2.insertFunction ht⟩⟩

/-! ### Networks built by constructors only -/

theorem Constructs.normal (h : net.Constructs net') (hwf : net.WellFormed) (hnet : net.Normal) :
    net'.Normal := by
  cases h with
  | pi => exact hnet.push .primaryInput nofun rfl rfl rfl rfl
  | ro => exact hnet.push .registerOutput nofun rfl rfl rfl rfl
  | po _ hadd => exact hnet.addOutput (addsOutput_of_addPo hadd)
  | ri _ hadd => exact hnet.addOutput (addsOutput_of_addRi hadd)
  | operator hop hrun => exact (hop.maintains growthInvariant_normal ⟨hwf, hnet⟩ hrun).2
  | clone hmodel _ _ hrun =>
    exact (growthInvariant_normal.of_cloneNode hmodel ⟨hwf, hnet⟩ hrun).2

namespace Constructed

theorem normal (h : net.Constructed) : net.Normal := by
  induction h with
  | new basis => exact normal_new basis
  | construct former h ih => exact h.normal former.assembled.built.wellFormed ih
  | annotate _ _ _ ih => exact ih.congr rfl rfl ih.functions fun hn => hn
  | watch _ _ ih => exact ih.congr rfl rfl ih.functions fun hn => hn

theorem acyclic (h : net.Constructed) : net.Acyclic :=
  h.normal.acyclic h.assembled.built.wellFormed

end Constructed

/-! ### What the form says of each gate -/

namespace HasGate

/-- The function of a gate has a variable for each fanin. -/
theorem exists_nodeFunction (h : net.HasGate n fanins literal) (hwf : net.WellFormed) :
    ∃ t, net.nodeFunction n = .ok t ∧ net.functions.get? literal = some t ∧
      t.numVars = fanins.length := by
  obtain ⟨t, ht, hvars⟩ := (h.fits hwf).function
  obtain ⟨fanout, hnode⟩ := h
  exact ⟨t, nodeFunction_eq hnode ht, ht, hvars⟩

/-- Where the basis has one function for all gates, the gate has a fanin for each variable. -/
theorem length_fanins (h : net.HasGate n fanins literal) (hwf : net.WellFormed) {t : TruthTable}
    (ht : net.basis.gateFunction? = some t) : fanins.length = t.numVars := by
  obtain ⟨fanout, hnode⟩ := h
  exact (hwf.functionOf_eq ht hnode rfl).2

end HasGate

namespace Normal

/-- No two gates read the same fanins through the same function. -/
theorem eq_of_nodeFunction (h : net.Normal) (hwf : net.WellFormed) (hn : net.isGate n = true)
    (hm : net.isGate m = true) (hfanins : net.fanins n = net.fanins m)
    (hfunction : net.nodeFunction n = net.nodeFunction m) : n = m := by
  obtain ⟨fanins, literal, hn⟩ := isGate_iff_hasGate.mp hn
  obtain ⟨fanins', literal', hm⟩ := isGate_iff_hasGate.mp hm
  rw [hn.fanins_eq, hm.fanins_eq] at hfanins
  obtain ⟨t, ht, hliteral, -⟩ := hn.exists_nodeFunction hwf
  obtain ⟨t', ht', hliteral', -⟩ := hm.exists_nodeFunction hwf
  rw [ht, ht', Except.ok.injEq] at hfunction
  subst hfanins hfunction
  -- Two literals of one function are equal, so both gates have one key.
  obtain rfl := h.functions.get?_inj hwf.functions hliteral hliteral'
  exact h.unique hn hm

theorem conjunction_fanins (h : net.Normal) (hwf : net.WellFormed) (hinv : net.Inventory)
    (hbasis : net.basis = .andInverter) (hn : net.isGate n = true) :
    ∃ a b, net.fanins n = [a, b] ∧ a.node < b.node ∧
      net.isConstant a.node = false ∧ net.isConstant b.node = false := by
  obtain ⟨fanins, literal, hgate⟩ := isGate_iff_hasGate.mp hn
  have harranged := h.arranged hgate
  have hlen := hgate.length_fanins hwf (by rw [hbasis]; rfl)
  rw [hbasis] at harranged
  obtain ⟨hascending, hzero⟩ := harranged
  obtain ⟨a, b, rfl⟩ := List.length_eq_two.mp hlen
  have hconstant : ∀ s ∈ [a, b], net.isConstant s.node = false := by
    intro s hs
    have hnot : s.node ∉ net.nodesOf NodeKind.isConstant := by
      rw [hinv.constants, hbasis, List.mem_range]
      exact fun hlt => hzero s hs (Nat.lt_one_iff.mp hlt)
    rwa [mem_nodesOf, Bool.not_eq_true] at hnot
  refine ⟨a, b, hgate.fanins_eq, ?_, hconstant a (by simp), hconstant b (by simp)⟩
  exact List.rel_of_pairwise_cons hascending List.mem_cons_self

theorem majority_fanins (h : net.Normal) (hwf : net.WellFormed)
    (hbasis : net.basis = .majorityInverter) (hn : net.isGate n = true) :
    ∃ a b c, net.fanins n = [a, b, c] ∧ a.node < b.node ∧ b.node < c.node ∧
      [a, b, c].countP Signal.negated ≤ 1 := by
  obtain ⟨fanins, literal, hgate⟩ := isGate_iff_hasGate.mp hn
  have harranged := h.arranged hgate
  have hlen := hgate.length_fanins hwf (by rw [hbasis]; rfl)
  rw [hbasis] at harranged
  obtain ⟨hascending, hnegated⟩ := harranged
  obtain ⟨a, b, c, rfl⟩ := List.length_eq_three.mp hlen
  obtain ⟨hfirst, hrest⟩ := List.pairwise_cons.mp hascending
  refine ⟨a, b, c, hgate.fanins_eq, hfirst b (by simp), ?_, hnegated⟩
  exact List.rel_of_pairwise_cons hrest List.mem_cons_self

end Normal

/-- Networks that constructors made are in normal form. No two gates have the same fanins and the
same function, and every fanin has a smaller number than its gate. A conjunction reads two distinct
nodes in ascending order, neither of them constant. A majority reads three distinct nodes in
ascending order, with at most one complement. A lookup table has one variable for each fanin. -/
theorem constructed_in_normal_form (h : net.Constructed) :
    (∀ n m, net.isGate n = true → net.isGate m = true → net.fanins n = net.fanins m →
      net.nodeFunction n = net.nodeFunction m → n = m) ∧
    (∀ n, ∀ s ∈ net.fanins n, s.node < n) ∧
    (net.basis = .andInverter → ∀ n, net.isGate n = true → ∃ a b, net.fanins n = [a, b] ∧
      a.node < b.node ∧ net.isConstant a.node = false ∧ net.isConstant b.node = false) ∧
    (net.basis = .majorityInverter → ∀ n, net.isGate n = true → ∃ a b c,
      net.fanins n = [a, b, c] ∧ a.node < b.node ∧ b.node < c.node ∧
        [a, b, c].countP Signal.negated ≤ 1) ∧
    (net.basis = .lookupTable → ∀ n, net.isGate n = true → ∃ t,
      net.nodeFunction n = .ok t ∧ t.numVars = (net.fanins n).length) := by
  have hwf := h.assembled.built.wellFormed
  refine ⟨fun n m => h.normal.eq_of_nodeFunction hwf, ?_, ?_, ?_, ?_⟩
  · exact fun n s hs => h.normal.reads_lt hwf (reads_iff.mpr ⟨s, hs, rfl⟩)
  · exact fun hbasis n => h.normal.conjunction_fanins hwf h.assembled.built.inventory hbasis
  · exact fun hbasis n => h.normal.majority_fanins hwf hbasis
  · intro _ n hn
    obtain ⟨fanins, literal, hgate⟩ := isGate_iff_hasGate.mp hn
    obtain ⟨t, ht, -, hvars⟩ := hgate.exists_nodeFunction hwf
    exact ⟨t, ht, hgate.fanins_eq.symm ▸ hvars⟩

/-- The outer gate of the small network is not the inner one, so it reads other fanins. -/
theorem tappedConjunction_in_normal_form : tappedConjunction.Constructed ∧
    tappedConjunction.fanins 4 ≠ tappedConjunction.fanins 5 ∧
    ∃ a b, tappedConjunction.fanins 5 = [a, b] ∧ a.node < b.node ∧
      tappedConjunction.isConstant a.node = false ∧
        tappedConjunction.isConstant b.node = false := by
  obtain ⟨hunique, -, hconjunction, -⟩ :=
    constructed_in_normal_form constructed_tappedConjunction
  refine ⟨constructed_tappedConjunction, fun hfanins => ?_, hconjunction rfl 5 (by decide)⟩
  exact absurd (hunique 4 5 (by decide) (by decide) hfanins (by rfl)) (by decide)

end LogicSynthesis.Network
