import LogicSynthesis.Network.Construction
import LogicSynthesis.Proofs.FunctionCache
import LogicSynthesis.Proofs.Network.Semantics
import LogicSynthesis.Proofs.Outcome

/-!
# Well-formed networks

What every network keeps, through all constructions and substitutions, whether it is acyclic or
not: edges lead to nodes, gates have functions of their arity, the index designates gates with the
fanins and the function of their entry, and every fanout count is the number of edges that read
the node.

## Main definitions

- `Network.edges` — all edges: the fanins of the nodes, and the outputs
- `Network.Fits` — fanins and a function of which the basis makes a gate
- `Network.WellFormed` — the invariant
- `Network.AddsOutput` — what adding an output of either sort does

## Main statements

- `wellFormed_new` — a new network is well formed
- `WellFormed.addPi`, `WellFormed.addRo`, `WellFormed.addOutput`, `WellFormed.appendGate`,
  `WellFormed.insertFunction` — building keeps the invariant
- `WellFormed.fanout_lt` — the fanout counts are in range when the number of edges is
-/

namespace LogicSynthesis

/-- The gates are symmetric just when the basis fixes their function. -/
theorem Basis.isSymmetric_iff {basis : Basis} :
    basis.isSymmetric = true ↔ ∃ t, basis.gateFunction? = some t := by
  cases basis <;> simp [isSymmetric, gateFunction?]

namespace Network

variable {net : Network}

/-- All edges of the network. -/
def edges (net : Network) : List Signal :=
  (net.nodes.toList.map Node.fanins).flatten ++ net.cos

/-- An edge is a fanin of a node or an output. -/
theorem mem_edges_iff {s : Signal} :
    s ∈ net.edges ↔ (∃ n, s ∈ net.fanins n) ∨ s ∈ net.cos := by
  rw [edges, List.mem_append, List.mem_flatten]
  apply or_congr_left
  constructor
  · rintro ⟨fanins, hfanins, hs⟩
    obtain ⟨node, hnode, rfl⟩ := List.mem_map.mp hfanins
    obtain ⟨n, hn⟩ := List.mem_iff_getElem?.mp hnode
    rw [Array.getElem?_toList] at hn
    exact ⟨n, (fanins_eq hn).symm ▸ hs⟩
  · rintro ⟨n, hs⟩
    obtain ⟨node, hn⟩ := exists_node (reads_iff.mpr ⟨s, hs, rfl⟩).lt_size
    rw [fanins_eq hn] at hs
    exact ⟨node.fanins, List.mem_map_of_mem (Array.mem_def.mp (Array.mem_of_getElem? hn)), hs⟩

/-- The number of edges that read `n`. -/
def readers (net : Network) (n : NodeId) : Nat := net.edges.countP (·.node == n)

/-- There are fanins, and the literal is that of a function with a variable for each of them, the
one of the basis if the basis has one. -/
structure Fits (net : Network) (fanins : List Signal) (literal : Nat) : Prop where
  nonempty : fanins ≠ []
  symmetric : net.basis.isSymmetric = true → literal = Basis.gateLiteral
  function : ∃ t, net.functions.get? literal = some t ∧ t.numVars = fanins.length

/-- Whether a gate can be made depends on the number of fanins alone. -/
theorem Fits.of_length {fanins fanins' : List Signal} {literal : Nat}
    (h : net.Fits fanins literal) {net' : Network} (hbasis : net'.basis = net.basis)
    (hfunctions : net'.functions = net.functions) (hlen : fanins'.length = fanins.length) :
    net'.Fits fanins' literal := by
  refine ⟨?_, hbasis ▸ h.symmetric, hfunctions ▸ hlen.symm ▸ h.function⟩
  rw [← List.length_pos_iff, hlen, List.length_pos_iff]
  exact h.nonempty

theorem nodeFunction_eq {n : NodeId} {node : Node} {t : TruthTable}
    (hn : net.nodes[n]? = some node) (ht : net.functions.get? node.function = some t) :
    net.nodeFunction n = .ok t := by
  rw [nodeFunction, node_eq hn, ok_bind, FunctionCache.get_eq_ok.mpr ht]

/-- What constructions and substitutions keep. -/
structure WellFormed (net : Network) : Prop where
  constants : ∀ (i : NodeId) v, net.basis.constants[i]? = some v →
    ∃ node : Node, net.nodes[i]? = some node ∧ node.kind = .constant v
  functions : net.functions.WellFormed
  basisFunction : ∀ t, net.basis.gateFunction? = some t →
    net.functions.get? Basis.gateLiteral = some t
  fits : ∀ (n : NodeId) (node : Node), net.nodes[n]? = some node → node.kind = .gate →
    net.Fits node.fanins node.function
  terminal : ∀ (n : NodeId) (node : Node), net.nodes[n]? = some node → node.kind ≠ .gate →
    node.fanins = []
  edges : ∀ s ∈ net.edges, s.node < net.size
  index : ∀ key (n : NodeId), net.index[key]? = some n →
    ∃ node : Node, net.nodes[n]? = some node ∧ node.kind = .gate ∧
      (node.fanins, node.function) = key
  fanout : ∀ (n : NodeId) (node : Node), net.nodes[n]? = some node → node.fanout = net.readers n
  values : net.scratch.values.size = net.size
  marks : net.scratch.marks.size = net.size

namespace WellFormed

theorem fanin_lt (h : net.WellFormed) {n : NodeId} {node : Node} (hn : net.nodes[n]? = some node)
    {s : Signal} (hs : s ∈ node.fanins) : s.node < net.size :=
  h.edges s (mem_edges_iff.mpr (.inl ⟨n, (fanins_eq hn).symm ▸ hs⟩))

theorem output_lt (h : net.WellFormed) {s : Signal} (hs : s ∈ net.cos) : s.node < net.size :=
  h.edges s (List.mem_append_right _ hs)

theorem reads_lt (h : net.WellFormed) {n m : NodeId} (hreads : net.Reads n m) : m < net.size := by
  obtain ⟨s, hs, rfl⟩ := reads_iff.mp hreads
  obtain ⟨node, hn⟩ := exists_node hreads.lt_size
  rw [fanins_eq hn] at hs
  exact h.fanin_lt hn hs

/-- Only gates read. -/
theorem isGate_of_reads (h : net.WellFormed) {n m : NodeId} (hreads : net.Reads n m) :
    net.isGate n = true := by
  obtain ⟨s, hs, -⟩ := reads_iff.mp hreads
  obtain ⟨node, hn⟩ := exists_node hreads.lt_size
  rw [fanins_eq hn] at hs
  refine isGate_iff.mpr ⟨node, hn, ?_⟩
  by_contra hkind
  rw [h.terminal n node hn hkind] at hs
  cases hs

theorem exists_function (h : net.WellFormed) {n : NodeId} {node : Node}
    (hn : net.nodes[n]? = some node) (hkind : node.kind = .gate) :
    ∃ t, net.functions.get? node.function = some t ∧ t.Canonical ∧
      t.numVars = node.fanins.length := by
  obtain ⟨t, ht, hvars⟩ := (h.fits n node hn hkind).function
  exact ⟨t, ht, h.functions.canonical_of_get? ht, hvars⟩

/-- Where the basis has one function for all gates, every gate has it. -/
theorem functionOf_eq (h : net.WellFormed) {t : TruthTable}
    (ht : net.basis.gateFunction? = some t) {n : NodeId} {node : Node}
    (hn : net.nodes[n]? = some node) (hkind : node.kind = .gate) :
    net.functionOf node = t ∧ node.fanins.length = t.numVars := by
  obtain ⟨-, hliteral, u, hu, hvars⟩ := h.fits n node hn hkind
  have hfound := h.basisFunction t ht
  rw [← hliteral (Basis.isSymmetric_iff.mpr ⟨t, ht⟩), hu] at hfound
  obtain rfl := Option.some.inj hfound
  refine ⟨?_, hvars.symm⟩
  rw [functionOf, hu]
  rfl

theorem constant_lt (h : net.WellFormed) (v : Bool) : (net.basis.constant v).node < net.size := by
  have hlt : ∀ i v, net.basis.constants[i]? = some v → i < net.size := by
    intro i v hi
    obtain ⟨node, hnode, -⟩ := h.constants i v hi
    exact lt_size_of_getElem? hnode
  cases hb : net.basis <;> rw [hb] at hlt
  · exact hlt 0 false rfl
  · exact hlt 0 false rfl
  · cases v
    · exact hlt 0 false rfl
    · exact hlt 1 true rfl

/-- The signal of a constant has the value of the constant. -/
theorem signalValue_constant (h : net.WellFormed) (hac : net.Acyclic) (inputs : Assignment)
    (v : Bool) : net.signalValue inputs (net.basis.constant v) = v := by
  have hval : ∀ i w, net.basis.constants[i]? = some w → net.value inputs i = w := by
    intro i w hi
    obtain ⟨node, hnode, hkind⟩ := h.constants i w hi
    exact value_of_constant hac hnode hkind
  cases hb : net.basis <;> rw [hb] at hval
  · simp only [Basis.constant, signalValue, edgeValue, hval 0 false rfl, Bool.false_xor]
  · simp only [Basis.constant, signalValue, edgeValue, hval 0 false rfl, Bool.false_xor]
  · cases v
    · exact (Bool.xor_false _).trans (hval 0 false rfl)
    · exact (Bool.xor_false _).trans (hval 1 true rfl)

end WellFormed

/-! ### Edges -/

theorem readers_eq_zero (h : net.WellFormed) {n : NodeId} (hn : net.size ≤ n) :
    net.readers n = 0 := by
  rw [readers, List.countP_eq_zero]
  intro s hs
  have hlt := h.edges s hs
  rw [beq_iff_eq]
  exact (Nat.lt_of_lt_of_le hlt hn).ne

theorem readers_le_length_edges (net : Network) (n : NodeId) :
    net.readers n ≤ net.edges.length := List.countP_le_length

/-- While all edges can be counted with 32 bits, every fanout count is in range. -/
theorem WellFormed.fanout_lt (h : net.WellFormed) (hedges : net.edges.length < Scratch.valueBound)
    {n : NodeId} {node : Node} (hn : net.nodes[n]? = some node) :
    node.fanout < Scratch.valueBound := by
  rw [h.fanout n node hn]
  exact (net.readers_le_length_edges n).trans_lt hedges

/-- The nodes after their readings of some edges were counted. -/
def countReaders (nodes : Array Node) (edges : List Signal) : Array Node :=
  edges.foldl (fun nodes s => countReader nodes s.node) nodes

theorem getElem?_countReader (nodes : Array Node) (m n : NodeId) :
    (countReader nodes m)[n]? = (nodes[n]?).map fun node =>
      { node with fanout := node.fanout + if m = n then 1 else 0 } := by
  rw [countReader, Array.getElem?_modify]
  by_cases h : m = n
  · simp [h]
  · cases nodes[n]? <;> simp [h]

theorem getElem?_countReaders (nodes : Array Node) (edges : List Signal) (n : NodeId) :
    (countReaders nodes edges)[n]? = (nodes[n]?).map fun node =>
      { node with fanout := node.fanout + edges.countP (·.node == n) } := by
  induction edges generalizing nodes with
  | nil =>
    rw [countReaders, List.foldl_nil]
    cases nodes[n]? <;> rfl
  | cons s edges ih =>
    rw [countReaders, List.foldl_cons]
    refine (ih (countReader nodes s.node)).trans ?_
    rw [getElem?_countReader]
    cases nodes[n]? with
    | none => rfl
    | some node =>
      simp only [Option.map_some, List.countP_cons, beq_iff_eq, Nat.add_assoc, Nat.add_comm]

theorem size_countReaders (nodes : Array Node) (edges : List Signal) :
    (countReaders nodes edges).size = nodes.size := by
  induction edges generalizing nodes with
  | nil => rfl
  | cons s edges ih =>
    rw [countReaders, List.foldl_cons]
    refine (ih (countReader nodes s.node)).trans ?_
    rw [countReader, Array.size_modify]

/-- Counting readings changes no fanin. -/
theorem map_fanins_countReaders (nodes : Array Node) (edges : List Signal) :
    (countReaders nodes edges).toList.map Node.fanins = nodes.toList.map Node.fanins := by
  apply List.ext_getElem?
  intro n
  rw [List.getElem?_map, List.getElem?_map, Array.getElem?_toList, Array.getElem?_toList,
    getElem?_countReaders]
  cases nodes[n]? <;> rfl

/-- A node after its readings were counted differs from the node in its fanout alone. -/
theorem exists_of_countReaders {nodes : Array Node} {edges : List Signal} {n : NodeId}
    {node' : Node} (h : (countReaders nodes edges)[n]? = some node') :
    ∃ node, nodes[n]? = some node ∧ node' =
      { node with fanout := node.fanout + edges.countP (·.node == n) } := by
  rw [getElem?_countReaders] at h
  obtain ⟨node, hnode, rfl⟩ := Option.map_eq_some_iff.mp h
  exact ⟨node, hnode, rfl⟩

section CountReaders

variable {net' : Network} {edges : List Signal}

theorem kindIs_countReaders (hnodes : net'.nodes = countReaders net.nodes edges)
    (p : NodeKind → Bool) (n : NodeId) : net'.kindIs p n = net.kindIs p n := by
  rw [kindIs, kindIs, hnodes, getElem?_countReaders]
  cases net.nodes[n]? <;> rfl

theorem fanins_countReaders (hnodes : net'.nodes = countReaders net.nodes edges) (n : NodeId) :
    net'.fanins n = net.fanins n := by
  rw [fanins, fanins, hnodes, getElem?_countReaders]
  cases net.nodes[n]? <;> rfl

theorem reads_countReaders_iff (hnodes : net'.nodes = countReaders net.nodes edges)
    {n m : NodeId} : net'.Reads n m ↔ net.Reads n m := by
  rw [Reads, Reads, faninNodes, faninNodes, fanins_countReaders hnodes]

end CountReaders

/-! ### New networks -/

theorem getElem?_new {basis : Basis} {n : NodeId} {node : Node}
    (h : (new basis).nodes[n]? = some node) :
    ∃ v, basis.constants[n]? = some v ∧ node = constantNode v := by
  rw [new, List.getElem?_toArray, List.getElem?_map] at h
  obtain ⟨v, hv, rfl⟩ := Option.map_eq_some_iff.mp h
  exact ⟨v, hv, rfl⟩

theorem edges_new (basis : Basis) : (new basis).edges = [] := by
  cases basis <;> rfl

theorem not_reads_new {basis : Basis} {n m : NodeId} : ¬ (new basis).Reads n m := by
  intro hreads
  obtain ⟨s, hs, -⟩ := reads_iff.mp hreads
  have hedge := mem_edges_iff.mpr (.inl ⟨n, hs⟩)
  rw [edges_new] at hedge
  cases hedge

theorem gateFunction_spec {basis : Basis} {t : TruthTable} (h : basis.gateFunction? = some t) :
    t.Canonical ∧ 1 < t.numVars ∧ t.bit 0 = false := by
  have hproj : ∀ v, (TruthTable.proj 2 v).Canonical := TruthTable.canonical_proj (by decide)
  have hproj' : ∀ v, (TruthTable.proj 3 v).Canonical := TruthTable.canonical_proj (by decide)
  cases basis with
  | andInverter =>
    obtain rfl := Option.some.inj h
    refine ⟨(hproj 0).and (hproj 1) rfl, by decide, ?_⟩
    rw [TruthTable.bit_and (hproj 0) (hproj 1) rfl, TruthTable.bit_proj, Nat.zero_testBit,
      Bool.and_false, Bool.false_and]
  | majorityInverter =>
    obtain rfl := Option.some.inj h
    refine ⟨(hproj' 0).maj (hproj' 1) (hproj' 2) rfl rfl, by decide, ?_⟩
    rw [TruthTable.bit_maj (hproj' 0) (hproj' 1) (hproj' 2) rfl rfl]
    simp [TruthTable.bit_proj]
  | lookupTable => cases h

theorem wellFormed_new (basis : Basis) : (new basis).WellFormed := by
  refine ⟨?_, ?_, ?_, ?_, ?_, ?_, ?_, ?_, ?_, ?_⟩
  · intro i v hi
    change basis.constants[i]? = some v at hi
    refine ⟨constantNode v, ?_, rfl⟩
    rw [new, List.getElem?_toArray, List.getElem?_map, hi, Option.map_some]
  · rw [new]
    cases ht : basis.gateFunction? with
    | none => exact FunctionCache.wellFormed_base
    | some t => exact FunctionCache.wellFormed_base.insert (gateFunction_spec ht).1
  · intro t ht
    change basis.gateFunction? = some t at ht
    obtain ⟨hcan, hvars, hbit⟩ := gateFunction_spec ht
    have hget := FunctionCache.get?_insert FunctionCache.wellFormed_base hcan
    rw [FunctionCache.insert_base hvars hbit] at hget
    simp only [new, ht]
    exact hget
  · intro n node hn hkind
    obtain ⟨v, -, rfl⟩ := getElem?_new hn
    cases hkind
  · intro n node hn _
    obtain ⟨v, -, rfl⟩ := getElem?_new hn
    rfl
  · intro s hs
    rw [edges_new] at hs
    cases hs
  · intro key n hn
    rw [new, Std.HashMap.getElem?_empty] at hn
    cases hn
  · intro n node hn
    obtain ⟨v, -, rfl⟩ := getElem?_new hn
    rw [readers, edges_new]
    rfl
  · cases basis <;> rfl
  · cases basis <;> rfl

/-! ### Building -/

/-- What well-formedness depends on, apart from the scratch sizes, is shared. -/
theorem WellFormed.withScratch (h : net.WellFormed) {scratch : Scratch}
    (hvalues : scratch.values.size = net.size) (hmarks : scratch.marks.size = net.size) :
    (net.withScratch scratch).WellFormed :=
  { h with
    fits := fun n node hn hkind => (h.fits n node hn hkind).of_length rfl rfl rfl
    values := hvalues
    marks := hmarks }

theorem WellFormed.withEvents (h : net.WellFormed) (events : Events) :
    ({ net with events } : Network).WellFormed :=
  { h with fits := fun n node hn hkind => (h.fits n node hn hkind).of_length rfl rfl rfl }

theorem WellFormed.insertFunction (h : net.WellFormed) {t : TruthTable} (ht : t.Canonical) :
    (net.insertFunction t).2.WellFormed :=
  { h with
    functions := h.functions.insert ht
    basisFunction := fun u hu => FunctionCache.get?_insert_of_get? (h.basisFunction u hu)
    fits := by
      intro n node hn hkind
      obtain ⟨hne, hliteral, u, hu, hvars⟩ := h.fits n node hn hkind
      exact ⟨hne, hliteral, u, FunctionCache.get?_insert_of_get? hu, hvars⟩ }

section Push

variable {net' : Network} {node : Node}

theorem edges_push (hnodes : net'.nodes = (countReaders net.nodes node.fanins).push node)
    (hcos : net'.cos = net.cos) : net'.edges.Perm (net.edges ++ node.fanins) := by
  rw [edges, edges, hnodes, hcos, Array.toList_push, List.map_append, map_fanins_countReaders,
    List.flatten_append, List.append_assoc, List.append_assoc]
  apply List.Perm.append_left
  simp only [List.map_cons, List.map_nil, List.flatten_cons, List.flatten_nil, List.append_nil]
  exact List.perm_append_comm

/-- The nodes after one was appended. -/
theorem getElem?_push_countReaders
    (hnodes : net'.nodes = (countReaders net.nodes node.fanins).push node) (n : NodeId) :
    net'.nodes[n]? =
      if n = net.size then some node else (countReaders net.nodes node.fanins)[n]? := by
  rw [hnodes, Array.getElem?_push, size_countReaders]
  rfl

theorem kindIs_push (hnodes : net'.nodes = (countReaders net.nodes node.fanins).push node)
    (p : NodeKind → Bool) (n : NodeId) :
    net'.kindIs p n = if n = net.size then p node.kind else net.kindIs p n := by
  rw [kindIs, kindIs, getElem?_push_countReaders hnodes, getElem?_countReaders]
  by_cases h : n = net.size
  · simp only [if_pos h]
  · simp only [if_neg h]
    cases net.nodes[n]? <;> rfl

theorem fanins_push (hnodes : net'.nodes = (countReaders net.nodes node.fanins).push node)
    (n : NodeId) : net'.fanins n = if n = net.size then node.fanins else net.fanins n := by
  rw [fanins, fanins, getElem?_push_countReaders hnodes, getElem?_countReaders]
  by_cases h : n = net.size
  · simp only [if_pos h]
  · simp only [if_neg h]
    cases net.nodes[n]? <;> rfl

/-- An input that was appended reads nothing. -/
theorem reads_of_push (hnodes : net'.nodes = (countReaders net.nodes node.fanins).push node)
    (hfanins : node.fanins = []) {n m : NodeId} (h : net'.Reads n m) : net.Reads n m := by
  rw [reads_iff, fanins_push hnodes] at h
  split at h
  · obtain ⟨s, hs, -⟩ := h
    rw [hfanins] at hs
    cases hs
  · exact reads_iff.mpr h

/-- Appending a node that reads existing nodes, with its readings counted. -/
theorem WellFormed.push (h : net.WellFormed) (net' : Network) (node : Node)
    (hbasis : net'.basis = net.basis)
    (hnodes : net'.nodes = (countReaders net.nodes node.fanins).push node)
    (hcos : net'.cos = net.cos) (hfunctions : net'.functions = net.functions)
    (hscratch : net'.scratch = net.scratch.grow)
    (hindex : ∀ key n, net'.index[key]? = some n → net.index[key]? = some n ∨
      n = net.size ∧ node.kind = .gate ∧ (node.fanins, node.function) = key)
    (hfits : node.kind = .gate → net.Fits node.fanins node.function)
    (hterminal : node.kind ≠ .gate → node.fanins = [])
    (hfanins : ∀ s ∈ node.fanins, s.node < net.size) (hfanout : node.fanout = 0) :
    net'.WellFormed := by
  have hsize : net'.size = net.size + 1 := by
    rw [size, hnodes, Array.size_push, size_countReaders, size]
  -- An old node only gains the readings of the new one.
  have hold : ∀ {n : NodeId} {old : Node}, net.nodes[n]? = some old → net'.nodes[n]? = some
      { old with fanout := old.fanout + node.fanins.countP (·.node == n) } := by
    intro n old hn
    have hlt := lt_size_of_getElem? hn
    rw [getElem?_push_countReaders hnodes, if_neg hlt.ne, getElem?_countReaders, hn]
    rfl
  have hcases : ∀ {n : NodeId} {found : Node}, net'.nodes[n]? = some found →
      n = net.size ∧ found = node ∨ ∃ old, net.nodes[n]? = some old ∧ found =
        { old with fanout := old.fanout + node.fanins.countP (·.node == n) } := by
    intro n found hn
    rw [getElem?_push_countReaders hnodes] at hn
    by_cases heq : n = net.size
    · rw [if_pos heq] at hn
      exact .inl ⟨heq, (Option.some.inj hn).symm⟩
    · rw [if_neg heq] at hn
      exact .inr (exists_of_countReaders hn)
  have hfits' : ∀ {fanins literal}, net.Fits fanins literal → net'.Fits fanins literal := by
    exact fun hf => hf.of_length hbasis hfunctions rfl
  refine ⟨?_, ?_, ?_, ?_, ?_, ?_, ?_, ?_, ?_, ?_⟩
  · intro i v hi
    rw [hbasis] at hi
    obtain ⟨old, hn, hkind⟩ := h.constants i v hi
    exact ⟨_, hold hn, hkind⟩
  · rw [hfunctions]
    exact h.functions
  · rw [hfunctions, hbasis]
    exact h.basisFunction
  · intro n found hn hkind
    rcases hcases hn with ⟨-, rfl⟩ | ⟨old, hn', rfl⟩
    · exact hfits' (hfits hkind)
    · exact hfits' (h.fits n old hn' hkind)
  · intro n found hn hkind
    rcases hcases hn with ⟨-, rfl⟩ | ⟨old, hn', rfl⟩
    · exact hterminal hkind
    · exact h.terminal n old hn' hkind
  · intro s hs
    rw [(edges_push hnodes hcos).mem_iff, List.mem_append] at hs
    rw [hsize]
    exact Nat.lt_succ_of_lt (hs.elim (h.edges s) (hfanins s))
  · intro key n hn
    rcases hindex key n hn with hn | ⟨rfl, hkind, hkey⟩
    · obtain ⟨old, hn, hkind, hkey⟩ := h.index key n hn
      exact ⟨_, hold hn, hkind, hkey⟩
    · refine ⟨node, ?_, hkind, hkey⟩
      rw [getElem?_push_countReaders hnodes, if_pos rfl]
  · intro n found hn
    rw [readers, (edges_push hnodes hcos).countP_eq, List.countP_append]
    rcases hcases hn with ⟨rfl, rfl⟩ | ⟨old, hn', rfl⟩
    · have hzero : found.fanins.countP (·.node == net.size) = 0 := by
        rw [List.countP_eq_zero]
        intro s hs
        rw [beq_iff_eq]
        exact (hfanins s hs).ne
      have hreaders := readers_eq_zero h (le_refl net.size)
      rw [readers] at hreaders
      omega
    · have hreaders := h.fanout n old hn'
      rw [readers] at hreaders
      rw [hreaders]
  · rw [hscratch, Scratch.grow, Array.size_push, h.values, hsize]
  · rw [hscratch, Scratch.grow, Array.size_push, h.marks, hsize]

end Push

theorem WellFormed.addPi (h : net.WellFormed) : net.addPi.2.WellFormed := by
  apply h.push net.addPi.2 (inputNode .primaryInput) rfl rfl rfl rfl rfl
  · exact fun _ _ hn => .inl hn
  · intro hkind
    cases hkind
  · exact fun _ => rfl
  · intro s hs
    cases hs
  · rfl

theorem WellFormed.addRo (h : net.WellFormed) : net.addRo.2.WellFormed := by
  apply h.push net.addRo.2 (inputNode .registerOutput) rfl rfl rfl rfl rfl
  · exact fun _ _ hn => .inl hn
  · intro hkind
    cases hkind
  · exact fun _ => rfl
  · intro s hs
    cases hs
  · rfl

theorem WellFormed.appendGate (h : net.WellFormed) {fanins : List Signal} {literal : Nat}
    (hfits : net.Fits fanins literal) (hlt : ∀ s ∈ fanins, s.node < net.size) :
    (net.appendGate fanins literal).2.WellFormed := by
  apply h.push (net.appendGate fanins literal).2
    { kind := .gate, fanins, function := literal, fanout := 0 } rfl rfl rfl rfl rfl
  · intro key n hn
    simp only [Network.appendGate, append, Std.HashMap.getElem?_insert] at hn
    split at hn
    · next heq =>
      right
      refine ⟨?_, rfl, eq_of_beq heq⟩
      rw [← Option.some.inj hn]
      exact size_countReaders net.nodes fanins
    · exact .inl hn
  · exact fun _ => hfits
  · intro hkind
    exact absurd rfl hkind
  · exact hlt
  · rfl

/-- `net'` has the edge `s` as one more output. -/
structure AddsOutput (net : Network) (s : Signal) (net' : Network) : Prop where
  lt : s.node < net.size
  basis : net'.basis = net.basis
  pis : net'.pis = net.pis
  ros : net'.ros = net.ros
  nodes : net'.nodes = countReaders net.nodes [s]
  cos : net'.cos.Perm (net.cos ++ [s])
  functions : net'.functions = net.functions
  scratch : net'.scratch = net.scratch
  index : net'.index = net.index

theorem checkNodes_eq_ok {ns : List NodeId} {u : Unit} (h : net.checkNodes ns = .ok u) :
    ∀ n ∈ ns, n < net.size := by
  have hall := require_eq_ok h
  rw [List.all_eq_true] at hall
  exact fun n hn => of_decide_eq_true (hall n hn)

theorem checkNodes_of {ns : List NodeId} (h : ∀ n ∈ ns, n < net.size) :
    net.checkNodes ns = .ok () := by
  apply require_of
  rw [List.all_eq_true]
  exact fun n hn => decide_eq_true (h n hn)

theorem addPo_eq {s : Signal} (hs : s.node < net.size) : net.addPo s = .ok (net.pos.size,
    { net with nodes := countReader net.nodes s.node, pos := net.pos.push s }) := by
  rw [addPo, checkNodes_of (List.forall_mem_singleton.mpr hs)]
  rfl

theorem addRi_eq {s : Signal} (hs : s.node < net.size) : net.addRi s = .ok (net.ris.size,
    { net with nodes := countReader net.nodes s.node, ris := net.ris.push s }) := by
  rw [addRi, checkNodes_of (List.forall_mem_singleton.mpr hs)]
  rfl

theorem addsOutput_of_addPo {s : Signal} {i : Nat} {net' : Network}
    (h : net.addPo s = .ok (i, net')) : net.AddsOutput s net' := by
  obtain ⟨u, hcheck, h⟩ := bind_eq_ok h
  obtain ⟨-, rfl⟩ := Prod.mk.inj (Except.ok.inj h)
  refine ⟨checkNodes_eq_ok hcheck s.node List.mem_cons_self, rfl, rfl, rfl, rfl, ?_, rfl, rfl, rfl⟩
  simp only [cos, Array.toList_push, List.append_assoc]
  exact List.perm_append_comm.append_left _

theorem addsOutput_of_addRi {s : Signal} {i : Nat} {net' : Network}
    (h : net.addRi s = .ok (i, net')) : net.AddsOutput s net' := by
  obtain ⟨u, hcheck, h⟩ := bind_eq_ok h
  obtain ⟨-, rfl⟩ := Prod.mk.inj (Except.ok.inj h)
  refine ⟨checkNodes_eq_ok hcheck s.node List.mem_cons_self, rfl, rfl, rfl, rfl, ?_, rfl, rfl, rfl⟩
  simp only [cos, Array.toList_push, List.append_assoc]
  exact List.Perm.refl _

section AddsOutput

variable {s : Signal} {net' : Network}

theorem AddsOutput.size (h : net.AddsOutput s net') : net'.size = net.size := by
  rw [Network.size, h.nodes, size_countReaders, Network.size]

theorem AddsOutput.edges (h : net.AddsOutput s net') : net'.edges.Perm (net.edges ++ [s]) := by
  rw [Network.edges, Network.edges, h.nodes, map_fanins_countReaders, List.append_assoc]
  exact h.cos.append_left _

/-- Adding an output that an existing node drives, with its reading counted. -/
theorem WellFormed.addOutput (h : net.WellFormed) (hadd : net.AddsOutput s net') :
    net'.WellFormed := by
  have hold : ∀ {n : NodeId} {old : Node}, net.nodes[n]? = some old →
      net'.nodes[n]? = some { old with fanout := old.fanout + [s].countP (·.node == n) } := by
    intro n old hn
    rw [hadd.nodes, getElem?_countReaders, hn]
    rfl
  have hcases : ∀ {n : NodeId} {found : Node}, net'.nodes[n]? = some found →
      ∃ old, net.nodes[n]? = some old ∧
        found = { old with fanout := old.fanout + [s].countP (·.node == n) } := by
    intro n found hn
    rw [hadd.nodes] at hn
    exact exists_of_countReaders hn
  refine ⟨?_, ?_, ?_, ?_, ?_, ?_, ?_, ?_, ?_, ?_⟩
  · intro i v hi
    rw [hadd.basis] at hi
    obtain ⟨old, hn, hkind⟩ := h.constants i v hi
    exact ⟨_, hold hn, hkind⟩
  · rw [hadd.functions]
    exact h.functions
  · rw [hadd.functions, hadd.basis]
    exact h.basisFunction
  · intro n found hn hkind
    obtain ⟨old, hn', rfl⟩ := hcases hn
    exact (h.fits n old hn' hkind).of_length hadd.basis hadd.functions rfl
  · intro n found hn hkind
    obtain ⟨old, hn', rfl⟩ := hcases hn
    exact h.terminal n old hn' hkind
  · intro s' hs'
    rw [hadd.edges.mem_iff, List.mem_append, List.mem_singleton] at hs'
    rw [hadd.size]
    rcases hs' with hs' | rfl
    · exact h.edges s' hs'
    · exact hadd.lt
  · intro key n hn
    rw [hadd.index] at hn
    obtain ⟨old, hn, hkind, hkey⟩ := h.index key n hn
    exact ⟨_, hold hn, hkind, hkey⟩
  · intro n found hn
    obtain ⟨old, hn', rfl⟩ := hcases hn
    have hreaders := h.fanout n old hn'
    rw [readers, hadd.edges.countP_eq, List.countP_append, ← readers, hreaders]
  · rw [hadd.scratch, h.values, hadd.size]
  · rw [hadd.scratch, h.marks, hadd.size]

end AddsOutput

end Network

end LogicSynthesis
