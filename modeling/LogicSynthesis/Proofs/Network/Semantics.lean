import LogicSynthesis.Network.Basic
import LogicSynthesis.Proofs.TruthTable.Bits
import LogicSynthesis.TruthTable.Support

/-!
# The meaning of a network

Under an assignment of its combinational inputs, an acyclic network gives every node a value: a
constant has its own, an input the assigned one, and a gate the value of its function at the
values of its fanins, each complemented where the edge says so.

## Main definitions

- `Network.Reads` — a node reads the driver of each of its fanins
- `Network.Acyclic` — no node is read, directly or not, by itself
- `Network.value`, `Network.signalValue` — the value of a node and of an edge
- `Network.response` — the values of the outputs, as a function of the values of the inputs

## Main statements

- `value_eq` — the value of a node comes from the values of its fanins
- `eq_value_of_consistent` — no other valuation is consistent with the nodes
-/

namespace LogicSynthesis

/-- A value for each combinational input, by node. -/
abbrev Assignment := NodeId → Bool

namespace Network

variable {net : Network}

/-- Some fanin of `n` is driven by `m`. -/
def Reads (net : Network) (n m : NodeId) : Prop := m ∈ net.faninNodes n

/-- Following fanins never leads back to a node. -/
def Acyclic (net : Network) : Prop := ∀ n, ¬ Relation.TransGen net.Reads n n

/-- The function of a gate over its fanins. -/
def functionOf (net : Network) (node : Node) : TruthTable :=
  (net.functions.get? node.function).getD default

/-- The value of an edge, from the value of its driver. -/
def edgeValue (val : NodeId → Bool) (s : Signal) : Bool := val s.node ^^ s.negated

/-- The value that node `n` takes when its fanins have the values `val`. -/
def nodeValue (net : Network) (inputs : Assignment) (val : NodeId → Bool) (n : NodeId) : Bool :=
  match net.nodes[n]? with
  | none => false
  | some node =>
    match node.kind with
    | .constant value => value
    | .primaryInput | .registerOutput => inputs n
    | .gate => (net.functionOf node).bit (codeOf (node.fanins.map (edgeValue val)))

/-- The values that are known after `depth` rounds of evaluation. -/
def valueWithin (net : Network) (inputs : Assignment) : Nat → NodeId → Bool
  | 0, _ => false
  | depth + 1, n => net.nodeValue inputs (net.valueWithin inputs depth) n

/-- The value of a node. In an acyclic network no fanin path is longer than there are nodes, so as
many rounds settle every value. -/
def value (net : Network) (inputs : Assignment) (n : NodeId) : Bool :=
  net.valueWithin inputs net.size n

/-- The value of a possibly complemented edge. -/
def signalValue (net : Network) (inputs : Assignment) (s : Signal) : Bool :=
  edgeValue (net.value inputs) s

/-! ### Nodes -/

theorem lt_size_of_getElem? {n : NodeId} {node : Node} (h : net.nodes[n]? = some node) :
    n < net.size := (Array.getElem?_eq_some_iff.mp h).1

theorem exists_node {n : NodeId} (h : n < net.size) : ∃ node, net.nodes[n]? = some node :=
  ⟨_, Array.getElem?_eq_getElem h⟩

theorem node_eq {n : NodeId} {node : Node} (h : net.nodes[n]? = some node) :
    net.node n = .ok node := by
  rw [Network.node, h]

theorem fanins_eq {n : NodeId} {node : Node} (h : net.nodes[n]? = some node) :
    net.fanins n = node.fanins := by
  rw [fanins, h]

theorem kindIs_eq {p : NodeKind → Bool} {n : NodeId} {node : Node}
    (h : net.nodes[n]? = some node) : net.kindIs p n = p node.kind := by
  rw [kindIs, h]

theorem kindIs_iff {p : NodeKind → Bool} {n : NodeId} :
    net.kindIs p n = true ↔ ∃ node, net.nodes[n]? = some node ∧ p node.kind = true := by
  unfold kindIs
  cases net.nodes[n]? <;> simp

theorem lt_size_of_kindIs {p : NodeKind → Bool} {n : NodeId} (h : net.kindIs p n = true) :
    n < net.size := by
  obtain ⟨node, hnode, -⟩ := kindIs_iff.mp h
  exact lt_size_of_getElem? hnode

theorem isGate_iff {n : NodeId} :
    net.isGate n = true ↔ ∃ node, net.nodes[n]? = some node ∧ node.kind = .gate := by
  unfold isGate
  rw [kindIs_iff]
  refine exists_congr fun node => and_congr_right fun _ => ?_
  cases node.kind <;> simp [NodeKind.isGate]

/-- A node that exists is a gate unless it is terminal. -/
theorem isTerminal_eq_not_isGate {n : NodeId} (h : n < net.size) :
    net.isTerminal n = !net.isGate n := by
  obtain ⟨node, hnode⟩ := exists_node h
  rw [isTerminal, isGate, kindIs_eq hnode, kindIs_eq hnode]
  cases node.kind <;> rfl

theorem isTerminal_of_isGate {n : NodeId} (h : net.isGate n = true) : net.isTerminal n = false := by
  rw [isTerminal_eq_not_isGate (lt_size_of_kindIs h), h]
  rfl

theorem isGate_of_not_isTerminal {n : NodeId} (hn : n < net.size)
    (h : ¬ net.isTerminal n = true) : net.isGate n = true := by
  rw [isTerminal_eq_not_isGate hn] at h
  simpa using h

theorem reads_iff {n m : NodeId} :
    net.Reads n m ↔ ∃ s ∈ net.fanins n, s.node = m := by
  rw [Reads, faninNodes, List.mem_map]

/-- A node reads what drives its fanins. -/
theorem reads_of_mem {n : NodeId} {node : Node} (hnode : net.nodes[n]? = some node) {s : Signal}
    (hs : s ∈ node.fanins) : net.Reads n s.node :=
  reads_iff.mpr ⟨s, (fanins_eq hnode).symm ▸ hs, rfl⟩

theorem Reads.lt_size {n m : NodeId} (h : net.Reads n m) : n < net.size := by
  obtain ⟨s, hs, -⟩ := reads_iff.mp h
  unfold fanins at hs
  cases hn : net.nodes[n]? with
  | none => rw [hn] at hs; cases hs
  | some node => exact lt_size_of_getElem? hn

/-! ### Induction along fanins -/

open scoped Classical in
/-- The existing nodes that `n` depends on, itself included. -/
noncomputable def support (net : Network) (n : NodeId) : Finset NodeId :=
  (Finset.range net.size).filter fun m => Relation.ReflTransGen net.Reads n m

open scoped Classical in
/-- The existing nodes that depend on `n`. -/
noncomputable def dependents (net : Network) (n : NodeId) : Finset NodeId :=
  (Finset.range net.size).filter fun m => Relation.TransGen net.Reads m n

theorem mem_support {n m : NodeId} :
    m ∈ net.support n ↔ m < net.size ∧ Relation.ReflTransGen net.Reads n m := by
  simp only [support, Finset.mem_filter, Finset.mem_range]

theorem mem_dependents {n m : NodeId} :
    m ∈ net.dependents n ↔ m < net.size ∧ Relation.TransGen net.Reads m n := by
  simp only [dependents, Finset.mem_filter, Finset.mem_range]

theorem card_support_le (net : Network) (n : NodeId) : (net.support n).card ≤ net.size := by
  have hsub : net.support n ⊆ Finset.range net.size :=
    fun m hm => Finset.mem_range.mpr (mem_support.mp hm).1
  simpa using Finset.card_le_card hsub

theorem mem_support_self {n : NodeId} (h : n < net.size) : n ∈ net.support n :=
  mem_support.mpr ⟨h, .refl⟩

namespace Acyclic

theorem card_support_lt (h : net.Acyclic) {n m : NodeId} (hreads : net.Reads n m) :
    (net.support m).card < (net.support n).card := by
  apply Finset.card_lt_card
  rw [Finset.ssubset_iff_of_subset]
  · refine ⟨n, mem_support_self hreads.lt_size, ?_⟩
    rw [mem_support]
    rintro ⟨-, hback⟩
    exact h n (Relation.TransGen.head' hreads hback)
  · intro k hk
    rw [mem_support] at hk ⊢
    exact ⟨hk.1, .head hreads hk.2⟩

theorem card_dependents_lt (h : net.Acyclic) {n m : NodeId} (hreads : net.Reads n m) :
    (net.dependents n).card < (net.dependents m).card := by
  apply Finset.card_lt_card
  rw [Finset.ssubset_iff_of_subset]
  · refine ⟨n, mem_dependents.mpr ⟨hreads.lt_size, .single hreads⟩, ?_⟩
    rw [mem_dependents]
    exact fun hn => h n hn.2
  · intro k hk
    rw [mem_dependents] at hk ⊢
    exact ⟨hk.1, hk.2.tail hreads⟩

/-- What passes from the fanins of a node to the node holds of every node. -/
theorem induction (h : net.Acyclic) {motive : NodeId → Prop}
    (step : ∀ n, (∀ m, net.Reads n m → motive m) → motive n) (n : NodeId) : motive n := by
  have hwf : WellFounded fun a b => (net.support a).card < (net.support b).card :=
    InvImage.wf _ Nat.lt_wfRel.wf
  induction n using hwf.induction with
  | _ n ih => exact step n fun m hreads => ih m (h.card_support_lt hreads)

/-- What passes from the readers of a node to the node holds of every node. -/
theorem induction_readers (h : net.Acyclic) {motive : NodeId → Prop}
    (step : ∀ n, (∀ m, net.Reads m n → motive m) → motive n) (n : NodeId) : motive n := by
  have hwf : WellFounded fun a b => (net.dependents a).card < (net.dependents b).card :=
    InvImage.wf _ Nat.lt_wfRel.wf
  induction n using hwf.induction with
  | _ n ih => exact step n fun m hreads => ih m (h.card_dependents_lt hreads)

end Acyclic

/-- Ranks that fall from every node to its fanins fall along paths. -/
theorem rank_lt_of_transGen (rank : NodeId → Nat) (h : ∀ n m, net.Reads n m → rank m < rank n)
    {n m : NodeId} (hpath : Relation.TransGen net.Reads n m) : rank m < rank n := by
  induction hpath with
  | single hreads => exact h _ _ hreads
  | tail _ hreads ih => exact (h _ _ hreads).trans ih

/-- A network in which every node is ranked above its fanins is acyclic. -/
theorem acyclic_of_rank (rank : NodeId → Nat) (h : ∀ n m, net.Reads n m → rank m < rank n) :
    net.Acyclic := fun _ hn => lt_irrefl _ (rank_lt_of_transGen rank h hn)

/-- A network in which every node comes after its fanins is acyclic. -/
theorem acyclic_of_ordered (h : ∀ n ∈ net.nodeIds, ∀ m ∈ net.faninNodes n, m < n) :
    net.Acyclic :=
  acyclic_of_rank id fun n m hreads => h n (List.mem_range.mpr hreads.lt_size) m hreads

/-! ### Values -/

theorem nodeValue_congr {inputs : Assignment} {val val' : NodeId → Bool} {n : NodeId}
    (h : ∀ m, net.Reads n m → val m = val' m) :
    net.nodeValue inputs val n = net.nodeValue inputs val' n := by
  unfold nodeValue
  cases hn : net.nodes[n]? with
  | none => rfl
  | some node =>
    have hmap : node.fanins.map (edgeValue val) = node.fanins.map (edgeValue val') := by
      apply List.map_congr_left
      intro s hs
      rw [edgeValue, edgeValue, h s.node (reads_of_mem hn hs)]
    simp only [hmap]

theorem nodeValue_of_size_le {inputs : Assignment} {val : NodeId → Bool} {n : NodeId}
    (h : net.size ≤ n) : net.nodeValue inputs val n = false := by
  rw [nodeValue, Array.getElem?_eq_none h]

/-- Evaluation has settled the value of a node once every node it depends on had its round. -/
theorem valueWithin_succ (h : net.Acyclic) (inputs : Assignment) (depth : Nat) :
    ∀ n, (net.support n).card ≤ depth →
      net.valueWithin inputs (depth + 1) n = net.valueWithin inputs depth n := by
  induction depth with
  | zero =>
    intro n hn
    have hge : net.size ≤ n := by
      by_contra hlt
      have hmem := Finset.card_pos.mpr ⟨n, mem_support_self (Nat.not_le.mp hlt)⟩
      omega
    exact nodeValue_of_size_le hge
  | succ depth ih =>
    intro n hn
    apply nodeValue_congr
    intro m hreads
    have hlt := h.card_support_lt hreads
    exact ih m (by omega)

/-- The value of a node is the value its kind and function make of the values of its fanins. -/
theorem value_eq (h : net.Acyclic) (inputs : Assignment) (n : NodeId) :
    net.value inputs n = net.nodeValue inputs (net.value inputs) n :=
  (valueWithin_succ h inputs net.size n (card_support_le net n)).symm

/-- A valuation that is consistent with every node is the evaluation. -/
theorem eq_value_of_consistent (h : net.Acyclic) {inputs : Assignment} {val : NodeId → Bool}
    (hval : ∀ n, val n = net.nodeValue inputs val n) (n : NodeId) :
    val n = net.value inputs n := by
  induction n using h.induction with
  | _ n ih => rw [hval, value_eq h, nodeValue_congr ih]

theorem value_of_constant (h : net.Acyclic) {inputs : Assignment} {n : NodeId} {node : Node}
    {v : Bool} (hn : net.nodes[n]? = some node) (hkind : node.kind = .constant v) :
    net.value inputs n = v := by
  rw [value_eq h, nodeValue, hn]
  simp only [hkind]

theorem value_of_gate (h : net.Acyclic) {inputs : Assignment} {n : NodeId} {node : Node}
    (hn : net.nodes[n]? = some node) (hkind : node.kind = .gate) :
    net.value inputs n =
      (net.functionOf node).bit (codeOf (node.fanins.map (net.signalValue inputs))) := by
  rw [value_eq h, nodeValue, hn]
  simp only [hkind]
  rfl

theorem value_of_input (h : net.Acyclic) {inputs : Assignment} {n : NodeId}
    (hn : net.isInput n = true) : net.value inputs n = inputs n := by
  obtain ⟨node, hnode, hkind⟩ := kindIs_iff.mp hn
  rw [value_eq h, nodeValue, hnode]
  revert hkind
  cases hcase : node.kind <;> simp [NodeKind.isInput, hcase]

/-- Networks whose nodes make the same of the values of other nodes have the same values. -/
theorem value_congr {net' : Network} (hsize : net'.size = net.size)
    (hnodes : ∀ inputs val n, net'.nodeValue inputs val n = net.nodeValue inputs val n)
    (inputs : Assignment) (n : NodeId) : net'.value inputs n = net.value inputs n := by
  have hwithin : ∀ depth, net'.valueWithin inputs depth = net.valueWithin inputs depth := by
    intro depth
    induction depth with
    | zero => rfl
    | succ depth ih =>
      funext n
      rw [valueWithin, valueWithin, ih, hnodes]
  rw [value, value, hsize, hwithin]

@[simp]
theorem signalValue_ofNode (inputs : Assignment) (n : NodeId) :
    net.signalValue inputs (.ofNode n) = net.value inputs n := Bool.xor_false _

@[simp]
theorem signalValue_negate (inputs : Assignment) (s : Signal) :
    net.signalValue inputs s.negate = !net.signalValue inputs s := by
  rw [signalValue, signalValue, edgeValue, edgeValue, Signal.negate]
  cases net.value inputs s.node <;> cases s.negated <;> rfl

theorem signalValue_withPolarity (inputs : Assignment) (s : Signal) (negate : Bool) :
    net.signalValue inputs (s.withPolarity negate) = (net.signalValue inputs s ^^ negate) := by
  cases negate with
  | false => exact (Bool.xor_false _).symm
  | true => exact (signalValue_negate inputs s).trans (Bool.xor_true _).symm

/-! ### Networks as functions -/

/-- The assignment that gives the combinational inputs, in their order, the given values. -/
def assign (net : Network) (values : List Bool) : Assignment :=
  fun n => (values[net.cis.idxOf n]?).getD false

/-- The values of the combinational outputs, in their order, when the inputs have the given
values. -/
def response (net : Network) (values : List Bool) : List Bool :=
  net.cos.map (net.signalValue (net.assign values))

@[simp]
theorem length_cis (net : Network) : net.cis.length = net.numCis := by
  rw [cis, List.length_append, Array.length_toList, Array.length_toList, numCis]

theorem assign_getElem (hnodup : net.cis.Nodup) (values : List Bool) {i : Nat}
    (hi : i < net.cis.length) : net.assign values net.cis[i] = (values[i]?).getD false := by
  rw [assign, hnodup.idxOf_getElem]

theorem map_assign (hnodup : net.cis.Nodup) {values : List Bool}
    (hlen : values.length = net.numCis) : net.cis.map (net.assign values) = values := by
  apply List.ext_getElem
  · rw [List.length_map, length_cis, hlen]
  · intro i hi hi'
    rw [List.getElem_map, assign_getElem hnodup, List.getElem?_eq_getElem hi']
    rfl

end Network

end LogicSynthesis
