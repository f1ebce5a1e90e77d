import LogicSynthesis.Proofs.Network.DepthFirst
import LogicSynthesis.Proofs.Network.NormalForm

/-!
# Compact networks

The terminals and the live gates of a network, each at its place in the topological order, make a
compact network. Where gates read earlier nodes and symmetric fanins ascend, the topological order
of the compact network is that of its own numbers, although its symmetric fanins were sorted anew.

## Main definitions

- `Network.place`, `Network.moved` — nodes and signals at their places
- `Network.Compacts` — a network holds the live part of another one in this way

## Main statements

- `length_topoOrder` — how many nodes have a place
- `Compacts.live`, `Compacts.numGates` — every gate of a compact network is live
- `Compacts.topoOrder_eq_range` — a compact network is in its own order
-/

namespace LogicSynthesis

/-- The fanins in the order in which a gate of the basis keeps them. -/
def Basis.arrange (basis : Basis) (fanins : List Signal) : List Signal :=
  if basis.isSymmetric then Signal.sort fanins else fanins

namespace Basis

variable {basis : Basis} {fanins fanins' : List Signal}

theorem arrange_perm (basis : Basis) (fanins : List Signal) :
    (basis.arrange fanins).Perm fanins := by
  rw [arrange]
  split
  · exact Signal.sort_perm fanins
  · exact .refl fanins

theorem arrange_arrange (basis : Basis) (fanins : List Signal) :
    basis.arrange (basis.arrange fanins) = basis.arrange fanins := by
  cases hsymmetric : basis.isSymmetric with
  | false => simp [arrange, hsymmetric]
  | true =>
    simp only [arrange, hsymmetric, if_true]
    exact Signal.sort_congr (Signal.sort_perm fanins)

theorem Arranged.pairwise (h : basis.Arranged fanins) (hsymmetric : basis.isSymmetric = true) :
    fanins.Pairwise (·.node < ·.node) := by
  cases basis with
  | andInverter => exact h.1
  | majorityInverter => exact h.1
  | lookupTable => cases hsymmetric

end Basis

namespace Network

variable {net net' : Network} {n m k : NodeId} {before after : List NodeId}
  {fanins fanins' : List Signal} {literal : Nat} {s : Signal}

/-! ### Places -/

/-- The place of a node in the topological order. -/
def place (net : Network) (n : NodeId) : NodeId := net.topoOrder.idxOf n

/-- The signal of the node at the place of its driver. -/
def moved (net : Network) (s : Signal) : Signal := ⟨net.place s.node, s.negated⟩

theorem place_lt (hn : n ∈ net.topoOrder) : net.place n < net.topoOrder.length :=
  List.idxOf_lt_length_iff.mpr hn

theorem place_inj (hn : n ∈ net.topoOrder) : net.place n = net.place m ↔ n = m := List.idxOf_inj hn

theorem map_place_topoOrder (hinv : net.Inventory) :
    net.topoOrder.map net.place = List.range net.topoOrder.length := by
  refine List.ext_getElem (by simp) fun i hi _ => ?_
  rw [List.getElem_map, List.getElem_range]
  exact (nodup_topoOrder hinv).idxOf_getElem i (by simpa using hi)

theorem map_place_terminals (hinv : net.Inventory) :
    net.terminals.map net.place = List.range net.terminals.length := by
  have hmap := map_place_topoOrder hinv
  rw [topoOrder_eq, List.map_append, List.length_append, List.range_add] at hmap
  exact (List.append_inj hmap (by simp)).1

theorem place_lt_terminals_iff : net.place n < net.terminals.length ↔ n ∈ net.terminals := by
  rw [place, topoOrder_eq]
  by_cases hn : n ∈ net.terminals
  · rw [List.idxOf_append_of_mem hn]
    exact List.idxOf_lt_length_iff
  · rw [List.idxOf_append_of_notMem hn]
    exact ⟨fun hlt => absurd hlt (Nat.not_lt.mpr (Nat.le_add_right _ _)), fun h => absurd h hn⟩

/-- The constants stay where they are. -/
theorem place_of_lt (hinv : net.Inventory) (hn : n < net.basis.constants.length) :
    net.place n = n := by
  have hterminals : n < net.terminals.length := by
    rw [terminals, hinv.constants, List.length_append, List.length_range]
    exact Nat.lt_add_right _ hn
  have hget : net.topoOrder[n]? = some n := by
    rw [topoOrder_eq, List.getElem?_append_left hterminals, terminals, hinv.constants,
      List.getElem?_append_left (by rwa [List.length_range]), List.getElem?_range hn]
  obtain ⟨hlt, hget⟩ := List.getElem?_eq_some_iff.mp hget
  have hidx := (nodup_topoOrder hinv).idxOf_getElem n hlt
  rwa [hget] at hidx

/-- The next node of the order has the next place. -/
theorem place_of_topoOrder_eq (hinv : net.Inventory)
    (horder : net.topoOrder = before ++ n :: after) : net.place n = before.length := by
  rw [place, horder, List.idxOf_append_of_notMem (notMem_of_topoOrder_eq hinv horder),
    List.idxOf_cons_self]
  rfl

theorem place_lt_of_topoOrder_eq (horder : net.topoOrder = before ++ after) (hm : m ∈ before) :
    net.place m < before.length := by
  rw [place, horder, List.idxOf_append_of_mem hm]
  exact List.idxOf_lt_length_iff.mpr hm

/-- The signal of a constant is its node. -/
theorem constant_eq_ofNode (hnet : net.WellFormed) (hinv : net.Inventory) {node : Node}
    (hnode : net.nodes[n]? = some node) {v : Bool} (hkind : node.kind = .constant v) :
    net.basis.constants[n]? = some v ∧ net.basis.constant v = .ofNode n := by
  have hn : n < net.basis.constants.length := by
    rw [← List.mem_range, ← hinv.constants, mem_nodesOf]
    exact kindIs_iff.mpr ⟨node, hnode, hkind ▸ rfl⟩
  have hvalue : net.basis.constants[n]? = some v := by
    obtain ⟨node', hnode', hkind'⟩ := hnet.constants n _ (List.getElem?_eq_getElem hn)
    obtain rfl := Option.some.inj (hnode.symm.trans hnode')
    rw [List.getElem?_eq_getElem hn, NodeKind.constant.inj (hkind.symm.trans hkind')]
  refine ⟨hvalue, ?_⟩
  cases hcase : net.basis <;> rw [hcase] at hvalue <;> rcases n with _ | _ | n <;>
    simp [Basis.constants] at hvalue <;> subst hvalue <;> rfl

/-- The inputs stand after the constants, as in every network that begins with as many of each. -/
theorem cis_eq_map_place (hinv : net.Inventory) (hinv' : net'.Inventory)
    (hbasis : net'.basis = net.basis)
    (hterminals : net'.terminals = List.range net.terminals.length) :
    net'.cis = net.cis.map net.place := by
  have hcis : net'.cis = net'.terminals.drop net.basis.constants.length := by
    rw [terminals, hinv'.constants, hbasis, List.drop_left' List.length_range]
  rw [hcis, hterminals, ← map_place_terminals hinv, ← List.map_drop, terminals, hinv.constants,
    List.drop_left' List.length_range]

/-- The signal whose driver has this place. -/
def unmoved (net : Network) (s : Signal) : Signal := ⟨net.topoOrder.getD s.node 0, s.negated⟩

theorem unmoved_moved (hs : s.node ∈ net.topoOrder) : net.unmoved (net.moved s) = s := by
  have hlt := List.idxOf_lt_length_iff.mpr hs
  rw [unmoved, moved, place, List.getD_eq_getElem _ _ hlt, List.getElem_idxOf]

theorem map_unmoved (hfanins : ∀ s ∈ fanins, s.node ∈ net.topoOrder) :
    (fanins.map net.moved).map net.unmoved = fanins := by
  rw [List.map_map]
  exact (List.map_congr_left fun s hs => unmoved_moved (hfanins s hs)).trans (List.map_id fanins)

/-- Arranged fanins are known from those at their places, which are arranged anew. -/
theorem arrange_moved_inj (hfanins : ∀ s ∈ fanins, s.node ∈ net.topoOrder)
    (hfanins' : ∀ s ∈ fanins', s.node ∈ net.topoOrder) (harranged : net.basis.Arranged fanins)
    (harranged' : net.basis.Arranged fanins')
    (h : net.basis.arrange (fanins.map net.moved) = net.basis.arrange (fanins'.map net.moved)) :
    fanins = fanins' := by
  cases hsymmetric : net.basis.isSymmetric with
  | false =>
    rw [Basis.arrange, Basis.arrange, hsymmetric, if_neg Bool.false_ne_true,
      if_neg Bool.false_ne_true] at h
    rw [← map_unmoved hfanins, h, map_unmoved hfanins']
  | true =>
    have hmoved := (Basis.arrange_perm net.basis (fanins.map net.moved)).symm.trans
      ((List.Perm.of_eq h).trans (Basis.arrange_perm _ _))
    have hperm := hmoved.map net.unmoved
    rw [map_unmoved hfanins, map_unmoved hfanins'] at hperm
    refine hperm.eq_of_pairwise (fun a b _ _ hab hba => ?_) (harranged.pairwise hsymmetric)
      (harranged'.pairwise hsymmetric)
    exact absurd hab (Nat.lt_asymm hba)

theorem length_terminals (hinv : net.Inventory) : net.terminals.length =
    net.basis.constants.length + (net.pis.size + net.ros.size) := by
  rw [terminals, List.length_append, hinv.constants, List.length_range, length_cis, numCis]

/-- The gates of the order are the live gates. -/
theorem length_topoOrder (hwf : net.WellFormed) (hac : net.Acyclic) (hinv : net.Inventory) :
    net.topoOrder.length = net.terminals.length + net.liveGates.card := by
  have hgates := countP_isGate_topoOrder hwf hac hinv
  have hterminals : net.terminals.countP net.isGate = 0 := by
    rw [List.countP_eq_zero]
    exact fun n hn hgate => hinv.not_mem_terminals hgate hn
  have hcone : (net.coneOrder net.terminals (net.cos.map Signal.node)).countP net.isGate =
      (net.coneOrder net.terminals (net.cos.map Signal.node)).length := by
    rw [List.countP_eq_length]
    exact fun n hn => (mem_liveGates.mp ((mem_coneOrder_cos_iff hwf hac hinv).mp hn)).1
  rw [topoOrder_eq, List.countP_append, hterminals, hcone] at hgates
  rw [topoOrder_eq, List.length_append]
  omega

theorem mem_topoOrder_of_reads (hwf : net.WellFormed) (hac : net.Acyclic) (hinv : net.Inventory)
    (hn : n ∈ net.topoOrder) (hreads : net.Reads n m) : m ∈ net.topoOrder := by
  obtain ⟨before, after, hsplit⟩ := List.append_of_mem hn
  have hm := mem_of_topoOrder_eq hwf hac hinv hsplit hreads
  rw [hsplit]
  exact List.mem_append_left _ hm

theorem HasGate.fanins_mem_topoOrder (hgate : net.HasGate n fanins literal) (hnet : net.WellFormed)
    (hac : net.Acyclic) (hinv : net.Inventory) (hn : n ∈ net.topoOrder) :
    ∀ s ∈ fanins, s.node ∈ net.topoOrder := fun s hs =>
  mem_topoOrder_of_reads hnet hac hinv hn (hgate.reads_iff.mpr ⟨s, hs, rfl⟩)

/-! ### Walks from the terminals -/

/-- The walk that lists the topological order, after the terminals. -/
def Walk.onTerminals (net : Network) : Walk :=
  { (start net).seeAll net.terminals with order := net.terminals.toArray }

theorem Walk.isNew_onTerminals (hn : n < net.size) :
    (onTerminals net).isNew n = true ↔ n ∉ net.terminals := by
  have hsees : (onTerminals net).Sees n ↔ n ∈ net.terminals ∧ n < net.size := sees_boundary
  have hsize : (onTerminals net).seen.size = net.size := (size_seeAll _ _).trans (size_start net)
  constructor
  · intro hnew hmem
    have hseen := hsees.mpr ⟨hmem, hn⟩
    rw [Sees, isNew_iff.mp hnew] at hseen
    cases hseen
  · intro hnot
    by_contra hnew
    exact hnot (hsees.mp (sees_of_not_isNew (Bool.not_eq_true _ ▸ hnew) (hsize ▸ hn))).1

theorem listedOnce_onTerminals (hinv : net.Inventory) {roots : List NodeId} :
    ListedOnce (roots.map .enter) (Walk.onTerminals net) := by
  have hentered : (Walk.onTerminals net).entered (roots.map .enter) = net.terminals := by
    have hroots : (roots.map Task.enter).filterMap Task.listed? = [] :=
      List.filterMap_eq_nil_iff.mpr (List.forall_mem_map.mpr fun _ _ => rfl)
    rw [Walk.entered, hroots, List.append_nil]
    rfl
  refine ⟨hentered ▸ hinv.nodup_terminals, fun m hm => ?_⟩
  rw [hentered] at hm
  exact Walk.sees_boundary.mpr ⟨hm, lt_size_of_kindIs (hinv.mem_terminals_iff.mp hm)⟩

/-! ### Compact networks -/

/-- `net'` holds the terminals and the live gates of `net`, each at its place in the topological
order. -/
structure Compacts (net net' : Network) : Prop where
  basis : net'.basis = net.basis
  pis : net'.pis.size = net.pis.size
  ros : net'.ros.size = net.ros.size
  pos : net'.pos.toList = net.pos.toList.map net.moved
  ris : net'.ris.toList = net.ris.toList.map net.moved
  size : net'.size = net.topoOrder.length
  terminals : net'.terminals = List.range net.terminals.length
  gate : ∀ {n : NodeId} {fanins : List Signal} {literal : Nat}, n ∈ net.liveGates →
    net.HasGate n fanins literal → ∃ literal',
      net'.HasGate (net.place n) (net.basis.arrange (fanins.map net.moved)) literal' ∧
        net'.functions.get? literal' = net.functions.get? literal
  origin : ∀ {k : NodeId}, net'.isGate k = true → ∃ n ∈ net.liveGates, net.place n = k

namespace Compacts

theorem cos_eq (h : Compacts net net') : net'.cos = net.cos.map net.moved := by
  rw [cos, cos, h.pos, h.ris, List.map_append]

theorem cis_eq (h : Compacts net net') (hinv : net.Inventory) (hinv' : net'.Inventory) :
    net'.cis = net.cis.map net.place := cis_eq_map_place hinv hinv' h.basis h.terminals

theorem perm_faninNodes (h : Compacts net net') (hn : n ∈ net.liveGates) :
    (net'.faninNodes (net.place n)).Perm ((net.faninNodes n).map net.place) := by
  obtain ⟨fanins, literal, hgate⟩ := isGate_iff_hasGate.mp (mem_liveGates.mp hn).1
  obtain ⟨literal', hgate', -⟩ := h.gate hn hgate
  rw [faninNodes, faninNodes, hgate.fanins_eq, hgate'.fanins_eq, List.map_map]
  refine ((Basis.arrange_perm _ _).map _).trans (.of_eq ?_)
  rw [List.map_map]
  rfl

theorem reads (h : Compacts net net') (hn : n ∈ net.liveGates) (hreads : net.Reads n m) :
    net'.Reads (net.place n) (net.place m) :=
  (h.perm_faninNodes hn).mem_iff.mpr (List.mem_map_of_mem hreads)

/-- Every gate of the compact network is live. -/
theorem live (h : Compacts net net') (hwf : net.WellFormed) (hk : net'.isGate k = true) :
    net'.Live k := by
  obtain ⟨n, hn, rfl⟩ := h.origin hk
  obtain ⟨s, hs, hpath⟩ := (mem_liveGates.mp hn).2
  refine ⟨net.moved s, h.cos_eq ▸ List.mem_map_of_mem hs, ?_⟩
  clear hk
  -- Every node on the path but the last reads, and so it is a live gate.
  induction hpath with
  | refl => exact .refl
  | tail hpath hreads ih =>
    have hgate := mem_liveGates.mpr ⟨hwf.isGate_of_reads hreads, s, hs, hpath⟩
    exact (ih hgate).tail (h.reads hgate hreads)

theorem numGates (h : Compacts net net') (hwf : net.WellFormed) (hac : net.Acyclic)
    (hinv : net.Inventory) : net'.numGates = net.liveGates.card := by
  have hlen := length_topoOrder hwf hac hinv
  have hterminals := length_terminals hinv
  rw [Network.numGates, h.basis, h.pis, h.ros, h.size]
  omega

/-- The fanins of a listed node stand at their places, in an order that a walk cannot tell from the
former one. -/
theorem faninsMoved (h : Compacts net net') (hwf : net.WellFormed) (hnet : net.Normal)
    (hinv : net.Inventory) (hwf' : net'.WellFormed) (hinv' : net'.Inventory)
    (hn : n ∈ net.topoOrder) : FaninsMoved net net' net.place n := by
  rcases (mem_topoOrder_iff hwf (hnet.acyclic hwf) hinv).mp hn with hterminal | hn
  · have hnone : ∀ {net : Network} {n : NodeId}, net.WellFormed → net.isTerminal n = true →
        net.faninNodes n = [] := by
      intro net n hwf hterminal
      rw [List.eq_nil_iff_forall_not_mem]
      intro m hreads
      have hgate := hwf.isGate_of_reads hreads
      rw [isTerminal_eq_not_isGate (lt_size_of_kindIs hgate), hgate] at hterminal
      cases hterminal
    have hterminal' : net'.isTerminal (net.place n) = true := by
      rw [← hinv'.mem_terminals_iff, h.terminals, List.mem_range, place_lt_terminals_iff,
        hinv.mem_terminals_iff]
      exact hterminal
    exact .inl (by rw [hnone hwf hterminal, hnone hwf' hterminal']; rfl)
  · obtain ⟨fanins, literal, hgate⟩ := isGate_iff_hasGate.mp (mem_liveGates.mp hn).1
    obtain ⟨literal', hgate', -⟩ := h.gate hn hgate
    cases hsymmetric : net.basis.isSymmetric with
    | false =>
      left
      rw [faninNodes, faninNodes, hgate.fanins_eq, hgate'.fanins_eq, Basis.arrange, hsymmetric,
        if_neg Bool.false_ne_true, List.map_map, List.map_map]
      rfl
    | true =>
      refine .inr ⟨h.perm_faninNodes hn, ?_, ?_⟩
      · rw [faninNodes, hgate'.fanins_eq, Basis.arrange, if_pos hsymmetric, List.pairwise_map]
        exact (Signal.pairwise_sort _).imp Signal.node_le_of_le
      · rw [faninNodes, hgate.fanins_eq, List.pairwise_map]
        exact (hnet.arranged hgate).pairwise hsymmetric

/-- The order of a compact network is that of its numbers. -/
theorem topoOrder_eq_range (h : Compacts net net') (hwf : net.WellFormed) (hnet : net.Normal)
    (hinv : net.Inventory) (hwf' : net'.WellFormed) (hinv' : net'.Inventory) :
    net'.topoOrder = List.range net'.size := by
  have hac := hnet.acyclic hwf
  have halike : Alike net.topoOrder (Walk.onTerminals net) (Walk.onTerminals net') := by
    refine ⟨fun n hn => ?_, ?_⟩
    · have hplace : net.place n < net'.size := h.size ▸ place_lt hn
      have hlt := lt_size_of_mem_topoOrder hwf hac hinv hn
      rw [Bool.eq_iff_iff, Walk.isNew_onTerminals hlt]
      refine (Walk.isNew_onTerminals hplace).trans ?_
      rw [h.terminals, List.mem_range, place_lt_terminals_iff]
    · exact h.terminals.trans (map_place_terminals hinv).symm
  have hroots : ∀ task ∈ (net.cos.map Signal.node).map Task.enter,
      task.node ∈ net.topoOrder := by
    intro task htask
    obtain ⟨n, hn, rfl⟩ := List.mem_map.mp htask
    obtain ⟨s, hs, rfl⟩ := List.mem_map.mp hn
    exact output_mem_topoOrder hwf hac hinv hs
  have hdone := walk_alike (fun n m => hnet.reads_lt hwf)
    (fun n hn m => mem_topoOrder_of_reads hwf hac hinv hn)
    (fun n hn => h.faninsMoved hwf hnet hinv hwf' hinv' hn) rfl
    (listedOnce_onTerminals hinv) hroots (halike.pending hroots) halike
  have hcos : ((net.cos.map Signal.node).map Task.enter).map (Task.renumber net.topoOrder.idxOf) =
      (net'.cos.map Signal.node).map Task.enter := by
    rw [h.cos_eq, List.map_map, List.map_map, List.map_map, List.map_map]
    rfl
  rw [hcos] at hdone
  refine Eq.trans hdone ?_
  rw [h.size]
  exact map_place_topoOrder hinv

end Compacts

end Network

end LogicSynthesis
