import LogicSynthesis.Proofs.Network.Built

/-!
# The nodes of each kind

The constants of a network come first, and its lists of inputs hold the nodes of their kind, all of
them and in the order of creation. What is left are the gates. Constructions keep this, and so do
substitutions, which change no kind.

## Main definitions

- `Network.nodesOf` — the nodes of some kinds, in ascending order
- `Network.Inventory` — the lists of a network are complete

## Main statements

- `Built.inventory` — the lists of a built network are complete
- `Inventory.numGates_eq` — the number of gates
- `Inventory.mem_cis`, `Inventory.nodup_cis` — the combinational inputs
-/

namespace LogicSynthesis.Network

variable {net net' : Network} {p : NodeKind → Bool} {n : NodeId}

/-- The nodes of some kinds, in ascending order. -/
def nodesOf (net : Network) (p : NodeKind → Bool) : List NodeId := net.nodeIds.filter (net.kindIs p)

theorem mem_nodesOf : n ∈ net.nodesOf p ↔ net.kindIs p n = true := by
  rw [nodesOf, List.mem_filter, nodeIds, List.mem_range, and_iff_right_iff_imp]
  exact lt_size_of_kindIs

theorem nodup_nodesOf (net : Network) (p : NodeKind → Bool) : (net.nodesOf p).Nodup :=
  List.nodup_range.filter _

/-- The constants come first, and the inputs are listed in the order of their creation. -/
structure Inventory (net : Network) : Prop where
  constants : net.nodesOf NodeKind.isConstant = List.range net.basis.constants.length
  pis : net.nodesOf (· == .primaryInput) = net.pis.toList
  ros : net.nodesOf (· == .registerOutput) = net.ros.toList

/-! ### Constructions and substitutions -/

theorem nodesOf_congr (hsize : net'.size = net.size)
    (hkinds : ∀ p n, net'.kindIs p n = net.kindIs p n) : net'.nodesOf p = net.nodesOf p := by
  rw [nodesOf, nodesOf, nodeIds, nodeIds, hsize]
  exact List.filter_congr fun n _ => hkinds p n

theorem nodesOf_push {node : Node}
    (hnodes : net'.nodes = (countReaders net.nodes node.fanins).push node) (p : NodeKind → Bool) :
    net'.nodesOf p = net.nodesOf p ++ if p node.kind then [net.size] else [] := by
  have hsize : net'.size = net.size + 1 := by
    rw [size, hnodes, Array.size_push, size_countReaders, size]
  rw [nodesOf, nodeIds, hsize, List.range_succ, List.filter_append, List.filter_singleton,
    kindIs_push hnodes, if_pos rfl, nodesOf, nodeIds]
  congr 1
  · apply List.filter_congr
    intro n hn
    rw [kindIs_push hnodes, if_neg (List.mem_range.mp hn).ne]
  · cases p node.kind <;> rfl

theorem Inventory.congr (h : net.Inventory) (hsize : net'.size = net.size)
    (hkinds : ∀ p n, net'.kindIs p n = net.kindIs p n) (hbasis : net'.basis = net.basis)
    (hpis : net'.pis = net.pis) (hros : net'.ros = net.ros) : net'.Inventory := by
  refine ⟨?_, ?_, ?_⟩
  · rw [nodesOf_congr hsize hkinds, h.constants, hbasis]
  · rw [nodesOf_congr hsize hkinds, h.pis, hpis]
  · rw [nodesOf_congr hsize hkinds, h.ros, hros]

theorem Inventory.push (h : net.Inventory) {node : Node}
    (hnodes : net'.nodes = (countReaders net.nodes node.fanins).push node)
    (hbasis : net'.basis = net.basis) (hkind : node.kind.isConstant = false)
    (hpis : net'.pis.toList =
      net.pis.toList ++ if node.kind == .primaryInput then [net.size] else [])
    (hros : net'.ros.toList =
      net.ros.toList ++ if node.kind == .registerOutput then [net.size] else []) :
    net'.Inventory := by
  refine ⟨?_, ?_, ?_⟩
  · rw [nodesOf_push hnodes, h.constants, hbasis, hkind, if_neg Bool.false_ne_true, List.append_nil]
  · rw [nodesOf_push hnodes, h.pis, hpis]
  · rw [nodesOf_push hnodes, h.ros, hros]

theorem inventory_new (basis : Basis) : (new basis).Inventory := by
  cases basis <;> exact ⟨by decide, by decide, by decide⟩

theorem Inventory.addOutput (h : net.Inventory) {s : Signal} (hadd : net.AddsOutput s net') :
    net'.Inventory :=
  h.congr hadd.size (kindIs_countReaders hadd.nodes) hadd.basis hadd.pis hadd.ros

theorem Inventory.createNode (h : net.Inventory) {fanins : List Signal} {literal : Nat}
    (hcreate : net.createNode fanins literal = .ok (n, net')) : net'.Inventory := by
  rcases createNode_eq_ok hcreate with ⟨-, rfl⟩ | ⟨-, rfl, -⟩
  · exact h
  · exact @Inventory.push net _ h { kind := .gate, fanins, function := literal, fanout := 0 } rfl
      rfl rfl (List.append_nil _).symm (List.append_nil _).symm

theorem Inventory.substituted (h : net.Inventory) {old : NodeId} {new : Signal}
    (hsub : Substituted net old new net') : net'.Inventory :=
  h.congr hsub.size hsub.kindIs_eq hsub.basis hsub.pis hsub.ros

theorem Built.inventory (h : net.Built) : net.Inventory := by
  induction h with
  | new basis => exact inventory_new basis
  | @addPi net _ ih =>
    refine @Inventory.push net _ ih (inputNode .primaryInput) rfl rfl rfl ?_
      (List.append_nil _).symm
    exact Array.toList_push
  | @addRo net _ ih =>
    refine @Inventory.push net _ ih (inputNode .registerOutput) rfl rfl rfl
      (List.append_nil _).symm ?_
    exact Array.toList_push
  | addPo _ hadd ih => exact ih.addOutput (addsOutput_of_addPo hadd)
  | addRi _ hadd ih => exact ih.addOutput (addsOutput_of_addRi hadd)
  | gate _ _ hcreate ih => exact ih.createNode hcreate
  | function _ _ ih => exact ih.congr rfl (fun _ _ => rfl) rfl rfl rfl
  | substitute former hsub ih =>
    rcases (substitute_spec former.wellFormed hsub).2 with ⟨-, rfl⟩ | ⟨-, -, hspec, -⟩
    · exact ih
    · exact ih.substituted hspec
  | annotate _ _ _ ih => exact ih.congr rfl (fun _ _ => rfl) rfl rfl rfl
  | watch _ _ ih => exact ih.congr rfl (fun _ _ => rfl) rfl rfl rfl

/-! ### Counting and listing -/

theorem length_nodesOf (net : Network) (p : NodeKind → Bool) :
    (net.nodesOf p).length = net.nodeIds.countP (net.kindIs p) := List.countP_eq_length_filter.symm

/-- Every node is a constant, an input or a gate. -/
theorem size_eq_nodesOf (net : Network) : net.size = (net.nodesOf NodeKind.isConstant).length +
    (net.nodesOf (· == .primaryInput)).length + (net.nodesOf (· == .registerOutput)).length +
      (net.nodesOf NodeKind.isGate).length := by
  have hcount : ∀ ns : List NodeId, (∀ n ∈ ns, n < net.size) → ns.length =
      ns.countP (net.kindIs NodeKind.isConstant) + ns.countP (net.kindIs (· == .primaryInput)) +
        ns.countP (net.kindIs (· == .registerOutput)) + ns.countP (net.kindIs NodeKind.isGate) := by
    intro ns
    induction ns with
    | nil => simp
    | cons n ns ih =>
      intro hlt
      obtain ⟨node, hnode⟩ := exists_node (hlt n List.mem_cons_self)
      have hrest := ih fun m hm => hlt m (List.mem_cons_of_mem n hm)
      simp only [List.length_cons, List.countP_cons, kindIs_eq hnode]
      cases node.kind <;> simp [NodeKind.isConstant, NodeKind.isGate] <;> omega
  have hall := hcount net.nodeIds fun n hn => List.mem_range.mp hn
  rw [nodeIds, List.length_range] at hall
  simp only [length_nodesOf]
  exact hall

namespace Inventory

theorem numGates_eq (h : net.Inventory) :
    net.numGates = (net.nodeIds.filter net.isGate).length := by
  have hsize := size_eq_nodesOf net
  simp only [h.constants, h.pis, h.ros, List.length_range, Array.length_toList] at hsize
  have hgates : net.nodesOf NodeKind.isGate = net.nodeIds.filter net.isGate := rfl
  rw [numGates, ← hgates]
  omega

theorem mem_pis (h : net.Inventory) : n ∈ net.pis.toList ↔ net.kindIs (· == .primaryInput) n := by
  rw [← h.pis, mem_nodesOf]

theorem mem_ros (h : net.Inventory) : n ∈ net.ros.toList ↔ net.kindIs (· == .registerOutput) n := by
  rw [← h.ros, mem_nodesOf]

theorem mem_cis (h : net.Inventory) : n ∈ net.cis ↔ net.isInput n = true := by
  rw [cis, List.mem_append, h.mem_pis, h.mem_ros, isInput, kindIs_iff, kindIs_iff, kindIs_iff,
    ← exists_or]
  refine exists_congr fun node => ?_
  rw [← and_or_left]
  refine and_congr_right fun _ => ?_
  cases node.kind <;> simp [NodeKind.isInput]

theorem nodup_cis (h : net.Inventory) : net.cis.Nodup := by
  rw [cis, ← h.pis, ← h.ros]
  refine (nodup_nodesOf net _).append (nodup_nodesOf net _) ?_
  intro n hpi hro
  obtain ⟨node, hnode, hkind⟩ := kindIs_iff.mp (mem_nodesOf.mp hpi)
  have hro := mem_nodesOf.mp hro
  rw [kindIs_eq hnode, eq_of_beq hkind] at hro
  cases hro

end Inventory

end LogicSynthesis.Network
