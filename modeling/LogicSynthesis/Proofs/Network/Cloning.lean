import LogicSynthesis.Proofs.Network.Assembly

/-!
# Copies of gates

A gate that is made anew over other fanins, in a network of the same basis, has the function of the
gate it is copied from. Folding, sorting and sharing change how the function is realized, but at
most one gate is added for it.

## Main statements

- `computes_cloneNode` — the value of a copy
- `size_cloneNode_le` — its cost
-/

namespace LogicSynthesis.Build

open Network

variable {src net net' : Network} {n : NodeId} {fanins : List Signal} {s : Signal}

theorem size_createNode_le {literal : Nat} (h : net.createNode fanins literal = .ok (n, net')) :
    net'.size ≤ net.size + 1 := by
  rcases createNode_eq_ok h with ⟨-, rfl⟩ | ⟨-, rfl, -⟩
  · exact Nat.le_succ _
  · exact (size_appendGate net fanins literal).le

theorem size_cloneNode_le (h : cloneNode src n fanins net = .ok (s, net')) :
    net'.size ≤ net.size + 1 := by
  cases hbasis : net.basis with
  | andInverter =>
    obtain ⟨a, b, -, hrun⟩ := cloneNode_andInverter hbasis h
    rcases conjunction_eq_ok hrun with rfl | ⟨fanins, m, -, -, hcreate⟩
    · exact Nat.le_succ _
    · exact size_createNode_le hcreate
  | majorityInverter =>
    obtain ⟨a, b, c, -, hrun⟩ := cloneNode_majorityInverter hbasis h
    rcases majority_eq_ok hrun with rfl | ⟨fanins, m, -, -, hcreate⟩
    · exact Nat.le_succ _
    · exact size_createNode_le hcreate
  | lookupTable =>
    obtain ⟨t, -, hlut⟩ := cloneNode_lookupTable hbasis h
    obtain ⟨-, rfl | ⟨-, m, hcreate⟩⟩ := lut_eq_ok hlut
    · exact Nat.le_succ _
    · have hle := size_createNode_le hcreate
      exact hle

/-- The copy of a gate has the value of its function at the values of the new fanins. -/
theorem computes_cloneNode (hsrc : src.WellFormed) {node : Node} (hn : src.nodes[n]? = some node)
    (hkind : node.kind = .gate) (hnet : net.Proper) (hbasis : net.basis = src.basis)
    (hlen : fanins.length = node.fanins.length) (hlt : ∀ s ∈ fanins, s.node < net.size) :
    (cloneNode src n fanins).Computes net fun inputs =>
      (src.functionOf node).bit (codeOf (fanins.map (net.signalValue inputs))) := by
  rw [Computes, Grows, cloneNode, get_run]
  cases hcase : net.basis with
  | andInverter =>
    obtain ⟨hfunction, hvars⟩ := hsrc.functionOf_eq
      (show src.basis.gateFunction? = some _ by rw [← hbasis, hcase]; rfl) hn hkind
    obtain ⟨a, b, rfl⟩ := List.length_eq_two.mp (hlen.trans hvars)
    rw [hfunction]
    apply (computes_and hnet (drives_self (hlt a _)) (drives_self (hlt b _))).of_eq
    · exact fun inputs => (bit_andTable _ _).symm
    · exact List.mem_cons_self
    · exact List.mem_cons_of_mem _ List.mem_cons_self
  | majorityInverter =>
    obtain ⟨hfunction, hvars⟩ := hsrc.functionOf_eq
      (show src.basis.gateFunction? = some _ by rw [← hbasis, hcase]; rfl) hn hkind
    obtain ⟨a, b, c, rfl⟩ := List.length_eq_three.mp (hlen.trans hvars)
    rw [hfunction]
    apply (computes_maj hnet (drives_self (hlt a _)) (drives_self (hlt b _))
      (drives_self (hlt c _))).of_eq
    · exact fun inputs => (bit_majTable _ _ _).symm
    · simp
    · simp
    · simp
  | lookupTable =>
    obtain ⟨t, ht, hcanonical, hvars⟩ := hsrc.exists_function hn hkind
    have hfunction : src.functionOf node = t := by
      rw [functionOf, ht]
      rfl
    simp only [bind_run (ask_run (nodeFunction_eq hn ht))]
    rw [hfunction]
    exact computes_lut hnet hcase hcanonical (hlen.trans hvars.symm) hlt

end LogicSynthesis.Build
