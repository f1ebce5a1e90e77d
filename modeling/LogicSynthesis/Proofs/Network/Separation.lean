import LogicSynthesis.Proofs.Network.WellFormed

/-!
# Separation from the inputs

Some nodes separate a node from the inputs of the network when every fanin path from it to an input
meets one of them. Paths that end in a constant or in a gate do not count.

## Main definitions

- `Network.FaninPath` — the paths along fanins, both ends included
- `Network.Separates` — the nodes that every path to an input meets

## Main statements

- `separates_iff` — a node is separated by itself or through everything that it reads
- `separates_of_region` — a region that ends at the barrier and holds no input beyond it
-/

namespace LogicSynthesis.Network

variable {net : Network} {n m k : NodeId} {path : List NodeId} {barrier barrier' : Finset NodeId}

/-- A path from `n` to `m` on which every node reads the next one. -/
structure FaninPath (net : Network) (n m : NodeId) (path : List NodeId) : Prop where
  chain : path.IsChain net.Reads
  first : path.head? = some n
  last : path.getLast? = some m

/-- Every fanin path from `n` to an input of the network meets the barrier. -/
def Separates (net : Network) (barrier : Finset NodeId) (n : NodeId) : Prop :=
  ∀ m path, net.isInput m = true → net.FaninPath n m path → ∃ l ∈ path, l ∈ barrier

/-! ### Paths -/

theorem faninPath_self (net : Network) (n : NodeId) : net.FaninPath n n [n] :=
  ⟨List.isChain_singleton n, rfl, rfl⟩

theorem FaninPath.cons (h : net.FaninPath m k path) (hreads : net.Reads n m) :
    net.FaninPath n k (n :: path) := by
  refine ⟨h.chain.cons fun l hl => ?_, rfl, ?_⟩
  · obtain rfl := Option.some.inj (h.first.symm.trans hl)
    exact hreads
  · rw [List.getLast?_cons, h.last, Option.getD_some]

/-- A path stays where it is, or goes on from something that its first node reads. -/
theorem FaninPath.cases_first (h : net.FaninPath n k path) :
    path = [n] ∧ k = n ∨ ∃ m rest, path = n :: rest ∧ net.Reads n m ∧ net.FaninPath m k rest := by
  obtain ⟨hchain, hfirst, hlast⟩ := h
  match path with
  | [] => cases hfirst
  | [l] =>
    obtain rfl := Option.some.inj hfirst
    exact .inl ⟨rfl, (Option.some.inj hlast).symm⟩
  | l :: m :: rest =>
    obtain rfl := Option.some.inj hfirst
    obtain ⟨hreads, hchain⟩ := List.isChain_cons_cons.mp hchain
    exact .inr ⟨m, m :: rest, rfl, hreads, hchain, rfl, by rwa [List.getLast?_cons_cons] at hlast⟩

/-! ### Separation -/

theorem isInput_of_isGate (h : net.isGate n = true) : net.isInput n = false := by
  obtain ⟨node, hnode, hkind⟩ := isGate_iff.mp h
  rw [isInput, kindIs_eq hnode, hkind]
  rfl

/-- A region that is left only past the barrier, and in which no node outside the barrier is an
input, is separated by the barrier. -/
theorem separates_of_region (region : NodeId → Prop)
    (hreads : ∀ n m, region n → n ∉ barrier → net.Reads n m → region m)
    (hinput : ∀ n, region n → n ∉ barrier → net.isInput n = false) (hn : region n) :
    net.Separates barrier n := by
  intro k path hk hpath
  induction path generalizing n with
  | nil => cases hpath.first
  | cons l path ih =>
    obtain rfl : l = n := Option.some.inj hpath.first
    by_cases hl : l ∈ barrier
    · exact ⟨l, List.mem_cons_self, hl⟩
    rcases hpath.cases_first with ⟨-, rfl⟩ | ⟨m, rest, heq, hstep, hrest⟩
    · rw [hinput k hn hl] at hk
      cases hk
    · obtain rfl := (List.cons.inj heq).2
      obtain ⟨i, hi, hmem⟩ := ih (hreads l m hn hl hstep) hrest
      exact ⟨i, List.mem_cons_of_mem _ hi, hmem⟩

/-- A node is separated by itself, or it is no input and all that it reads is separated. -/
theorem separates_iff : net.Separates barrier n ↔
    n ∈ barrier ∨ net.isInput n = false ∧ ∀ m, net.Reads n m → net.Separates barrier m := by
  constructor
  · intro h
    by_cases hn : n ∈ barrier
    · exact .inl hn
    refine .inr ⟨?_, fun m hreads k path hk hpath => ?_⟩
    · rw [← Bool.not_eq_true]
      intro hinput
      obtain ⟨l, hl, hmem⟩ := h n [n] hinput (faninPath_self net n)
      exact hn (List.mem_singleton.mp hl ▸ hmem)
    · obtain ⟨l, hl, hmem⟩ := h k (n :: path) hk (hpath.cons hreads)
      rcases List.mem_cons.mp hl with rfl | hl
      · exact absurd hmem hn
      · exact ⟨l, hl, hmem⟩
  · rintro (hn | ⟨hinput, hreads⟩) k path hk hpath
    · exact ⟨n, List.mem_of_head? hpath.first, hn⟩
    · rcases hpath.cases_first with ⟨-, rfl⟩ | ⟨m, rest, rfl, hstep, hrest⟩
      · rw [hinput] at hk
        cases hk
      · obtain ⟨l, hl, hmem⟩ := hreads m hstep k rest hk hrest
        exact ⟨l, List.mem_cons_of_mem _ hl, hmem⟩

/-- No path leads from a constant to an input. -/
theorem separates_of_isConstant (hwf : net.WellFormed) (h : net.isConstant n = true) :
    net.Separates barrier n := by
  obtain ⟨node, hnode, hkind⟩ := kindIs_iff.mp h
  have hterminal : node.kind.isInput = false ∧ node.kind ≠ .gate := by
    revert hkind
    cases node.kind <;> simp [NodeKind.isConstant, NodeKind.isInput]
  refine separates_iff.mpr (.inr ⟨(kindIs_eq hnode).trans hterminal.1, fun m hreads => ?_⟩)
  rw [reads_iff, fanins_eq hnode, hwf.terminal n node hnode hterminal.2] at hreads
  obtain ⟨s, hs, -⟩ := hreads
  cases hs

/-- Among inputs alone, only the input itself separates an input that is reached. -/
theorem Separates.mem_of_inputs (h : net.Separates barrier n) (hwf : net.WellFormed)
    (hbarrier : ∀ l ∈ barrier, net.isInput l = true) (hpath : Relation.ReflTransGen net.Reads n m)
    (hm : net.isInput m = true) : m ∈ barrier := by
  induction hpath using Relation.ReflTransGen.head_induction_on with
  | refl =>
    refine (separates_iff.mp h).resolve_right fun hsplit => ?_
    rw [hsplit.1] at hm
    cases hm
  | head hreads _ ih =>
    rcases separates_iff.mp h with hmem | ⟨-, hfanins⟩
    · have hinput := isInput_of_isGate (hwf.isGate_of_reads hreads)
      rw [hbarrier _ hmem] at hinput
      cases hinput
    · exact ih (hfanins _ hreads)

theorem Separates.mono (h : net.Separates barrier n) (hsub : barrier ⊆ barrier') :
    net.Separates barrier' n := by
  intro k path hk hpath
  obtain ⟨l, hl, hmem⟩ := h k path hk hpath
  exact ⟨l, hl, hsub hmem⟩

end LogicSynthesis.Network
