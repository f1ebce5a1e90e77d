import LogicSynthesis.Proofs.Network.Built

/-!
# Replacing a gate by an equivalent signal

When a signal has the value of a gate under every assignment, and does not depend on the gate, it
can take the gate's place: the network stays acyclic, every node and every output keeps its value,
and nothing reads the gate any more. Ids need not be in topological order for that.

## Main statements

- `replacing_preserves_values` — what such a replacement keeps
-/

namespace LogicSynthesis.Network

variable {net : Network} {old : NodeId} {new : Signal}

/-- A signal of equal value that does not depend on a gate replaces it everywhere, and every value
stays as it is. -/
theorem replacing_preserves_values (hbuilt : net.Built) (hac : net.Acyclic)
    (hold : net.isGate old = true) (hnew : new.node < net.size) (hne : new.node ≠ old)
    (hfree : ¬ Relation.TransGen net.Reads new.node old)
    (hequal : ∀ inputs, net.signalValue inputs new = net.value inputs old) :
    ∃ net', net.substitute old new = .ok net' ∧ net'.Acyclic ∧ net'.size = net.size ∧
      net'.pis = net.pis ∧ net'.ros = net.ros ∧
      (∀ inputs n, net'.value inputs n = net.value inputs n) ∧
      (∀ inputs, net'.pos.map (net'.signalValue inputs) = net.pos.map (net.signalValue inputs)) ∧
      (∀ inputs, net'.ris.map (net'.signalValue inputs) = net.ris.map (net.signalValue inputs)) ∧
      ∀ s ∈ net'.edges, s.node ≠ old := by
  have hwf := hbuilt.wellFormed
  obtain ⟨net', hrun, hspec, -⟩ := exists_substitute hwf hold hnew hne
  have hpath : ¬ Relation.ReflTransGen net.Reads new.node old := by
    rw [Relation.reflTransGen_iff_eq_or_transGen]
    rintro (heq | hpath)
    · exact hne heq.symm
    · exact hfree hpath
  have hac' := hspec.acyclic hac hpath
  have hval : ∀ inputs, net.value inputs old = net.signalValue inputs new :=
    fun inputs => (hequal inputs).symm
  refine ⟨net', hrun, hac', hspec.size, hspec.pis, hspec.ros, ?_, ?_, ?_, ?_⟩
  · exact fun inputs n => hspec.value_eq hwf hac hac' (hval inputs) n
  · intro inputs
    rw [hspec.pos]
    exact hspec.map_signalValue_redirect hwf hac hac' (hval inputs) net.pos
  · intro inputs
    rw [hspec.ris]
    exact hspec.map_signalValue_redirect hwf hac hac' (hval inputs) net.ris
  · exact fun s hs => hspec.node_ne_of_mem_edges hne (fun hreads => hfree (.single hreads)) hs

/-! ### A redundant gate -/

/-- A conjunction of two inputs, and one of them with that conjunction once more. The output is the
complement of the second gate. -/
def redundantConjunction : Network :=
  let net := (innerConjunction.appendGate [⟨1, false⟩, ⟨4, false⟩] Basis.gateLiteral).2
  { net with
    nodes := countReader net.nodes 5
    pos := #[⟨5, true⟩] }

theorem built_redundantConjunction : redundantConjunction.Built :=
  .addPo (built_innerConjunction.appendPair rfl (by cbv) (by decide))
    (addPo_eq (s := ⟨5, true⟩) (by decide))

theorem acyclic_redundantConjunction : redundantConjunction.Acyclic :=
  acyclic_of_ordered (by decide)

/-- A gate of two fanins over the conjunction basis has the value of their conjunction. -/
theorem value_of_conjunction (hnet : net.Proper) (hbasis : net.basis = .andInverter) {n : NodeId}
    {node : Node} (hnode : net.nodes[n]? = some node) (hkind : node.kind = .gate) {a b : Signal}
    (hfanins : node.fanins = [a, b]) (inputs : Assignment) :
    net.value inputs n = (net.signalValue inputs a && net.signalValue inputs b) := by
  have hfunction : net.basis.gateFunction? =
      some ((TruthTable.proj 2 0).and (TruthTable.proj 2 1)) := by rw [hbasis]; rfl
  rw [value_of_gate hnet.acyclic hnode hkind,
    (hnet.wellFormed.functionOf_eq hfunction hnode hkind).1, hfanins]
  exact Build.bit_andTable _ _

/-- The second gate has the value of the first, which takes its place at the output. -/
theorem replacing_preserves_redundantConjunction : ∃ net',
    redundantConjunction.substitute 5 ⟨4, false⟩ = .ok net' ∧
      (∀ inputs, net'.pos.map (net'.signalValue inputs) =
        redundantConjunction.pos.map (redundantConjunction.signalValue inputs)) ∧
      ∀ s ∈ net'.edges, s.node ≠ 5 := by
  have hbuilt := built_redundantConjunction
  have hac := acyclic_redundantConjunction
  have hnet : redundantConjunction.Proper := ⟨hbuilt.wellFormed, hac⟩
  have hequal : ∀ inputs, redundantConjunction.signalValue inputs ⟨4, false⟩ =
      redundantConjunction.value inputs 5 := by
    intro inputs
    have hsignal : redundantConjunction.signalValue inputs ⟨4, false⟩ =
        redundantConjunction.value inputs 4 := Bool.xor_false _
    have hfirst := value_of_conjunction hnet rfl (n := 4) rfl rfl rfl inputs
    have hsecond := value_of_conjunction hnet rfl (n := 5) rfl rfl rfl inputs
    rw [hsecond, hsignal, hfirst, ← Bool.and_assoc, Bool.and_self]
  have hordered : ∀ n m, redundantConjunction.Reads n m → m < n := by
    have hall : ∀ n ∈ redundantConjunction.nodeIds, ∀ m ∈ redundantConjunction.faninNodes n,
        m < n := by decide
    exact fun n m hreads => hall n (List.mem_range.mpr hreads.lt_size) m hreads
  have hfree : ¬ Relation.TransGen redundantConjunction.Reads 4 5 :=
    fun hpath => absurd (rank_lt_of_transGen id hordered hpath) (by decide)
  obtain ⟨net', hrun, -, -, -, -, -, hpos, -, hgone⟩ :=
    @replacing_preserves_values _ 5 ⟨4, false⟩ hbuilt hac (by decide) (by decide) (by decide) hfree
      hequal
  exact ⟨net', hrun, hpos, hgone⟩

end LogicSynthesis.Network
