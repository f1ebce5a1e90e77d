import LogicSynthesis.Proofs.Network.Assembly
import LogicSynthesis.Proofs.Network.Inventory

/-!
# The books of a network

Beside its nodes a network keeps books: how many edges read each node, how many gates there are,
and an index that leads from fanins and a function to their gate. Every operation keeps them exact,
also a substitution that closes a cycle, and also one whose replacing node reads the replaced gate.

## Main definitions

- `Network.faninPlaces` — the places in the fanins of gates at which a node is read
- `Network.released` — the number of edges that a substitution takes from the replaced gate

## Main statements

- `Built.not_reads_self` — no node reads itself
- `counters_exact` — the counts of an assembled network are those of its edges and nodes
- `index_never_stale` — the index of an assembled network leads to the gates of its keys
-/

namespace LogicSynthesis.Network

variable {net net' : Network} {n m : NodeId}

/-! ### Nodes that read themselves -/

/-- No node reads itself: a gate reads earlier nodes when it is created, and a substitution leaves
the replacing node alone. -/
theorem Built.not_reads_self (h : net.Built) (n : NodeId) : ¬ net.Reads n n := by
  induction h with
  | new basis => exact not_reads_new
  | @addPi net _ ih =>
    exact fun hreads => ih (@reads_of_push net _ (inputNode .primaryInput) rfl rfl _ _ hreads)
  | @addRo net _ ih =>
    exact fun hreads => ih (@reads_of_push net _ (inputNode .registerOutput) rfl rfl _ _ hreads)
  | addPo _ hadd ih =>
    exact fun hreads => ih ((reads_countReaders_iff (addsOutput_of_addPo hadd).nodes).mp hreads)
  | addRi _ hadd ih =>
    exact fun hreads => ih ((reads_countReaders_iff (addsOutput_of_addRi hadd).nodes).mp hreads)
  | @gate net net' _ _ _ former _ hcreate ih =>
    have hext := extends_createNode former.wellFormed hcreate
    intro hreads
    by_cases hn : n < net.size
    · exact ih ((hext.reads_iff hn).mp hreads)
    · exact lt_irrefl n (hext.lt_of_reads (Nat.not_lt.mp hn) hreads)
  | function _ _ ih => exact ih
  | substitute former hsub ih =>
    rcases (substitute_spec former.wellFormed hsub).2 with ⟨-, rfl⟩ | ⟨-, -, hspec, -⟩
    · exact ih
    · intro hreads
      rcases hspec.reads hreads with hreads | ⟨hne, -, heq⟩
      · exact ih hreads
      · exact hne heq
  | annotate _ _ _ ih => exact ih
  | watch _ _ ih => exact ih

/-! ### Counts -/

/-- The gates that read `n`, with the position of each fanin that does. -/
def faninPlaces (net : Network) (n : NodeId) : List (NodeId × Nat) :=
  (net.nodeIds.filter net.isGate).flatMap fun gate =>
    ((net.fanins gate).zipIdx.filter fun place => place.1.node == n).map fun place =>
      (gate, place.2)

theorem sum_map_filter {α : Type} (as : List α) (p : α → Bool) (f : α → Nat)
    (hzero : ∀ a ∈ as, p a = false → f a = 0) : ((as.filter p).map f).sum = (as.map f).sum := by
  induction as with
  | nil => rfl
  | cons a as ih =>
    have hrest := ih fun b hb => hzero b (List.mem_cons_of_mem a hb)
    cases hp : p a with
    | true => rw [List.filter_cons_of_pos hp, List.map_cons, List.map_cons, List.sum_cons,
        List.sum_cons, hrest]
    | false => rw [List.filter_cons_of_neg (by simp [hp]), List.map_cons, List.sum_cons, hrest,
        hzero a List.mem_cons_self hp, Nat.zero_add]

theorem length_faninPlaces (h : net.WellFormed) (n : NodeId) :
    (net.faninPlaces n).length = faninReaders net.nodes n := by
  have hplaces : ∀ fanins : List Signal,
      (fanins.zipIdx.filter fun place => place.1.node == n).length =
        fanins.countP (·.node == n) := by
    intro fanins
    rw [← List.countP_eq_length_filter]
    nth_rewrite 2 [← List.zipIdx_map_fst 0 fanins]
    rw [List.countP_map]
    rfl
  -- Only gates have fanins, so all nodes together have as many places as the gates.
  have hterminal : ∀ g ∈ net.nodeIds, net.isGate g = false →
      (net.fanins g).countP (·.node == n) = 0 := by
    intro g hg hgate
    obtain ⟨node, hnode⟩ := exists_node (List.mem_range.mp hg)
    have hkind : node.kind ≠ .gate := by
      intro hkind
      rw [isGate_iff.mpr ⟨node, hnode, hkind⟩] at hgate
      cases hgate
    rw [fanins_eq hnode, h.terminal g node hnode hkind]
    rfl
  have hnodes : net.nodeIds.map (fun g => (net.fanins g).countP (·.node == n)) =
      net.nodes.toList.map fun node => node.fanins.countP (·.node == n) := by
    apply List.ext_getElem?
    intro g
    have htoList : net.nodes.toList[g]? = net.nodes[g]? := Array.getElem?_toList
    rw [List.getElem?_map, List.getElem?_map, htoList, nodeIds]
    by_cases hg : g < net.size
    · obtain ⟨node, hnode⟩ := exists_node hg
      rw [List.getElem?_range hg, hnode, Option.map_some, Option.map_some, fanins_eq hnode]
    · have hle := Nat.not_lt.mp hg
      rw [Array.getElem?_eq_none hle, List.getElem?_eq_none (by simpa using hle)]
      rfl
  rw [faninPlaces, List.length_flatMap]
  simp only [List.length_map, hplaces]
  rw [sum_map_filter _ _ _ hterminal, hnodes, faninReaders]

/-- The number of edges that a substitution takes from `old`: fanins first, then outputs. -/
def released (net : Network) (old : NodeId) (new : Signal) (node : Node) : Nat :=
  (net.rerouteGates old new node).moved + net.cos.countP (·.node == old)

/-- A substitution takes no more edges from the replaced gate than read it. -/
theorem released_le_fanout (hwf : net.WellFormed) {old : NodeId} {new : Signal}
    (hne : new.node ≠ old) {node : Node} (hnode : net.nodes[old]? = some node) :
    net.released old new node ≤ node.fanout := by
  have hmoved := (rerouted_rerouteGates hwf hne node).moved old
  rw [if_pos rfl, if_neg hne.symm] at hmoved
  rw [hwf.fanout old node hnode, readers_eq, released]
  omega

theorem fanout_substitute (hwf : net.WellFormed) {old : NodeId} {new : Signal}
    (hne : new.node ≠ old) (hnew : new.node < net.size) {node : Node}
    (hnode : net.nodes[old]? = some node) (hkind : node.kind = .gate) :
    ∃ net' node', net.substitute old new = .ok net' ∧ net'.nodes[old]? = some node' ∧
      node'.fanout + net.released old new node = node.fanout := by
  have hstate := rerouted_rerouteGates hwf hne node
  have hfinal := getElem?_finishSubstitution net hne (net.rerouteGates old new node) old
  rw [hstate.nodes, hnode, if_neg hne.symm, if_pos rfl] at hfinal
  refine ⟨_, _, substitute_eq hwf hnode hkind hnew hne, hfinal, ?_⟩
  have hle := released_le_fanout hwf hne hnode
  simp only [released, if_pos (lt_size_of_getElem? hnode)] at hle ⊢
  omega

/-- The counts of an assembled network are exact. Each fanout counts the places in fanins and the
outputs that read the node, no node reads itself, the number of gates is right, and a substitution
of any existing signal for a gate takes no more from a fanout than there is. -/
theorem counters_exact (h : net.Assembled) :
    (∀ n node, net.nodes[n]? = some node → node.fanout = (net.faninPlaces n).length +
      net.pos.toList.countP (·.node == n) + net.ris.toList.countP (·.node == n)) ∧
    (∀ n, ¬ net.Reads n n) ∧
    net.numGates = (net.nodeIds.filter net.isGate).length ∧
    ∀ old new node, net.nodes[old]? = some node → node.kind = .gate → new.node < net.size →
      new.node ≠ old → ∃ net' node', net.substitute old new = .ok net' ∧
        net'.nodes[old]? = some node' ∧ node'.fanout + net.released old new node = node.fanout := by
  have hwf := h.built.wellFormed
  refine ⟨?_, h.built.not_reads_self, h.built.inventory.numGates_eq, ?_⟩
  · intro n node hnode
    rw [hwf.fanout n node hnode, readers_eq, ← length_faninPlaces hwf, cos, List.countP_append,
      Nat.add_assoc]
  · exact fun old new node hnode hkind hnew hne => fanout_substitute hwf hne hnew hnode hkind

/-- Replacing a gate by one that reads it leaves its readings counted on it. -/
theorem counters_exact_tappedConjunction : ∃ net' node',
    tappedConjunction.substitute 4 ⟨5, false⟩ = .ok net' ∧ net'.nodes[4]? = some node' ∧
      node'.fanout = (net'.faninPlaces 4).length + net'.pos.toList.countP (·.node == 4) +
        net'.ris.toList.countP (·.node == 4) ∧ ¬ net'.Reads 5 5 := by
  obtain ⟨-, -, -, hsubstitute⟩ := counters_exact assembled_tappedConjunction
  obtain ⟨net', node', hrun, hnode', -⟩ :=
    hsubstitute 4 ⟨5, false⟩ _ rfl rfl (by decide) (by decide)
  have hnet' : net'.Assembled :=
    assembled_tappedConjunction.edit (.substitute (fun _ => rfl) hrun)
  obtain ⟨hfanout, hself, -⟩ := counters_exact hnet'
  exact ⟨net', node', hrun, hnode', hfanout 4 node' hnode', hself 5⟩

/-! ### The index -/

/-- Node `n` is the gate of the given fanins and function. -/
def IsGateOf (net : Network) (fanins : List Signal) (literal : Nat) (n : NodeId) : Prop :=
  ∃ node : Node, net.nodes[n]? = some node ∧ node.kind = .gate ∧ node.fanins = fanins ∧
    node.function = literal

/-- Creating a gate ends in a gate of just these fanins and this function, unless a fanin does not
exist. A gate that was there already is returned from an unchanged network. -/
theorem createNode_ends (hwf : net.WellFormed) (fanins : List Signal) (literal : Nat) :
    Ends (fun fault => fault = .missingEntry ∧ ∃ s ∈ fanins, net.size ≤ s.node)
      (net.createNode fanins literal) fun r =>
        r.2.IsGateOf fanins literal r.1 ∧ (r.1 < net.size → r.2 = net) := by
  by_cases hlt : ∀ s ∈ fanins, s.node < net.size
  · obtain ⟨n, net', hcreate⟩ := exists_createNode hlt literal
    rw [hcreate]
    refine ⟨(createNode_spec hwf hcreate).2, ?_⟩
    rcases createNode_eq_ok hcreate with ⟨-, rfl⟩ | ⟨rfl, -, -⟩
    · exact fun _ => rfl
    · exact fun hlt => absurd hlt (lt_irrefl _)
  · -- A gate with these fanins would show that they exist, so none is found.
    have hnone : net.index[(fanins, literal)]? = none := by
      by_contra hsome
      obtain ⟨n, hfound⟩ := Option.ne_none_iff_exists'.mp hsome
      obtain ⟨node, hnode, -, hkey⟩ := hwf.index _ _ hfound
      obtain ⟨rfl, -⟩ := Prod.mk.inj hkey
      exact hlt fun s hs => hwf.fanin_lt hnode hs
    have hcheck : net.checkNodes (fanins.map Signal.node) = .error .missingEntry := by
      refine if_neg fun hall => hlt fun s hs => ?_
      rw [List.all_eq_true] at hall
      exact of_decide_eq_true (hall s.node (List.mem_map_of_mem hs))
    push Not at hlt
    rw [createNode, hnone]
    simp only [hcheck, error_bind]
    exact ⟨rfl, hlt⟩

/-- The index of an assembled network is never stale: an entry leads to the gate of its key. So
creating a gate ends in the gate of just the given fanins and function, and a gate that was there
already is returned from an unchanged network. -/
theorem index_never_stale (h : net.Assembled) :
    (∀ fanins literal n, net.index[(fanins, literal)]? = some n → net.IsGateOf fanins literal n) ∧
    ∀ fanins literal,
      Ends (fun fault => fault = .missingEntry ∧ ∃ s ∈ fanins, net.size ≤ s.node)
        (net.createNode fanins literal) fun r =>
          r.2.IsGateOf fanins literal r.1 ∧ (r.1 < net.size → r.2 = net) := by
  have hwf := h.built.wellFormed
  refine ⟨?_, createNode_ends hwf⟩
  intro fanins literal n hfound
  obtain ⟨node, hnode, hkind, hkey⟩ := hwf.index _ _ hfound
  obtain ⟨hfanins, hfunction⟩ := Prod.mk.inj hkey
  exact ⟨node, hnode, hkind, hfanins, hfunction⟩

/-- After a substitution the fanins of the outer gate are new, and the gate of these fanins can be
asked for. -/
theorem index_never_stale_tappedConjunction : ∃ net',
    tappedConjunction.substitute 4 ⟨1, true⟩ = .ok net' ∧
      Ends Never (net'.createNode [⟨1, true⟩, ⟨3, false⟩] Basis.gateLiteral) fun r =>
        r.2.IsGateOf [⟨1, true⟩, ⟨3, false⟩] Basis.gateLiteral r.1 ∧
          (r.1 < net'.size → r.2 = net') := by
  have hwf := assembled_tappedConjunction.built.wellFormed
  obtain ⟨net', hrun, hspec, -⟩ :=
    @exists_substitute _ 4 ⟨1, true⟩ hwf (by decide) (by decide) (by decide)
  have hnet' : net'.Assembled :=
    assembled_tappedConjunction.edit (.substitute (fun h => absurd h (by decide)) hrun)
  have hlt : ∀ s ∈ [⟨1, true⟩, ⟨3, false⟩], Signal.node s < net'.size := by
    rw [hspec.size]
    decide
  obtain ⟨n, final, hcreate⟩ := exists_createNode hlt Basis.gateLiteral
  refine ⟨net', hrun, ends_never_iff.mpr ⟨(n, final), hcreate, ?_⟩⟩
  exact ((index_never_stale hnet').2 _ _).post_of_eq hcreate

end LogicSynthesis.Network
