import LogicSynthesis.Network.Substitution
import LogicSynthesis.Network.FanoutFreeCone
import LogicSynthesis.Proofs.Network.Gates

/-!
# The effect of a substitution

A substitution moves every edge that reads the replaced gate, apart from the edges of the replacing
node, and changes nothing else in the logic. It keeps the network well formed even when it closes a
cycle. When the replacing node does not depend on the replaced gate, the network stays acyclic, and
when the two have one value, every node and every output keeps its value.

## Main definitions

- `Network.reroute` — the fanins of a node after the substitution
- `Network.Substituted` — the network that a substitution makes

## Main statements

- `substitute_spec`, `exists_substitute` — a substitution ends in that network
- `Substituted.wellFormed`, `Substituted.acyclic`, `Substituted.value_eq` — what it keeps
-/

namespace LogicSynthesis.Network

variable {net net' : Network} {old : NodeId} {new : Signal}

/-- The fanins of node `n` once `old` is replaced by `new`. -/
def reroute (basis : Basis) (old : NodeId) (new : Signal) (n : NodeId) (fanins : List Signal) :
    List Signal :=
  if n ≠ new.node ∧ fanins.any (·.node == old) then
    if basis.isSymmetric then Signal.sort (fanins.map (redirect old new))
    else fanins.map (redirect old new)
  else fanins

theorem reroute_of_not {basis : Basis} {n : NodeId} {fanins : List Signal}
    (h : ¬(n ≠ new.node ∧ fanins.any (·.node == old))) :
    reroute basis old new n fanins = fanins := if_neg h

theorem redirect_of_ne {s : Signal} (h : s.node ≠ old) : redirect old new s = s := if_neg h

/-- Both polarities of a signal go the same way. -/
theorem redirect_negate (old : NodeId) (new s : Signal) :
    redirect old new s.negate = (redirect old new s).negate := by
  unfold redirect
  by_cases h : s.node = old
  · have h' : s.negate.node = old := h
    rw [if_pos h, if_pos h', Signal.retarget, Signal.retarget, Signal.negate, Signal.negate,
      Bool.xor_not]
  · have h' : ¬ s.negate.node = old := h
    rw [if_neg h, if_neg h']

theorem map_redirect_of_ne {fanins : List Signal} (h : ∀ s ∈ fanins, s.node ≠ old) :
    fanins.map (redirect old new) = fanins :=
  (List.map_congr_left fun s hs => redirect_of_ne (h s hs)).trans (List.map_id fanins)

theorem map_redirect_of_not_any {fanins : List Signal} (h : ¬ fanins.any (·.node == old) = true) :
    fanins.map (redirect old new) = fanins :=
  map_redirect_of_ne fun s hs heq => h (List.any_eq_true.mpr ⟨s, hs, beq_iff_eq.mpr heq⟩)

theorem reroute_eq_self {basis : Basis} {n : NodeId} {fanins : List Signal}
    (h : ∀ s ∈ fanins, s.node ≠ old) : reroute basis old new n fanins = fanins := by
  refine reroute_of_not fun hany => ?_
  obtain ⟨s, hs, heq⟩ := List.any_eq_true.mp hany.2
  exact h s hs (beq_iff_eq.mp heq)

/-- Apart from their order, the fanins of a node are redirected, unless it is the replacing one. -/
theorem reroute_perm (basis : Basis) (old : NodeId) (new : Signal) (n : NodeId)
    (fanins : List Signal) : (reroute basis old new n fanins).Perm
      (if n = new.node then fanins else fanins.map (redirect old new)) := by
  unfold reroute
  by_cases hnew : n = new.node
  · rw [if_neg (fun h => h.1 hnew), if_pos hnew]
  · rw [if_neg hnew]
    by_cases hany : fanins.any (·.node == old) = true
    · rw [if_pos ⟨hnew, hany⟩]
      split
      · exact List.mergeSort_perm _ _
      · exact .refl _
    · rw [if_neg (fun h => hany h.2), map_redirect_of_not_any hany]

/-- The replacing node is no exception when it does not read the replaced gate. -/
theorem reroute_perm_map {basis : Basis} {n : NodeId} {fanins : List Signal}
    (h : n = new.node → ∀ s ∈ fanins, s.node ≠ old) :
    (reroute basis old new n fanins).Perm (fanins.map (redirect old new)) := by
  by_cases hnew : n = new.node
  · rw [reroute_eq_self (h hnew), map_redirect_of_ne (h hnew)]
  · have hperm := reroute_perm basis old new n fanins
    rwa [if_neg hnew] at hperm

/-- Where the order of the fanins matters, it is kept. -/
theorem reroute_eq_map {basis : Basis} (hbasis : basis.isSymmetric = false) {n : NodeId}
    {fanins : List Signal} (h : n = new.node → ∀ s ∈ fanins, s.node ≠ old) :
    reroute basis old new n fanins = fanins.map (redirect old new) := by
  by_cases hnew : n = new.node
  · rw [reroute_eq_self (h hnew), map_redirect_of_ne (h hnew)]
  · unfold reroute
    split
    · rw [hbasis, if_neg Bool.false_ne_true]
    · next hnone => exact (map_redirect_of_not_any fun hany => hnone ⟨hnew, hany⟩).symm

theorem length_reroute (basis : Basis) (old : NodeId) (new : Signal) (n : NodeId)
    (fanins : List Signal) : (reroute basis old new n fanins).length = fanins.length := by
  rw [(reroute_perm basis old new n fanins).length_eq]
  split
  · rfl
  · rw [List.length_map]

/-! ### Counting edges -/

/-- How often edges are read by each node before and after they are redirected. -/
theorem countP_redirect (hne : new.node ≠ old) (edges : List Signal) (m : NodeId) :
    (edges.map (redirect old new)).countP (·.node == m) +
        (if m = old then edges.countP (·.node == old) else 0) =
      edges.countP (·.node == m) +
        (if m = new.node then edges.countP (·.node == old) else 0) := by
  induction edges with
  | nil => simp
  | cons s edges ih =>
    simp only [List.map_cons, List.countP_cons, beq_iff_eq]
    by_cases hs : s.node = old
    · have hnode : (redirect old new s).node = new.node := by
        rw [redirect, if_pos hs]
        rfl
      rw [hnode]
      by_cases hold : m = old
      · subst hold
        simp only [hs, hne, hne.symm, if_true, if_false] at ih ⊢
        omega
      · by_cases hnew : m = new.node
        · subst hnew
          simp only [hs, hne, hne.symm, if_true, if_false] at ih ⊢
          omega
        · simp only [hs, hold, hnew, Ne.symm hold, Ne.symm hnew, if_true, if_false] at ih ⊢
          omega
    · rw [redirect_of_ne hs]
      simp only [hs, if_false, Nat.add_zero]
      omega

/-- The number of fanins that read `m`. -/
def faninReaders (nodes : Array Node) (m : NodeId) : Nat :=
  (nodes.toList.map fun node => node.fanins.countP (·.node == m)).sum

theorem readers_eq (net : Network) (m : NodeId) :
    net.readers m = faninReaders net.nodes m + net.cos.countP (·.node == m) := by
  rw [readers, edges, List.countP_append, List.countP_flatten, List.map_map]
  rfl

theorem sum_eq_tally (ns : List Nat) : ns.sum = tally ns := by
  induction ns with
  | nil => rfl
  | cons n ns ih => rw [List.sum_cons, ih, tally]

theorem faninReaders_set {nodes : Array Node} {n : NodeId} {node : Node}
    (hn : nodes[n]? = some node) (node' : Node) (m : NodeId) :
    faninReaders (nodes.setIfInBounds n node') m + node.fanins.countP (·.node == m) =
      faninReaders nodes m + node'.fanins.countP (·.node == m) := by
  obtain ⟨hlt, hget⟩ := Array.getElem?_eq_some_iff.mp hn
  have hlen : n < (nodes.toList.map fun node => node.fanins.countP (·.node == m)).length := by
    rw [List.length_map]
    exact hlt
  have hset := tally_set (v := node'.fanins.countP (·.node == m)) hlen
  rw [List.getElem_map, Array.getElem_toList, hget, ← List.map_set, ← sum_eq_tally,
    ← sum_eq_tally] at hset
  rw [faninReaders, faninReaders, Array.toList_setIfInBounds]
  exact hset

/-! ### Moving the edges -/

/-- A substitution in which the gates below `k` are done. -/
structure Rerouted (net : Network) (old : NodeId) (new : Signal) (k : Nat) (state : Rerouting) :
    Prop where
  rest : ∃ nodes index, state.net = { net with nodes, index }
  nodes : ∀ i : NodeId, state.net.nodes[i]? = (net.nodes[i]?).map fun node =>
    if i < k then { node with fanins := reroute net.basis old new i node.fanins } else node
  index : ∀ key (n : NodeId), state.net.index[key]? = some n → ∃ node : Node,
    state.net.nodes[n]? = some node ∧ node.kind = .gate ∧ (node.fanins, node.function) = key
  moved : ∀ m, faninReaders state.net.nodes m + (if m = old then state.moved else 0) =
    faninReaders net.nodes m + (if m = new.node then state.moved else 0)

/-- What the index of a network has to lead to. -/
theorem getElem?_forgetEntry {index : Std.HashMap (List Signal × Nat) NodeId} {n m : NodeId}
    {node : Node} {key : List Signal × Nat} (h : (forgetEntry index n node)[key]? = some m) :
    index[key]? = some m ∧ ((node.fanins, node.function) = key → m ≠ n) := by
  simp only [forgetEntry] at h
  split at h
  · rw [Std.HashMap.getElem?_erase] at h
    split at h
    · cases h
    · next hkey =>
      exact ⟨h, fun heq => absurd (beq_iff_eq.mpr heq) hkey⟩
  · next hfound =>
    refine ⟨h, ?_⟩
    rintro heq rfl
    exact hfound (heq ▸ h)

theorem rerouted_start (h : net.WellFormed) (old : NodeId) (new : Signal) (node : Node) :
    Rerouted net old new 0
      ⟨{ net with index := forgetEntry net.index old node }, 0, []⟩ := by
  refine ⟨⟨_, _, rfl⟩, ?_, ?_, ?_⟩
  · intro i
    simp only [Nat.not_lt_zero, if_false, Option.map_id']
  · exact fun key n hn => h.index key n (getElem?_forgetEntry hn).1
  · intro m
    simp

/-- A gate that needs no edit is done. -/
theorem Rerouted.skip {k : Nat} {state : Rerouting} (h : Rerouted net old new k state)
    (hskip : ∀ node : Node, net.nodes[k]? = some node →
      reroute net.basis old new k node.fanins = node.fanins) :
    Rerouted net old new (k + 1) state := by
  refine ⟨h.rest, ?_, h.index, h.moved⟩
  intro i
  rw [h.nodes]
  cases hi : net.nodes[i]? with
  | none => rfl
  | some node =>
    by_cases hik : i = k
    · subst hik
      simp only [Option.map_some, lt_irrefl, Nat.lt_succ_self, if_true, if_false, hskip node hi]
    · have hiff : i < k + 1 ↔ i < k := ⟨fun hlt => lt_of_le_of_ne (Nat.le_of_lt_succ hlt) hik,
        Nat.lt_succ_of_lt⟩
      simp only [Option.map_some, hiff]

/-- A gate whose edges are moved. -/
theorem Rerouted.edit (hne : new.node ≠ old) {k moved : Nat} {nodes : Array Node}
    {index : Std.HashMap (List Signal × Nat) NodeId} {edited : List (NodeId × List Signal)}
    (h : Rerouted net old new k ⟨{ net with nodes, index }, moved, edited⟩) {node : Node}
    (hk : net.nodes[k]? = some node) (hkind : node.kind = .gate) (hnew : k ≠ new.node) :
    Rerouted net old new (k + 1)
      ⟨{ net with
          nodes := nodes.setIfInBounds k
            { node with fanins := reroute net.basis old new k node.fanins }
          index := (forgetEntry index k node).insertIfNew
            (reroute net.basis old new k node.fanins, node.function) k },
        moved + node.fanins.countP (·.node == old), (k, node.fanins) :: edited⟩ := by
  have hnode : nodes[k]? = some node := by
    have hcur := h.nodes k
    simpa only [lt_irrefl, if_false, Option.map_id', hk] using hcur
  obtain ⟨hlt, -⟩ := Array.getElem?_eq_some_iff.mp hnode
  have hset : ∀ i : NodeId, (nodes.setIfInBounds k
      { node with fanins := reroute net.basis old new k node.fanins })[i]? =
        if k = i then some { node with fanins := reroute net.basis old new k node.fanins }
        else nodes[i]? := by
    intro i
    rw [Array.getElem?_setIfInBounds]
    split <;> rfl
  refine ⟨⟨_, _, rfl⟩, ?_, ?_, ?_⟩
  · intro i
    simp only [hset]
    by_cases hik : k = i
    · subst hik
      rw [if_pos rfl, hk, Option.map_some, if_pos (Nat.lt_succ_self k)]
    · have hiff : i < k + 1 ↔ i < k := ⟨fun hlt =>
        lt_of_le_of_ne (Nat.le_of_lt_succ hlt) (Ne.symm hik), Nat.lt_succ_of_lt⟩
      rw [if_neg hik]
      simp only [hiff]
      exact h.nodes i
  · intro key m hm
    rw [Std.HashMap.getElem?_insertIfNew] at hm
    split at hm
    · next hkey =>
      obtain rfl := Option.some.inj hm
      refine ⟨{ node with fanins := reroute net.basis old new k node.fanins }, ?_, hkind,
        eq_of_beq hkey.1⟩
      simp only [hset, if_true]
    · obtain ⟨hfound, hother⟩ := getElem?_forgetEntry hm
      obtain ⟨node', hnode', hkind', hkey'⟩ := h.index key m hfound
      have hkm : k ≠ m := by
        rintro rfl
        obtain rfl := Option.some.inj (hnode.symm.trans hnode')
        exact hother hkey' rfl
      refine ⟨node', ?_, hkind', hkey'⟩
      simp only [hset, if_neg hkm]
      exact hnode'
  · intro m
    have hmoved := h.moved m
    have hreaders := faninReaders_set hnode
      { node with fanins := reroute net.basis old new k node.fanins } m
    have hcount := countP_redirect hne node.fanins m
    have hperm := (reroute_perm net.basis old new k node.fanins).countP_eq (·.node == m)
    rw [if_neg hnew] at hperm
    simp only at hmoved hreaders hcount hperm ⊢
    split_ifs at hmoved hcount ⊢ <;> omega

theorem Rerouted.step (hwf : net.WellFormed) (hne : new.node ≠ old) {k : Nat} {state : Rerouting}
    (h : Rerouted net old new k state) :
    Rerouted net old new (k + 1) (rerouteGate old new state k) := by
  obtain ⟨cur, moved, edited⟩ := state
  obtain ⟨nodes, index, rfl⟩ := h.rest
  have hnode := h.nodes k
  simp only [lt_irrefl, if_false, Option.map_id'] at hnode
  simp only [rerouteGate, hnode]
  cases hk : net.nodes[k]? with
  | none => exact h.skip fun node hnode => absurd (hk.symm.trans hnode) (by simp)
  | some node =>
    by_cases hedit : k ≠ new.node ∧ node.kind.isGate = true ∧
        node.fanins.any (·.node == old) = true
    · obtain ⟨hnew, hgate, hany⟩ := hedit
      have hkind : node.kind = .gate := by
        revert hgate
        cases node.kind <;> simp [NodeKind.isGate]
      have hedited := h.edit hne hk hkind hnew
      simp only [reroute, if_pos (And.intro hnew hany)] at hedited
      simpa only [if_pos (And.intro hnew (And.intro hgate hany))] using hedited
    · simp only [if_neg hedit]
      apply h.skip
      intro node' hnode'
      obtain rfl := Option.some.inj (hk.symm.trans hnode')
      apply reroute_of_not
      rintro ⟨hnew, hany⟩
      refine hedit ⟨hnew, ?_, hany⟩
      by_contra hgate
      have hkind : node.kind ≠ .gate := by
        intro hkind
        rw [hkind] at hgate
        exact hgate rfl
      rw [hwf.terminal k node hk hkind] at hany
      cases hany

theorem rerouted_foldl (hwf : net.WellFormed) (hne : new.node ≠ old) (node : Node) (k : Nat) :
    Rerouted net old new k ((List.range k).foldl (rerouteGate old new)
      ⟨{ net with index := forgetEntry net.index old node }, 0, []⟩) := by
  induction k with
  | zero => exact rerouted_start hwf old new node
  | succ k ih =>
    rw [List.range_succ, List.foldl_append, List.foldl_cons, List.foldl_nil]
    exact ih.step hwf hne

/-! ### The whole substitution -/

/-- The logic of `net'` is that of `net` with `old` replaced by `new`. -/
structure Substituted (net : Network) (old : NodeId) (new : Signal) (net' : Network) : Prop where
  basis : net'.basis = net.basis
  pis : net'.pis = net.pis
  ros : net'.ros = net.ros
  pos : net'.pos = net.pos.map (redirect old new)
  ris : net'.ris = net.ris.map (redirect old new)
  functions : net'.functions = net.functions
  scratch : net'.scratch = net.scratch
  size : net'.size = net.size
  nodes : ∀ (n : NodeId) (node : Node), net.nodes[n]? = some node → ∃ node' : Node,
    net'.nodes[n]? = some node' ∧ node'.kind = node.kind ∧ node'.function = node.function ∧
      node'.fanins = reroute net.basis old new n node.fanins

theorem Substituted.cos_eq (h : Substituted net old new net') :
    net'.cos = net.cos.map (redirect old new) := by
  rw [cos, cos, h.pos, h.ris, Array.toList_map, Array.toList_map, List.map_append]

/-- What is left to do once the gates are edited: the outputs and the fanout counts. -/
def finishSubstitution (net : Network) (old : NodeId) (new : Signal) (state : Rerouting) :
    Network :=
  let moved := state.moved + net.cos.countP (·.node == old)
  let nodes := state.net.nodes.modify new.node fun node =>
    { node with fanout := node.fanout + moved }
  { state.net with
    nodes := nodes.modify old fun node => { node with fanout := node.fanout - moved }
    pos := state.net.pos.map (redirect old new)
    ris := state.net.ris.map (redirect old new)
    events := state.edited.reverse.foldl (fun events (n, former) => events.notifyModified n former)
      state.net.events }

/-- A substitution after all gates were visited. -/
def rerouteGates (net : Network) (old : NodeId) (new : Signal) (node : Node) : Rerouting :=
  net.nodeIds.foldl (rerouteGate old new)
    ⟨{ net with index := forgetEntry net.index old node }, 0, []⟩

theorem rerouted_rerouteGates (hwf : net.WellFormed) (hne : new.node ≠ old) (node : Node) :
    Rerouted net old new net.size (net.rerouteGates old new node) :=
  rerouted_foldl hwf hne node net.size

theorem substitute_eq (hwf : net.WellFormed) {node : Node} (hnode : net.nodes[old]? = some node)
    (hkind : node.kind = .gate) (hnew : new.node < net.size) (hne : new.node ≠ old) :
    net.substitute old new =
      .ok (finishSubstitution net old new (net.rerouteGates old new node)) := by
  obtain ⟨nodes, index, hrest⟩ := (rerouted_rerouteGates hwf hne node).rest
  have hcheck : net.checkNodes [new.node] = .ok () := by
    apply checkNodes_of
    intro n hn
    rw [List.mem_singleton.mp hn]
    exact hnew
  have hgate : require node.kind.isGate (.notAGate old) = .ok () := by
    rw [hkind]
    rfl
  simp only [substitute, node_eq hnode, ok_bind, hgate, if_neg hne, hcheck]
  rw [← rerouteGates]
  simp only [finishSubstitution, hrest]
  rfl

theorem getElem?_finishSubstitution (net : Network) (hne : new.node ≠ old) (state : Rerouting)
    (n : NodeId) : (finishSubstitution net old new state).nodes[n]? =
      (state.net.nodes[n]?).map fun node => { node with fanout :=
        node.fanout + (if n = new.node then state.moved + net.cos.countP (·.node == old) else 0) -
          (if n = old then state.moved + net.cos.countP (·.node == old) else 0) } := by
  simp only [finishSubstitution, Array.getElem?_modify]
  by_cases hold : old = n
  · subst hold
    simp only [hne, hne.symm, if_true, if_false, Nat.add_zero]
  · by_cases hnew : new.node = n
    · subst hnew
      simp only [hne, hne.symm, if_true, if_false, Nat.sub_zero]
    · simp only [hold, hnew, Ne.symm hold, Ne.symm hnew, if_false, Nat.add_zero, Nat.sub_zero,
        Option.map_id']

/-- A node after the substitution. -/
theorem exists_of_finishSubstitution (hne : new.node ≠ old) {state : Rerouting}
    (h : Rerouted net old new net.size state) {n : NodeId} {node' : Node}
    (hn : (finishSubstitution net old new state).nodes[n]? = some node') : ∃ node : Node,
      net.nodes[n]? = some node ∧ node'.kind = node.kind ∧ node'.function = node.function ∧
        node'.fanins = reroute net.basis old new n node.fanins ∧ node'.fanout = node.fanout +
          (if n = new.node then state.moved + net.cos.countP (·.node == old) else 0) -
          (if n = old then state.moved + net.cos.countP (·.node == old) else 0) := by
  rw [getElem?_finishSubstitution net hne, h.nodes, Option.map_map] at hn
  obtain ⟨node, hnode, rfl⟩ := Option.map_eq_some_iff.mp hn
  have hlt := lt_size_of_getElem? hnode
  refine ⟨node, hnode, ?_, ?_, ?_, ?_⟩ <;> simp only [Function.comp_apply, if_pos hlt]

theorem size_eq_of_getElem? {α β : Type} {as : Array α} {bs : Array β} {f : Nat → β → α}
    (h : ∀ i : Nat, as[i]? = (bs[i]?).map (f i)) : as.size = bs.size := by
  have hnone : ∀ i : Nat, as.size ≤ i ↔ bs.size ≤ i := by
    intro i
    rw [← Array.getElem?_eq_none_iff, ← Array.getElem?_eq_none_iff, h, Option.map_eq_none_iff]
  exact Nat.le_antisymm ((hnone _).mpr le_rfl) ((hnone _).mp le_rfl)

theorem substituted_finish (hne : new.node ≠ old) {state : Rerouting}
    (h : Rerouted net old new net.size state) :
    Substituted net old new (finishSubstitution net old new state) := by
  obtain ⟨nodes, index, hrest⟩ := h.rest
  have hsize : state.net.nodes.size = net.size := size_eq_of_getElem? h.nodes
  refine ⟨?_, ?_, ?_, ?_, ?_, ?_, ?_, ?_, ?_⟩
  · simp only [finishSubstitution, hrest]
  · simp only [finishSubstitution, hrest]
  · simp only [finishSubstitution, hrest]
  · simp only [finishSubstitution, hrest]
  · simp only [finishSubstitution, hrest]
  · simp only [finishSubstitution, hrest]
  · simp only [finishSubstitution, hrest]
  · rw [size, finishSubstitution, Array.size_modify, Array.size_modify, hsize]
  · intro n node hnode
    have hlt := lt_size_of_getElem? hnode
    have hfinal := getElem?_finishSubstitution net hne state n
    rw [h.nodes, hnode, Option.map_some, Option.map_some, if_pos hlt] at hfinal
    exact ⟨_, hfinal, rfl, rfl, rfl⟩

theorem node_of_redirect {s : Signal} (hnew : new.node < net.size) (hs : s.node < net.size) :
    (redirect old new s).node < net.size := by
  unfold redirect
  split
  · exact hnew
  · exact hs

theorem mem_reroute {basis : Basis} {n : NodeId} {fanins : List Signal} {s : Signal}
    (hs : s ∈ reroute basis old new n fanins) :
    n = new.node ∧ s ∈ fanins ∨ n ≠ new.node ∧ ∃ s' ∈ fanins, redirect old new s' = s := by
  rw [(reroute_perm basis old new n fanins).mem_iff] at hs
  split at hs
  · next heq => exact .inl ⟨heq, hs⟩
  · next hne => exact .inr ⟨hne, List.mem_map.mp hs⟩

/-- The outputs are redirected after the gates, which does not change what the gates read. -/
theorem faninReaders_finish (hne : new.node ≠ old) (state : Rerouting) (n : NodeId) :
    faninReaders (finishSubstitution net old new state).nodes n =
      faninReaders state.net.nodes n := by
  rw [faninReaders, faninReaders]
  congr 1
  apply List.ext_getElem?
  intro i
  rw [List.getElem?_map, List.getElem?_map, Array.getElem?_toList, Array.getElem?_toList,
    getElem?_finishSubstitution net hne, Option.map_map]
  rfl

/-- The fanout of the new node grows by the readings that the old one loses. -/
theorem fanout_finish (hwf : net.WellFormed) (hne : new.node ≠ old) {state : Rerouting}
    (h : Rerouted net old new net.size state) {n : NodeId} {node' : Node}
    (hnode' : (finishSubstitution net old new state).nodes[n]? = some node') :
    node'.fanout = (finishSubstitution net old new state).readers n := by
  obtain ⟨node, hnode, -, -, -, hfanout⟩ := exists_of_finishSubstitution hne h hnode'
  have hmoved := h.moved n
  have hcount := countP_redirect hne net.cos n
  have hformer := hwf.fanout n node hnode
  rw [readers_eq] at hformer
  rw [hfanout, readers_eq, (substituted_finish hne h).cos_eq, faninReaders_finish hne, hformer]
  split_ifs at hmoved hcount ⊢ <;> omega

theorem wellFormed_finish (hwf : net.WellFormed) (hnew : new.node < net.size)
    (hne : new.node ≠ old) {state : Rerouting} (h : Rerouted net old new net.size state) :
    (finishSubstitution net old new state).WellFormed := by
  have hsub := substituted_finish hne h
  refine ⟨?_, ?_, ?_, ?_, ?_, ?_, ?_, ?_, ?_, ?_⟩
  · intro i v hi
    rw [hsub.basis] at hi
    obtain ⟨node, hnode, hkind⟩ := hwf.constants i v hi
    obtain ⟨node', hnode', hkind', -⟩ := hsub.nodes i node hnode
    exact ⟨node', hnode', hkind'.trans hkind⟩
  · rw [hsub.functions]
    exact hwf.functions
  · rw [hsub.functions, hsub.basis]
    exact hwf.basisFunction
  · intro n node' hnode' hkind
    obtain ⟨node, hnode, hkind', hfunction, hfanins, -⟩ := exists_of_finishSubstitution hne h hnode'
    have hfits := hwf.fits n node hnode (hkind' ▸ hkind)
    have hlen := length_reroute net.basis old new n node.fanins
    rw [hfunction, hfanins]
    exact hfits.of_length hsub.basis hsub.functions hlen
  · intro n node' hnode' hkind
    obtain ⟨node, hnode, hkind', -, hfanins, -⟩ := exists_of_finishSubstitution hne h hnode'
    have hlen := length_reroute net.basis old new n node.fanins
    rw [← hfanins, hwf.terminal n node hnode (hkind' ▸ hkind)] at hlen
    exact List.eq_nil_of_length_eq_zero hlen
  · intro s hs
    rw [hsub.size]
    rcases mem_edges_iff.mp hs with ⟨n, hs⟩ | hs
    · obtain ⟨node', hnode'⟩ := exists_node (reads_iff.mpr ⟨s, hs, rfl⟩).lt_size
      obtain ⟨node, hnode, -, -, hfanins, -⟩ := exists_of_finishSubstitution hne h hnode'
      rw [fanins_eq hnode', hfanins] at hs
      rcases mem_reroute hs with ⟨-, hs⟩ | ⟨-, s', hs', rfl⟩
      · exact hwf.fanin_lt hnode hs
      · exact node_of_redirect hnew (hwf.fanin_lt hnode hs')
    · rw [hsub.cos_eq] at hs
      obtain ⟨s', hs', rfl⟩ := List.mem_map.mp hs
      exact node_of_redirect hnew (hwf.output_lt hs')
  · intro key n hn
    obtain ⟨node, hnode, hkind, hkey⟩ := h.index key n hn
    have hfinal := getElem?_finishSubstitution net hne state n
    rw [hnode, Option.map_some] at hfinal
    exact ⟨_, hfinal, hkind, hkey⟩
  · exact fun n node' hnode' => fanout_finish hwf hne h hnode'
  · rw [hsub.scratch, hwf.values, hsub.size]
  · rw [hsub.scratch, hwf.marks, hsub.size]

/-- A substitution that ends either replaced a gate by itself or made the substituted network. -/
theorem substitute_spec (hwf : net.WellFormed) (h : net.substitute old new = .ok net') :
    net.isGate old = true ∧ (new.node = old ∧ net' = net ∨
      new.node ≠ old ∧ new.node < net.size ∧ Substituted net old new net' ∧ net'.WellFormed) := by
  obtain ⟨node, hnode, hrest⟩ := bind_eq_ok h
  obtain ⟨u, hgate, hrest⟩ := bind_eq_ok hrest
  have hold : net.isGate old = true := by
    unfold Network.node at hnode
    cases hn : net.nodes[old]? with
    | none => simp [hn] at hnode
    | some found =>
      rw [hn] at hnode
      obtain rfl := Except.ok.inj hnode
      rw [isGate, kindIs_eq hn]
      exact require_eq_ok hgate
  refine ⟨hold, ?_⟩
  by_cases hne : new.node = old
  · rw [if_pos hne] at hrest
    exact .inl ⟨hne, (Except.ok.inj hrest).symm⟩
  · rw [if_neg hne] at hrest
    obtain ⟨u', hcheck, -⟩ := bind_eq_ok hrest
    have hnew := checkNodes_eq_ok hcheck new.node List.mem_cons_self
    obtain ⟨node, hnode, hkind⟩ := isGate_iff.mp hold
    have hstate := rerouted_rerouteGates hwf hne node
    obtain rfl := Except.ok.inj ((substitute_eq hwf hnode hkind hnew hne).symm.trans h)
    exact .inr ⟨hne, hnew, substituted_finish hne hstate, wellFormed_finish hwf hnew hne hstate⟩

/-- A gate can be replaced by any existing signal. -/
theorem exists_substitute (hwf : net.WellFormed) (hold : net.isGate old = true)
    (hnew : new.node < net.size) (hne : new.node ≠ old) :
    ∃ net', net.substitute old new = .ok net' ∧ Substituted net old new net' ∧
      net'.WellFormed := by
  obtain ⟨node, hnode, hkind⟩ := isGate_iff.mp hold
  have hstate := rerouted_rerouteGates hwf hne node
  exact ⟨_, substitute_eq hwf hnode hkind hnew hne, substituted_finish hne hstate,
    wellFormed_finish hwf hnew hne hstate⟩

/-- The value of a gate of a symmetric basis does not depend on the order of its fanins. -/
theorem bit_gateFunction_perm {basis : Basis} {t : TruthTable} (h : basis.gateFunction? = some t)
    {bs bs' : List Bool} (hlen : bs.length = t.numVars) (hperm : bs.Perm bs') :
    t.bit (codeOf bs) = t.bit (codeOf bs') := by
  cases basis with
  | andInverter =>
    obtain rfl := Option.some.inj h
    obtain ⟨x, y, rfl⟩ := List.length_eq_two.mp hlen
    obtain ⟨x', y', rfl⟩ := List.length_eq_two.mp (hperm.length_eq.symm.trans hlen)
    have hcount := hperm.countP_eq id
    rw [Build.bit_andTable, Build.bit_andTable]
    revert hcount
    cases x <;> cases y <;> cases x' <;> cases y' <;> decide
  | majorityInverter =>
    obtain rfl := Option.some.inj h
    obtain ⟨x, y, z, rfl⟩ := List.length_eq_three.mp hlen
    obtain ⟨x', y', z', rfl⟩ := List.length_eq_three.mp (hperm.length_eq.symm.trans hlen)
    rw [Build.bit_majTable, Build.bit_majTable, Build.atLeastTwo_eq, Build.atLeastTwo_eq,
      hperm.countP_eq id]
  | lookupTable => cases h

/-- Rerouting edges to a signal of equal value leaves the value of a gate as it is. -/
theorem bit_reroute (hwf : net.WellFormed) {n : NodeId} {node : Node}
    (hnode : net.nodes[n]? = some node) (hkind : node.kind = .gate) {val : NodeId → Bool}
    (hval : val old = edgeValue val new) :
    (net.functionOf node).bit
        (codeOf ((reroute net.basis old new n node.fanins).map (edgeValue val))) =
      (net.functionOf node).bit (codeOf (node.fanins.map (edgeValue val))) := by
  have hmap : (node.fanins.map (redirect old new)).map (edgeValue val) =
      node.fanins.map (edgeValue val) := by
    rw [List.map_map]
    apply List.map_congr_left
    intro s _
    rw [Function.comp_apply, redirect]
    split
    · next hs =>
      simp only [Signal.retarget, edgeValue, hs, hval]
      cases val new.node <;> cases new.negated <;> cases s.negated <;> rfl
    · rfl
  unfold reroute
  split
  · cases hsymmetric : net.basis.isSymmetric with
    | false => rw [if_neg Bool.false_ne_true, hmap]
    | true =>
      rw [if_pos rfl, ← hmap]
      obtain ⟨t, ht⟩ := Basis.isSymmetric_iff.mp hsymmetric
      obtain ⟨hfunction, hlen⟩ := hwf.functionOf_eq ht hnode hkind
      have hperm : (Signal.sort (node.fanins.map (redirect old new))).Perm
          (node.fanins.map (redirect old new)) := List.mergeSort_perm _ _
      rw [hfunction]
      apply bit_gateFunction_perm ht _ (hperm.map _)
      rw [List.length_map, hperm.length_eq, List.length_map, hlen]
  · rfl

namespace Substituted

theorem node_eq (h : Substituted net old new net') {n : NodeId} {node' : Node}
    (hn : net'.nodes[n]? = some node') : ∃ node : Node, net.nodes[n]? = some node ∧
      node'.kind = node.kind ∧ node'.function = node.function ∧
        node'.fanins = reroute net.basis old new n node.fanins := by
  have hlt := lt_size_of_getElem? hn
  rw [h.size] at hlt
  obtain ⟨node, hnode⟩ := exists_node hlt
  obtain ⟨node'', hnode'', hspec⟩ := h.nodes n node hnode
  obtain rfl := Option.some.inj (hn.symm.trans hnode'')
  exact ⟨node, hnode, hspec⟩

theorem fanins_eq (h : Substituted net old new net') (n : NodeId) :
    net'.fanins n = reroute net.basis old new n (net.fanins n) := by
  by_cases hn : n < net.size
  · obtain ⟨node, hnode⟩ := exists_node hn
    obtain ⟨node', hnode', -, -, hfanins⟩ := h.nodes n node hnode
    rw [Network.fanins_eq hnode, Network.fanins_eq hnode', hfanins]
  · have hle : net.nodes.size ≤ n := Nat.not_lt.mp hn
    have hle' : net'.nodes.size ≤ n := h.size.le.trans hle
    rw [fanins, fanins, Array.getElem?_eq_none hle, Array.getElem?_eq_none hle']
    exact (reroute_of_not fun hany => Bool.noConfusion hany.2).symm

theorem kindIs_eq (h : Substituted net old new net') (p : NodeKind → Bool) (n : NodeId) :
    net'.kindIs p n = net.kindIs p n := by
  by_cases hn : n < net.size
  · obtain ⟨node, hnode⟩ := exists_node hn
    obtain ⟨node', hnode', hkind, -⟩ := h.nodes n node hnode
    rw [Network.kindIs_eq hnode, Network.kindIs_eq hnode', hkind]
  · have hle : net.nodes.size ≤ n := Nat.not_lt.mp hn
    have hle' : net'.nodes.size ≤ n := h.size.le.trans hle
    rw [kindIs, kindIs, Array.getElem?_eq_none hle, Array.getElem?_eq_none hle']

/-- What a node reads after the substitution. -/
theorem reads (h : Substituted net old new net') {n m : NodeId} (hreads : net'.Reads n m) :
    net.Reads n m ∨ n ≠ new.node ∧ net.Reads n old ∧ m = new.node := by
  obtain ⟨s, hs, rfl⟩ := reads_iff.mp hreads
  rw [h.fanins_eq] at hs
  rcases mem_reroute hs with ⟨-, hs⟩ | ⟨hne, s', hs', rfl⟩
  · exact .inl (reads_iff.mpr ⟨s, hs, rfl⟩)
  · unfold redirect
    split
    · next hold => exact .inr ⟨hne, reads_iff.mpr ⟨s', hs', hold⟩, rfl⟩
    · exact .inl (reads_iff.mpr ⟨s', hs', rfl⟩)

/-- The edges after the substitution: the fanins of the replacing node, and redirected edges. -/
theorem mem_edges (h : Substituted net old new net') {s : Signal} (hs : s ∈ net'.edges) :
    s ∈ net.fanins new.node ∨ ∃ s' ∈ net.edges, redirect old new s' = s := by
  rcases mem_edges_iff.mp hs with ⟨n, hs⟩ | hs
  · rw [h.fanins_eq] at hs
    rcases mem_reroute hs with ⟨rfl, hs⟩ | ⟨-, s', hs', heq⟩
    · exact .inl hs
    · exact .inr ⟨s', mem_edges_iff.mpr (.inl ⟨n, hs'⟩), heq⟩
  · rw [h.cos_eq] at hs
    obtain ⟨s', hs', heq⟩ := List.mem_map.mp hs
    exact .inr ⟨s', mem_edges_iff.mpr (.inr hs'), heq⟩

open scoped Classical in
/-- A substitution closes no cycle unless the replacing node depends on the replaced gate. -/
theorem acyclic (h : Substituted net old new net') (hac : net.Acyclic)
    (hnot : ¬ Relation.ReflTransGen net.Reads new.node old) : net'.Acyclic := by
  -- The nodes that depend on the replaced gate are ranked above all others.
  apply acyclic_of_rank fun n =>
    if Relation.TransGen net.Reads n old then net.size + 1 + (net.support n).card
    else (net.support n).card
  intro n m hreads
  have hcard := card_support_le net m
  have hnew : ¬ Relation.TransGen net.Reads new.node old := fun hpath => hnot hpath.to_reflTransGen
  rcases h.reads hreads with hreads | ⟨-, hold, rfl⟩
  · have hlt := hac.card_support_lt hreads
    by_cases hm : Relation.TransGen net.Reads m old
    · rw [if_pos hm, if_pos (hm.head hreads)]
      omega
    · rw [if_neg hm]
      split <;> omega
  · rw [if_neg hnew, if_pos (Relation.TransGen.single hold)]
    omega

/-- When the two have one value, every node keeps its value. -/
theorem value_eq (h : Substituted net old new net') (hwf : net.WellFormed) (hac : net.Acyclic)
    (hac' : net'.Acyclic) {inputs : Assignment}
    (hval : net.value inputs old = net.signalValue inputs new) (n : NodeId) :
    net'.value inputs n = net.value inputs n := by
  symm
  apply eq_value_of_consistent hac'
  intro n
  rw [Network.value_eq hac]
  cases hnode : net.nodes[n]? with
  | none =>
    have hle : net.size ≤ n := Array.getElem?_eq_none_iff.mp hnode
    rw [nodeValue_of_size_le hle, nodeValue_of_size_le (h.size ▸ hle)]
  | some node =>
    obtain ⟨node', hnode', hkind, hfunction, hfanins⟩ := h.nodes n node hnode
    have hsame : net'.functionOf node' = net.functionOf node := by
      rw [functionOf, functionOf, h.functions, hfunction]
    rw [nodeValue, nodeValue, hnode, hnode']
    cases hgate : node.kind with
    | gate =>
      simp only [hkind, hgate, hfanins, hsame]
      exact (bit_reroute hwf hnode hgate hval).symm
    | _ => simp only [hkind, hgate]

theorem signalValue_redirect (h : Substituted net old new net') (hwf : net.WellFormed)
    (hac : net.Acyclic) (hac' : net'.Acyclic) {inputs : Assignment}
    (hval : net.value inputs old = net.signalValue inputs new) (s : Signal) :
    net'.signalValue inputs (redirect old new s) = net.signalValue inputs s := by
  rw [signalValue, edgeValue, h.value_eq hwf hac hac' hval]
  unfold redirect
  split
  · next hs =>
    simp only [Signal.retarget, signalValue, edgeValue, hs] at hval ⊢
    rw [hval]
    cases net.value inputs new.node <;> cases new.negated <;> cases s.negated <;> rfl
  · rfl

theorem map_signalValue_redirect (h : Substituted net old new net') (hwf : net.WellFormed)
    (hac : net.Acyclic) (hac' : net'.Acyclic) {inputs : Assignment}
    (hval : net.value inputs old = net.signalValue inputs new) (outputs : Array Signal) :
    (outputs.map (redirect old new)).map (net'.signalValue inputs) =
      outputs.map (net.signalValue inputs) := by
  rw [Array.map_map]
  exact Array.map_congr_left fun s _ => h.signalValue_redirect hwf hac hac' hval s

/-- When the replacing node does not read the replaced gate, no edge reads it any more. -/
theorem node_ne_of_mem_edges (h : Substituted net old new net') (hne : new.node ≠ old)
    (hnot : ¬ net.Reads new.node old) {s : Signal} (hs : s ∈ net'.edges) : s.node ≠ old := by
  rcases h.mem_edges hs with hs | ⟨s', -, rfl⟩
  · exact fun heq => hnot (reads_iff.mpr ⟨s, hs, heq⟩)
  · unfold redirect
    split
    · exact hne
    · assumption

end Substituted

end LogicSynthesis.Network
