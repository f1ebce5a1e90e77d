import LogicSynthesis.Proofs.Network.Inventory
import LogicSynthesis.Proofs.Network.Walk

/-!
# The topological order

The order in which a network is evaluated and copied: the terminals, then every gate that some
output depends on. Each node stands there once, after everything that it reads.

## Main definitions

- `Network.terminals` — constants, then combinational inputs in their order
- `Network.Live`, `Network.liveGates` — what the outputs depend on

## Main statements

- `nodup_coneOrder` — a walk lists no node twice
- `mem_topoOrder_iff` — the order holds the terminals and the live gates
- `countP_isGate_topoOrder` — and each live gate once
- `mem_of_topoOrder_eq` — fanins come first
-/

namespace LogicSynthesis.Network

open Relation

variable {net : Network} {n m : NodeId}

/-! ### Walks list no node twice -/

/-- The node that a task is going to list. -/
def Task.listed? : Task → Option NodeId
  | enter _ => none
  | list n => some n

/-- The nodes that a walk has listed, then those that wait to be listed. -/
def Walk.entered (w : Walk) (tasks : List Task) : List NodeId :=
  w.order.toList ++ tasks.filterMap Task.listed?

/-- A node is listed once, for it is seen when it is entered and is not entered again. -/
structure ListedOnce (tasks : List Task) (w : Walk) : Prop where
  nodup : (w.entered tasks).Nodup
  seen : ∀ m ∈ w.entered tasks, w.Sees m

theorem ListedOnce.emit {rest : List Task} {w : Walk} (h : ListedOnce (.list n :: rest) w) :
    ListedOnce rest (w.emit n) := by
  have hentered : (w.emit n).entered rest = w.entered (.list n :: rest) := by
    rw [Walk.entered, Walk.emit, Array.toList_push, List.append_assoc]
    rfl
  exact ⟨hentered ▸ h.nodup, fun m hm => h.seen m (hentered ▸ hm)⟩

theorem ListedOnce.enter {rest : List Task} {w : Walk} (hnew : w.isNew n = true)
    (h : ListedOnce (.enter n :: rest) w) :
    ListedOnce ((net.faninNodes n).map .enter ++ .list n :: rest) (w.see n) := by
  have hentered : ((w.see n).entered ((net.faninNodes n).map .enter ++ .list n :: rest)).Perm
      (n :: w.entered (.enter n :: rest)) := by
    have hfanins : ((net.faninNodes n).map Task.enter).filterMap Task.listed? = [] :=
      List.filterMap_eq_nil_iff.mpr (List.forall_mem_map.mpr fun _ _ => rfl)
    rw [Walk.entered, List.filterMap_append, hfanins]
    exact List.perm_middle
  have hunseen : ¬ w.Sees n := by
    rw [Walk.Sees, Walk.isNew_iff.mp hnew]
    exact fun hsees => Bool.false_ne_true (Option.some.inj hsees)
  refine ⟨?_, ?_⟩
  · rw [hentered.nodup_iff, List.nodup_cons]
    exact ⟨fun hn => hunseen (h.seen n hn), h.nodup⟩
  · intro m hm
    rcases List.mem_cons.mp (hentered.mem_iff.mp hm) with rfl | hm
    · exact Walk.sees_see.mpr (.inl ⟨rfl, Walk.lt_of_isNew hnew⟩)
    · exact Walk.sees_see.mpr (.inr (h.seen m hm))

theorem nodup_coneOrder (net : Network) (boundary roots : List NodeId) :
    (net.coneOrder boundary roots).Nodup := by
  have hdone : ListedOnce [] (net.walkFrom roots ((Walk.start net).seeAll boundary)) := by
    apply walk_invariant ListedOnce
    · exact fun _ _ _ h => h.emit
    · exact fun _ _ _ hnew h => h.enter hnew
    · exact fun _ _ _ _ h => ⟨h.nodup, h.seen⟩
    · have hnone : ((Walk.start net).seeAll boundary).entered (roots.map .enter) = [] := by
        rw [Walk.entered, Walk.order_seeAll, List.append_eq_nil_iff, List.filterMap_eq_nil_iff]
        exact ⟨rfl, List.forall_mem_map.mpr fun _ _ => rfl⟩
      refine ⟨hnone ▸ List.nodup_nil, fun m hm => ?_⟩
      rw [hnone] at hm
      cases hm
  have hnodup := hdone.nodup
  rwa [Walk.entered, List.filterMap_nil, List.append_nil] at hnodup

/-! ### The parts of the order -/

/-- The constants, then the combinational inputs in their order. -/
def terminals (net : Network) : List NodeId := net.nodesOf NodeKind.isConstant ++ net.cis

/-- Some output depends on `n`. -/
def Live (net : Network) (n : NodeId) : Prop := ∃ s ∈ net.cos, ReflTransGen net.Reads s.node n

/-- A gate that an output depends on is read. -/
theorem Live.readers_ne_zero (h : net.Live n) : net.readers n ≠ 0 := by
  have hedge : ∃ s ∈ net.edges, s.node = n := by
    obtain ⟨s, hs, hpath⟩ := h
    rcases ReflTransGen.cases_tail hpath with heq | ⟨x, -, hreads⟩
    · exact ⟨s, mem_edges_iff.mpr (.inr hs), heq.symm⟩
    · obtain ⟨e, he, heq⟩ := reads_iff.mp hreads
      exact ⟨e, mem_edges_iff.mpr (.inl ⟨x, he⟩), heq⟩
  rw [readers, ← Nat.pos_iff_ne_zero, List.countP_pos_iff]
  obtain ⟨s, hs, heq⟩ := hedge
  exact ⟨s, hs, beq_iff_eq.mpr heq⟩

open scoped Classical in
/-- The gates that the outputs depend on. -/
noncomputable def liveGates (net : Network) : Finset NodeId :=
  (Finset.range net.size).filter fun n => net.isGate n = true ∧ net.Live n

theorem mem_liveGates : n ∈ net.liveGates ↔ net.isGate n = true ∧ net.Live n := by
  simp only [liveGates, Finset.mem_filter, Finset.mem_range, and_iff_right_iff_imp]
  exact fun h => lt_size_of_kindIs h.1

theorem Inventory.mem_terminals_iff (h : net.Inventory) :
    n ∈ net.terminals ↔ net.isTerminal n = true := by
  rw [terminals, List.mem_append, mem_nodesOf, h.mem_cis, isInput, isTerminal, kindIs_iff,
    kindIs_iff, kindIs_iff, ← exists_or]
  refine exists_congr fun node => ?_
  rw [← and_or_left]
  refine and_congr_right fun _ => ?_
  cases node.kind <;> simp [NodeKind.isConstant, NodeKind.isInput, NodeKind.isTerminal]

theorem Inventory.not_mem_terminals (h : net.Inventory) (hgate : net.isGate n = true) :
    n ∉ net.terminals := by
  rw [h.mem_terminals_iff, isTerminal_eq_not_isGate (lt_size_of_kindIs hgate), hgate]
  exact Bool.false_ne_true

theorem Inventory.nodup_terminals (h : net.Inventory) : net.terminals.Nodup := by
  refine (nodup_nodesOf net _).append h.nodup_cis ?_
  intro n hconstant hci
  obtain ⟨node, hnode, hkind⟩ := kindIs_iff.mp (mem_nodesOf.mp hconstant)
  have hinput := h.mem_cis.mp hci
  rw [isInput, kindIs_eq hnode] at hinput
  revert hkind hinput
  cases node.kind <;> simp [NodeKind.isConstant, NodeKind.isInput]

/-- A walk does not look at what is listed. -/
theorem walk_listed (listed : Array NodeId) (tasks : List Task) (w : Walk) :
    net.walk tasks { w with order := listed ++ w.order } =
      { net.walk tasks w with order := listed ++ (net.walk tasks w).order } := by
  induction tasks, w using walk.induct net with
  | case1 w => rw [walk, walk]
  | case2 w n rest ih =>
    rw [walk, walk, ← ih]
    simp only [Walk.emit, Array.push_append]
  | case3 w n rest hnew ih =>
    conv_rhs => rw [walk, dif_pos hnew]
    rw [walk]
    exact (dif_pos hnew).trans ih
  | case4 w n rest hnew ih =>
    conv_rhs => rw [walk, dif_neg hnew]
    rw [walk]
    exact (dif_neg hnew).trans ih

/-- The order begins with the terminals and goes on with the cone of the outputs. -/
theorem topoOrder_eq (net : Network) : net.topoOrder =
    net.terminals ++ net.coneOrder net.terminals (net.cos.map Signal.node) := by
  have hstart := @walk_listed net net.terminals.toArray
    ((net.cos.map Signal.node).map .enter) ((Walk.start net).seeAll net.terminals)
  rw [Walk.order_seeAll] at hstart
  have horder := congrArg (·.order.toList) hstart
  rw [Array.toList_append] at horder
  exact horder

/-! ### What it holds -/

/-- The cone of the outputs above the terminals. -/
theorem mem_coneOrder_cos_iff (hwf : net.WellFormed) (hac : net.Acyclic) (hinv : net.Inventory) :
    n ∈ net.coneOrder net.terminals (net.cos.map Signal.node) ↔ n ∈ net.liveGates := by
  rw [mem_liveGates]
  constructor
  · intro hn
    obtain ⟨hboundary, hlt⟩ := mem_coneOrder hn
    rw [hinv.mem_terminals_iff, isTerminal_eq_not_isGate hlt, Bool.not_eq_true', Bool.not_eq_false]
      at hboundary
    refine ⟨hboundary, of_mem_coneOrder (p := net.Live) ?_ ?_ hn⟩
    · intro r hr
      obtain ⟨s, hs, rfl⟩ := List.mem_map.mp hr
      exact ⟨s, hs, .refl⟩
    · rintro m k ⟨s, hs, hpath⟩ - hreads
      exact ⟨s, hs, hpath.tail hreads⟩
  · rintro ⟨hgate, s, hs, hpath⟩
    -- Along the path every node but the last reads, so it is a gate and above the terminals.
    induction hpath with
    | refl =>
      have hroot : s.node ∈ net.cos.map Signal.node := List.mem_map_of_mem hs
      exact (root_mem_coneOrder hwf hac hroot (hwf.output_lt hs)).resolve_left
        (hinv.not_mem_terminals hgate)
    | tail _ hreads ih =>
      obtain ⟨before, after, hsplit⟩ := List.append_of_mem (ih (hwf.isGate_of_reads hreads))
      have hbefore := mem_of_coneOrder_eq hwf hac hsplit hreads
      rw [hsplit]
      exact List.mem_append_left _ (hbefore.resolve_left (hinv.not_mem_terminals hgate))

theorem mem_topoOrder_iff (hwf : net.WellFormed) (hac : net.Acyclic) (hinv : net.Inventory) :
    n ∈ net.topoOrder ↔ net.isTerminal n = true ∨ n ∈ net.liveGates := by
  rw [topoOrder_eq, List.mem_append, hinv.mem_terminals_iff, mem_coneOrder_cos_iff hwf hac hinv]

theorem mem_liveGates_of_topoOrder (hwf : net.WellFormed) (hac : net.Acyclic)
    (hinv : net.Inventory) (hn : n ∈ net.topoOrder) (hgate : net.isGate n = true) :
    n ∈ net.liveGates :=
  ((mem_topoOrder_iff hwf hac hinv).mp hn).resolve_left fun hterminal =>
    hinv.not_mem_terminals hgate (hinv.mem_terminals_iff.mpr hterminal)

theorem lt_size_of_mem_topoOrder (hwf : net.WellFormed) (hac : net.Acyclic) (hinv : net.Inventory)
    (h : n ∈ net.topoOrder) : n < net.size := by
  rcases (mem_topoOrder_iff hwf hac hinv).mp h with hterminal | hlive
  · exact lt_size_of_kindIs hterminal
  · exact lt_size_of_kindIs (mem_liveGates.mp hlive).1

theorem nodup_topoOrder (hinv : net.Inventory) : net.topoOrder.Nodup := by
  rw [topoOrder_eq]
  refine hinv.nodup_terminals.append (nodup_coneOrder net _ _) ?_
  exact fun n hterminal hcone => (mem_coneOrder hcone).1 hterminal

theorem countP_isGate_topoOrder (hwf : net.WellFormed) (hac : net.Acyclic)
    (hinv : net.Inventory) : net.topoOrder.countP net.isGate = net.liveGates.card := by
  have hgates : (net.topoOrder.filter net.isGate).toFinset = net.liveGates := by
    ext n
    rw [List.mem_toFinset, List.mem_filter, mem_topoOrder_iff hwf hac hinv]
    refine ⟨?_, fun hn => ⟨.inr hn, (mem_liveGates.mp hn).1⟩⟩
    rintro ⟨hterminal | hn, hgate⟩
    · exact absurd (hinv.mem_terminals_iff.mpr hterminal) (hinv.not_mem_terminals hgate)
    · exact hn
  rw [List.countP_eq_length_filter, ← hgates,
    List.toFinset_card_of_nodup ((nodup_topoOrder hinv).filter _)]

/-- No node is listed a second time. -/
theorem notMem_of_topoOrder_eq (hinv : net.Inventory) {before after : List NodeId}
    (h : net.topoOrder = before ++ n :: after) : n ∉ before := by
  have hnodup := nodup_topoOrder hinv
  rw [h] at hnodup
  exact fun hn => List.disjoint_of_nodup_append hnodup hn List.mem_cons_self

/-- Every node is listed after what it reads. -/
theorem mem_of_topoOrder_eq (hwf : net.WellFormed) (hac : net.Acyclic) (hinv : net.Inventory)
    {before after : List NodeId} (h : net.topoOrder = before ++ n :: after)
    (hreads : net.Reads n m) : m ∈ before := by
  have hterminal := hinv.not_mem_terminals (hwf.isGate_of_reads hreads)
  obtain ⟨first, rfl, hcone⟩ : ∃ first, before = net.terminals ++ first ∧
      net.coneOrder net.terminals (net.cos.map Signal.node) = first ++ n :: after := by
    rw [topoOrder_eq] at h
    rcases List.append_eq_append_iff.mp h with hfirst | ⟨rest, hrest, hcone⟩
    · exact hfirst
    · rcases List.cons_eq_append_iff.mp hcone with ⟨rfl, hcone⟩ | ⟨rest, rfl, -⟩
      · exact ⟨[], by rw [hrest, List.append_nil, List.append_nil], hcone.symm⟩
      · exact absurd (hrest ▸ List.mem_append_right _ List.mem_cons_self) hterminal
  rw [List.mem_append]
  exact mem_of_coneOrder_eq hwf hac hcone hreads

/-- Whatever drives an output is listed. -/
theorem output_mem_topoOrder (hwf : net.WellFormed) (hac : net.Acyclic) (hinv : net.Inventory)
    {s : Signal} (hs : s ∈ net.cos) : s.node ∈ net.topoOrder := by
  rw [mem_topoOrder_iff hwf hac hinv, mem_liveGates, isTerminal_eq_not_isGate (hwf.output_lt hs)]
  cases hgate : net.isGate s.node with
  | false => exact .inl rfl
  | true => exact .inr ⟨rfl, s, hs, .refl⟩

end LogicSynthesis.Network
