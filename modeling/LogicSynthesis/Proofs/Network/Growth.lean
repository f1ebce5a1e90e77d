import LogicSynthesis.Proofs.Network.WellFormed

/-!
# Growing networks

Creating gates extends a network: the nodes that were there keep their kind, fanins and function,
and the fresh ones are gates that read earlier nodes. So an acyclic network stays acyclic and every
old node keeps its value.

## Main definitions

- `Network.Extends` — the logic of one network continues the logic of another
- `Scratch.Past` — no mark is of a walk to come
- `Scratch.Agrees` — two scratch states hold the same notes
- `Network.GrowsTo` — gates and functions were added, and nothing else happened

## Main statements

- `Extends.acyclic`, `Extends.value_eq` — extending keeps acyclicity and values
- `GrowsTo.wellFormed`, `GrowsTo.extends`, `GrowsTo.agrees` — what growing keeps
- `createNode_eq_ok`, `createNode_spec` — the gate that is created or found
-/

namespace LogicSynthesis

namespace Scratch

/-- The value of a node; none counts as zero. -/
def valueAt (s : Scratch) (n : NodeId) : Nat := (s.values[n]?).getD 0

def markAt (s : Scratch) (n : NodeId) : Nat := (s.marks[n]?).getD 0

/-- No mark is of a walk to come. -/
def Past (s : Scratch) : Prop := ∀ n, s.markAt n ≤ s.walk

theorem past_of_forall_mem {s : Scratch} (h : ∀ mark ∈ s.marks.toList, mark ≤ s.walk) : s.Past := by
  intro n
  rw [markAt]
  cases hget : s.marks[n]? with
  | none => exact Nat.zero_le _
  | some mark => exact h mark (Array.mem_toList_iff.mpr (Array.mem_of_getElem? hget))

/-- The notes are the same, though there may be room for more of them. -/
structure Agrees (s s' : Scratch) : Prop where
  valueAt : s'.valueAt = s.valueAt
  markAt : s'.markAt = s.markAt
  walk : s'.walk = s.walk

theorem Agrees.refl (s : Scratch) : s.Agrees s := ⟨rfl, rfl, rfl⟩

theorem Agrees.trans {s s' s'' : Scratch} (h : s.Agrees s') (h' : s'.Agrees s'') : s.Agrees s'' :=
  ⟨h'.valueAt.trans h.valueAt, h'.markAt.trans h.markAt, h'.walk.trans h.walk⟩

theorem Agrees.past {s s' : Scratch} (h : s.Agrees s') (hpast : s.Past) : s'.Past := by
  intro n
  rw [h.markAt, h.walk]
  exact hpast n

theorem getD_push_zero (ns : Array Nat) (n : Nat) :
    ((ns.push 0)[n]?).getD 0 = (ns[n]?).getD 0 := by
  rw [Array.getElem?_push]
  by_cases h : n = ns.size
  · rw [if_pos h, h, Array.getElem?_size]
    rfl
  · rw [if_neg h]

theorem agrees_grow (s : Scratch) : s.Agrees s.grow := by
  refine ⟨?_, ?_, rfl⟩
  · funext n
    exact getD_push_zero s.values n
  · funext n
    exact getD_push_zero s.marks n

end Scratch

namespace Network

variable {net mid net' : Network}

/-- The logic of `net'` continues that of `net`. -/
structure Extends (net net' : Network) : Prop where
  basis : net'.basis = net.basis
  pis : net'.pis = net.pis
  ros : net'.ros = net.ros
  pos : net'.pos = net.pos
  ris : net'.ris = net.ris
  kept : ∀ (n : NodeId) (node : Node), net.nodes[n]? = some node → ∃ node' : Node,
    net'.nodes[n]? = some node' ∧ node'.kind = node.kind ∧ node'.fanins = node.fanins ∧
      node'.function = node.function
  fresh : ∀ (n : NodeId) (node : Node), net'.nodes[n]? = some node → net.size ≤ n →
    node.kind = .gate ∧ ∀ s ∈ node.fanins, s.node < n
  functions : ∀ (literal : Nat) (t : TruthTable), net.functions.get? literal = some t →
    net'.functions.get? literal = some t

namespace Extends

theorem refl (net : Network) : net.Extends net := by
  refine ⟨rfl, rfl, rfl, rfl, rfl, ?_, ?_, ?_⟩
  · exact fun n node hn => ⟨node, hn, rfl, rfl, rfl⟩
  · intro n node hn hle
    exact absurd (lt_size_of_getElem? hn) (Nat.not_lt.mpr hle)
  · exact fun _ _ h => h

theorem size_le (h : net.Extends net') : net.size ≤ net'.size := by
  by_contra hlt
  obtain ⟨node, hn⟩ := exists_node (Nat.not_le.mp hlt)
  obtain ⟨node', hn', -⟩ := h.kept _ node hn
  exact lt_irrefl _ (lt_size_of_getElem? hn')

theorem trans (h : net.Extends mid) (h' : mid.Extends net') : net.Extends net' := by
  refine ⟨h'.basis.trans h.basis, h'.pis.trans h.pis, h'.ros.trans h.ros, h'.pos.trans h.pos,
    h'.ris.trans h.ris, ?_, ?_, ?_⟩
  · intro n node hn
    obtain ⟨node₁, hn₁, hkind₁, hfanins₁, hfunction₁⟩ := h.kept n node hn
    obtain ⟨node₂, hn₂, hkind₂, hfanins₂, hfunction₂⟩ := h'.kept n node₁ hn₁
    exact ⟨node₂, hn₂, hkind₂.trans hkind₁, hfanins₂.trans hfanins₁, hfunction₂.trans hfunction₁⟩
  · intro n node hn hle
    by_cases hlt : n < mid.size
    · obtain ⟨node₁, hn₁⟩ := exists_node hlt
      obtain ⟨node₂, hn₂, hkind, hfanins, -⟩ := h'.kept n node₁ hn₁
      obtain rfl := Option.some.inj (hn.symm.trans hn₂)
      rw [hkind, hfanins]
      exact h.fresh n node₁ hn₁ hle
    · exact h'.fresh n node hn (Nat.not_lt.mp hlt)
  · exact fun literal t ht => h'.functions literal t (h.functions literal t ht)

/-- An old node, as it is now. -/
theorem fanins_eq (h : net.Extends net') {n : NodeId} (hn : n < net.size) :
    net'.fanins n = net.fanins n := by
  obtain ⟨node, hnode⟩ := exists_node hn
  obtain ⟨node', hnode', -, hfanins, -⟩ := h.kept n node hnode
  rw [Network.fanins_eq hnode, Network.fanins_eq hnode', hfanins]

theorem faninNodes_eq (h : net.Extends net') {n : NodeId} (hn : n < net.size) :
    net'.faninNodes n = net.faninNodes n := by
  rw [faninNodes, faninNodes, h.fanins_eq hn]

theorem reads_iff (h : net.Extends net') {n m : NodeId} (hn : n < net.size) :
    net'.Reads n m ↔ net.Reads n m := by
  rw [Reads, Reads, h.faninNodes_eq hn]

theorem kindIs_eq (h : net.Extends net') (p : NodeKind → Bool) {n : NodeId} (hn : n < net.size) :
    net'.kindIs p n = net.kindIs p n := by
  obtain ⟨node, hnode⟩ := exists_node hn
  obtain ⟨node', hnode', hkind, -⟩ := h.kept n node hnode
  rw [Network.kindIs_eq hnode, Network.kindIs_eq hnode', hkind]

theorem cos_eq (h : net.Extends net') : net'.cos = net.cos := by
  rw [cos, cos, h.pos, h.ris]

theorem cis_eq (h : net.Extends net') : net'.cis = net.cis := by
  rw [cis, cis, h.pis, h.ros]

/-- A fresh node reads earlier nodes only. -/
theorem lt_of_reads (h : net.Extends net') {n m : NodeId} (hle : net.size ≤ n)
    (hreads : net'.Reads n m) : m < n := by
  obtain ⟨s, hs, rfl⟩ := Network.reads_iff.mp hreads
  obtain ⟨node, hnode⟩ := exists_node hreads.lt_size
  rw [Network.fanins_eq hnode] at hs
  exact (h.fresh n node hnode hle).2 s hs

theorem acyclic (h : net.Extends net') (hwf : net.WellFormed) (hac : net.Acyclic) :
    net'.Acyclic := by
  -- Old nodes are ranked by what they depend on, fresh ones above them by their number.
  apply acyclic_of_rank fun n =>
    if n < net.size then (net.support n).card else net.size + n + 1
  intro n m hreads
  by_cases hn : n < net.size
  · rw [h.reads_iff hn] at hreads
    rw [if_pos hn, if_pos (hwf.reads_lt hreads)]
    exact hac.card_support_lt hreads
  · have hcard := card_support_le net m
    rw [if_neg hn]
    split
    · omega
    · exact Nat.succ_lt_succ (Nat.add_lt_add_left (h.lt_of_reads (Nat.not_lt.mp hn) hreads) _)

theorem functionOf_eq (h : net.Extends net') (hwf : net.WellFormed) {n : NodeId} {node node' : Node}
    (hn : net.nodes[n]? = some node) (hkind : node.kind = .gate)
    (hfunction : node'.function = node.function) : net'.functionOf node' = net.functionOf node := by
  obtain ⟨t, ht, -⟩ := hwf.exists_function hn hkind
  rw [functionOf, functionOf, hfunction, ht, h.functions _ t ht]

/-- Old nodes keep their values. -/
theorem value_eq (h : net.Extends net') (hwf : net.WellFormed) (hac : net.Acyclic)
    (inputs : Assignment) {n : NodeId} (hn : n < net.size) :
    net'.value inputs n = net.value inputs n := by
  induction n using hac.induction with
  | _ n ih =>
    obtain ⟨node, hnode⟩ := exists_node hn
    obtain ⟨node', hnode', hkind, hfanins, hfunction⟩ := h.kept n node hnode
    have hcongr : net'.nodeValue inputs (net'.value inputs) n =
        net'.nodeValue inputs (net.value inputs) n := by
      apply nodeValue_congr
      intro m hreads
      rw [h.reads_iff hn] at hreads
      exact ih m hreads (hwf.reads_lt hreads)
    rw [Network.value_eq (h.acyclic hwf hac), Network.value_eq hac, hcongr, nodeValue, nodeValue,
      hnode, hnode']
    cases hgate : node.kind with
    | gate => simp only [hkind, hgate, hfanins, h.functionOf_eq hwf hnode hgate hfunction]
    | _ => simp only [hkind, hgate]

theorem signalValue_eq (h : net.Extends net') (hwf : net.WellFormed) (hac : net.Acyclic)
    (inputs : Assignment) {s : Signal} (hs : s.node < net.size) :
    net'.signalValue inputs s = net.signalValue inputs s := by
  rw [signalValue, signalValue, edgeValue, edgeValue, h.value_eq hwf hac inputs hs]

end Extends

/-- The scratch state is no part of the logic. -/
theorem extends_withScratch (net : Network) (scratch : Scratch) :
    net.Extends (net.withScratch scratch) := by
  exact { Extends.refl net with }

/-- Notes do not change the values of nodes. -/
theorem value_withScratch (net : Network) (scratch : Scratch) (env : Assignment) :
    (net.withScratch scratch).value env = net.value env :=
  funext (@value_congr net (net.withScratch scratch) rfl (fun _ _ _ => rfl) env)

/-! ### Creating gates -/

theorem appendGate_fst (net : Network) (fanins : List Signal) (literal : Nat) :
    (net.appendGate fanins literal).1 = net.size := size_countReaders net.nodes fanins

theorem getElem?_appendGate (net : Network) (fanins : List Signal) (literal n : Nat) :
    (net.appendGate fanins literal).2.nodes[n]? =
      if n = net.size then some { kind := .gate, fanins, function := literal, fanout := 0 }
      else (countReaders net.nodes fanins)[n]? := by
  refine Array.getElem?_push.trans ?_
  rw [show (List.foldl (fun nodes s => countReader nodes s.node) net.nodes fanins).size = net.size
    from size_countReaders net.nodes fanins]
  rfl

theorem size_appendGate (net : Network) (fanins : List Signal) (literal : Nat) :
    (net.appendGate fanins literal).2.size = net.size + 1 := by
  refine (Array.size_push _).trans ?_
  exact congrArg (· + 1) (size_countReaders net.nodes fanins)

theorem extends_appendGate {fanins : List Signal} (hlt : ∀ s ∈ fanins, s.node < net.size)
    (literal : Nat) : net.Extends (net.appendGate fanins literal).2 := by
  refine ⟨rfl, rfl, rfl, rfl, rfl, ?_, ?_, ?_⟩
  · intro n node hn
    refine ⟨{ node with fanout := node.fanout + fanins.countP (·.node == n) }, ?_, rfl, rfl, rfl⟩
    rw [getElem?_appendGate, if_neg (lt_size_of_getElem? hn).ne, getElem?_countReaders, hn,
      Option.map_some]
  · intro n node hn hle
    have hlt' := lt_size_of_getElem? hn
    rw [size_appendGate] at hlt'
    obtain rfl : n = net.size := Nat.le_antisymm (Nat.le_of_lt_succ hlt') hle
    rw [getElem?_appendGate, if_pos rfl] at hn
    obtain rfl := Option.some.inj hn
    exact ⟨rfl, hlt⟩
  · exact fun _ _ h => h

/-- A gate that the index finds is returned, and nothing changes. -/
theorem createNode_of_index {fanins : List Signal} {literal : Nat} {n : NodeId}
    (hfound : net.index[(fanins, literal)]? = some n) :
    net.createNode fanins literal = .ok (n, net) := by
  rw [createNode, hfound]

theorem createNode_eq_appendGate {fanins : List Signal} {literal : Nat}
    (hfound : net.index[(fanins, literal)]? = none) (hlt : ∀ s ∈ fanins, s.node < net.size) :
    net.createNode fanins literal = .ok (net.appendGate fanins literal) := by
  have hcheck : net.checkNodes (fanins.map Signal.node) = .ok () := by
    apply checkNodes_of
    intro n hn
    obtain ⟨s, hs, rfl⟩ := List.mem_map.mp hn
    exact hlt s hs
  rw [createNode, hfound]
  simp only [hcheck, ok_bind]
  rfl

/-- A gate is found in the index, and nothing changes, or it is appended. -/
theorem createNode_eq_ok {fanins : List Signal} {literal : Nat} {n : NodeId}
    (hcreate : net.createNode fanins literal = .ok (n, net')) :
    net.index[(fanins, literal)]? = some n ∧ net' = net ∨
      n = net.size ∧ net' = (net.appendGate fanins literal).2 ∧
        ∀ s ∈ fanins, s.node < net.size := by
  unfold createNode at hcreate
  cases hfound : net.index[(fanins, literal)]? with
  | some m =>
    rw [hfound] at hcreate
    obtain ⟨rfl, rfl⟩ := Prod.mk.inj (Except.ok.inj hcreate)
    exact .inl ⟨rfl, rfl⟩
  | none =>
    rw [hfound] at hcreate
    obtain ⟨u, hcheck, hcreate⟩ := bind_eq_ok hcreate
    have hadded := Except.ok.inj hcreate
    obtain rfl : (net.appendGate fanins literal).2 = net' := congrArg Prod.snd hadded
    obtain rfl : (net.appendGate fanins literal).1 = n := congrArg Prod.fst hadded
    refine .inr ⟨appendGate_fst net fanins literal, rfl, ?_⟩
    exact fun s hs => checkNodes_eq_ok hcheck s.node (List.mem_map_of_mem hs)

/-- The gate that is found or created, and the network that holds it. -/
theorem createNode_spec (h : net.WellFormed) {fanins : List Signal} {literal : Nat} {n : NodeId}
    (hcreate : net.createNode fanins literal = .ok (n, net')) :
    (net' = net ∨ net' = (net.appendGate fanins literal).2 ∧ ∀ s ∈ fanins, s.node < net.size) ∧
      ∃ node : Node, net'.nodes[n]? = some node ∧ node.kind = .gate ∧ node.fanins = fanins ∧
        node.function = literal := by
  rcases createNode_eq_ok hcreate with ⟨hfound, rfl⟩ | ⟨rfl, rfl, hlt⟩
  · obtain ⟨node, hnode, hkind, hkey⟩ := h.index _ _ hfound
    obtain ⟨hfanins, hfunction⟩ := Prod.mk.inj hkey
    exact ⟨.inl rfl, node, hnode, hkind, hfanins, hfunction⟩
  · refine ⟨.inr ⟨rfl, hlt⟩, { kind := .gate, fanins, function := literal, fanout := 0 }, ?_, rfl,
      rfl, rfl⟩
    rw [getElem?_appendGate, if_pos rfl]

/-- A gate with existing fanins can always be created. -/
theorem exists_createNode {fanins : List Signal} (hlt : ∀ s ∈ fanins, s.node < net.size)
    (literal : Nat) : ∃ n net', net.createNode fanins literal = .ok (n, net') := by
  cases hfound : net.index[(fanins, literal)]? with
  | some n => exact ⟨n, net, createNode_of_index hfound⟩
  | none => exact ⟨_, _, createNode_eq_appendGate hfound hlt⟩

theorem WellFormed.createNode (h : net.WellFormed) {fanins : List Signal} {literal : Nat}
    {n : NodeId} (hfits : net.Fits fanins literal)
    (hcreate : net.createNode fanins literal = .ok (n, net')) : net'.WellFormed := by
  obtain ⟨rfl | ⟨rfl, hlt⟩, -⟩ := createNode_spec h hcreate
  · exact h
  · exact h.appendGate hfits hlt

theorem extends_createNode (h : net.WellFormed) {fanins : List Signal} {literal : Nat} {n : NodeId}
    (hcreate : net.createNode fanins literal = .ok (n, net')) : net.Extends net' := by
  obtain ⟨rfl | ⟨rfl, hlt⟩, -⟩ := createNode_spec h hcreate
  · exact .refl _
  · exact extends_appendGate hlt literal

theorem extends_insertFunction (net : Network) (t : TruthTable) :
    net.Extends (net.insertFunction t).2 :=
  { Extends.refl net with functions := fun _ _ h => FunctionCache.get?_insert_of_get? h }

/-- `net'` arises from `net` by creating gates and entering functions. -/
inductive GrowsTo (net : Network) : Network → Prop
  | refl : GrowsTo net net
  | gate {mid net' : Network} {fanins : List Signal} {literal : Nat} {n : NodeId}
      (former : GrowsTo net mid) (hfits : mid.Fits fanins literal)
      (hcreate : mid.createNode fanins literal = .ok (n, net')) : GrowsTo net net'
  | function {mid : Network} {t : TruthTable} (former : GrowsTo net mid) (ht : t.Canonical) :
      GrowsTo net (mid.insertFunction t).2

namespace GrowsTo

theorem trans (h : net.GrowsTo mid) (h' : mid.GrowsTo net') : net.GrowsTo net' := by
  induction h' with
  | refl => exact h
  | gate _ hfits hcreate ih => exact .gate ih hfits hcreate
  | function _ ht ih => exact .function ih ht

theorem wellFormed (h : net.GrowsTo net') (hwf : net.WellFormed) : net'.WellFormed := by
  induction h with
  | refl => exact hwf
  | gate _ hfits hcreate ih => exact ih.createNode hfits hcreate
  | function _ ht ih => exact ih.insertFunction ht

theorem «extends» (h : net.GrowsTo net') (hwf : net.WellFormed) : net.Extends net' := by
  induction h with
  | refl => exact .refl net
  | gate former _ hcreate ih => exact ih.trans (extends_createNode (former.wellFormed hwf) hcreate)
  | function _ _ ih => exact ih.trans (extends_insertFunction _ _)

theorem agrees (h : net.GrowsTo net') (hwf : net.WellFormed) : net.scratch.Agrees net'.scratch := by
  induction h with
  | refl => exact .refl _
  | gate former _ hcreate ih =>
    obtain ⟨rfl | ⟨rfl, -⟩, -⟩ := createNode_spec (former.wellFormed hwf) hcreate
    · exact ih
    · exact ih.trans (Scratch.agrees_grow _)
  | function _ _ ih => exact ih

theorem acyclic (h : net.GrowsTo net') (hwf : net.WellFormed) (hac : net.Acyclic) :
    net'.Acyclic := (h.extends hwf).acyclic hwf hac

end GrowsTo

end Network

end LogicSynthesis
