import LogicSynthesis.Proofs.Network.Walk
import LogicSynthesis.Proofs.TruthTable.Composition
import LogicSynthesis.Simulation

/-!
# Simulated cones

The table that simulation finds for a node gives the value of the node from the values of the
window inputs. The inputs may depend on each other: the statement is about the assignments that
they take together.

## Main definitions

- `Network.Tabulates` — a table gives the value of a node
- `Network.Tabled` — some nodes have such tables
- `Network.Encloses` — a window between some nodes and the inputs

## Main statements

- `exists_edgeTables`, `tabulates_gate` — the tables of fanins, and the table of a gate from them
- `evaluateNode_ends` — the table of a node from the tables of its fanins
- `simulateCone_ends` — the tables of the nodes that a window encloses
- `encloses_of_simulateCone` — where there are tables, the window encloses its targets
-/

namespace LogicSynthesis.Network

variable {net : Network} {permitted : Fault → Prop} {inputs : List NodeId}

/-- The table gives the value of `n` from the values of the inputs. -/
structure Tabulates (net : Network) (inputs : List NodeId) (n : NodeId) (t : TruthTable) :
    Prop where
  canonical : t.Canonical
  numVars : t.numVars = inputs.length
  bit : ∀ env : Assignment, t.bit (codeOf (inputs.map (net.value env))) = net.value env n

/-- Every known node has a table. -/
def Tabled (net : Network) (inputs : List NodeId) (known : NodeId → Prop)
    (values : Std.HashMap NodeId TruthTable) : Prop :=
  ∀ n, known n → ∃ t, values[n]? = some t ∧ net.Tabulates inputs n t

/-- A value that is kept for one more node. -/
theorem known_insert {α : Type} {good : NodeId → α → Prop} {known : NodeId → Prop}
    {values : Std.HashMap NodeId α} (h : ∀ n, known n → ∃ a, values[n]? = some a ∧ good n a)
    {n : NodeId} {a : α} (ha : good n a) :
    ∀ m, m = n ∨ known m → ∃ b, (values.insert n a)[m]? = some b ∧ good m b := by
  intro m hm
  rw [Std.HashMap.getElem?_insert]
  by_cases heq : n = m
  · subst heq
    exact ⟨a, if_pos (beq_self_eq_true n), ha⟩
  · rw [if_neg (by simpa using heq)]
    exact h m (hm.resolve_left (Ne.symm heq))

theorem Tabled.insert {known : NodeId → Prop} {values : Std.HashMap NodeId TruthTable}
    (h : net.Tabled inputs known values) {n : NodeId} {t : TruthTable}
    (ht : net.Tabulates inputs n t) :
    net.Tabled inputs (fun m => m = n ∨ known m) (values.insert n t) := known_insert h ht

theorem Tabled.mono {known known' : NodeId → Prop} {values : Std.HashMap NodeId TruthTable}
    (h : net.Tabled inputs known values) (himp : ∀ n, known' n → known n) :
    net.Tabled inputs known' values := fun n hn => h n (himp n hn)

theorem codeOf_values_lt (net : Network) (inputs : List NodeId) (env : Assignment) :
    codeOf (inputs.map (net.value env)) < 2 ^ inputs.length := by
  have hlt := codeOf_lt (inputs.map (net.value env))
  rwa [List.length_map] at hlt

/-! ### Inputs -/

theorem tabulates_proj (hlen : inputs.length ≤ TruthTable.maxVars) {i : Nat} {n : NodeId}
    (hn : inputs[i]? = some n) : net.Tabulates inputs n (.proj inputs.length i) := by
  refine ⟨TruthTable.canonical_proj hlen i, TruthTable.numVars_proj _ _, ?_⟩
  intro env
  rw [TruthTable.bit_proj, decide_eq_true (net.codeOf_values_lt inputs env), Bool.true_and,
    testBit_codeOf, List.getElem?_map, hn]
  rfl

theorem inputTables_ends (net : Network) (hlen : inputs.length ≤ TruthTable.maxVars) :
    Ends permitted (inputTables inputs) (net.Tabled inputs (· ∈ inputs)) := by
  have hloop : Ends permitted (inputTables inputs) (net.Tabled inputs fun n =>
      ∃ i, (n, i) ∈ inputs.zipIdx) := by
    refine Ends.foldlM_prefix (fun before => net.Tabled inputs fun n => ∃ i, (n, i) ∈ before) ?_ ?_
    · rintro n ⟨i, hi⟩
      cases hi
    · rintro before ⟨n, i⟩ after values heq h
      have hmem : (n, i) ∈ inputs.zipIdx := by
        rw [heq]
        exact List.mem_append_right _ List.mem_cons_self
      have hn : inputs[i]? = some n := List.mem_zipIdx_iff_getElem?.mp hmem
      have hlt : i < inputs.length := (List.getElem?_eq_some_iff.mp hn).1
      refine .of_eq (a := values.insert n (.proj inputs.length i)) ?_ ?_
      · show (TruthTable.Checked.var inputs.length i >>= fun t => pure (values.insert n t)) = _
        rw [TruthTable.Checked.var_eq hlt hlen]
        rfl
      · refine (h.insert (tabulates_proj hlen hn)).mono ?_
        rintro m ⟨j, hj⟩
        rw [List.mem_append, List.mem_singleton] at hj
        rcases hj with hj | hj
        · exact .inr ⟨j, hj⟩
        · exact .inl (congrArg Prod.fst hj)
  refine hloop.mono fun values h => h.mono fun n hn => ?_
  obtain ⟨i, hi⟩ := List.getElem?_of_mem hn
  exact ⟨i, List.mem_zipIdx_iff_getElem?.mpr hi⟩

/-! ### Nodes -/

theorem lookUp_eq {α : Type} {values : Std.HashMap NodeId α} {n : NodeId} {a : α}
    (h : values[n]? = some a) : lookUp values n = .ok a := by
  rw [lookUp, h]

/-- The table of an edge from the table of its driver. -/
theorem edgeTable_ends {known : NodeId → Prop} {values : Std.HashMap NodeId TruthTable}
    (h : net.Tabled inputs known values) {s : Signal} (hs : known s.node) :
    ∃ t : TruthTable, edgeTable values s = .ok t ∧ t.Canonical ∧ t.numVars = inputs.length ∧
      ∀ env, t.bit (codeOf (inputs.map (net.value env))) = net.signalValue env s := by
  obtain ⟨t, hget, ht⟩ := h s.node hs
  refine ⟨t.withPolarity s.negated, ?_, ht.canonical.withPolarity _, ?_, ?_⟩
  · rw [edgeTable, lookUp_eq hget]
    rfl
  · rw [TruthTable.numVars_withPolarity, ht.numVars]
  · intro env
    have hlt := net.codeOf_values_lt inputs env
    rw [← ht.numVars] at hlt
    rw [TruthTable.bit_withPolarity ht.canonical _ hlt, ht.bit]
    rfl

theorem tabulates_constant (hlen : inputs.length ≤ TruthTable.maxVars) {n : NodeId} {v : Bool}
    (hvalue : ∀ env, net.value env n = v) :
    ∃ t, (if v then TruthTable.Checked.const1 inputs.length
      else TruthTable.Checked.const0 inputs.length) = .ok t ∧ net.Tabulates inputs n t := by
  cases v with
  | true =>
    refine ⟨_, TruthTable.Checked.const1_eq hlen, TruthTable.canonical_one hlen,
      TruthTable.numVars_one _, ?_⟩
    intro env
    rw [TruthTable.bit_one, hvalue, decide_eq_true (net.codeOf_values_lt inputs env)]
  | false =>
    refine ⟨_, TruthTable.Checked.const0_eq hlen, TruthTable.canonical_zero hlen, rfl, ?_⟩
    intro env
    rw [TruthTable.bit_zero, hvalue]

/-- The tables of some edges, which together give the values of all of them. -/
theorem exists_edgeTables {known : NodeId → Prop} {values : Std.HashMap NodeId TruthTable}
    (h : net.Tabled inputs known values) {fanins : List Signal}
    (hknown : ∀ s ∈ fanins, known s.node) :
    ∃ tables, fanins.mapM (edgeTable values) = .ok tables ∧ tables.length = fanins.length ∧
      TruthTable.OfArity inputs.length tables ∧ ∀ env,
        tables.map (·.bit (codeOf (inputs.map (net.value env)))) =
          fanins.map (net.signalValue env) := by
  induction fanins with
  | nil => exact ⟨[], rfl, rfl, fun _ ht => absurd ht List.not_mem_nil, fun _ => rfl⟩
  | cons s fanins ih =>
    obtain ⟨hs, hknown⟩ := List.forall_mem_cons.mp hknown
    obtain ⟨t, ht, hcanonical, hvars, hbit⟩ := edgeTable_ends h hs
    obtain ⟨tables, htables, hlength, harity, hbits⟩ := ih hknown
    refine ⟨t :: tables, ?_, congrArg Nat.succ hlength,
      List.forall_mem_cons.mpr ⟨⟨hcanonical, hvars⟩, harity⟩, fun env => ?_⟩
    · rw [List.mapM_cons, ht, ok_bind, htables]
      rfl
    · rw [List.map_cons, List.map_cons, hbit, hbits]

/-- The function of a gate, composed with tables of its fanins, is a table of the gate. -/
theorem tabulates_gate (hwf : net.WellFormed) (hac : net.Acyclic)
    (hlen : inputs.length ≤ TruthTable.maxVars) {n : NodeId} {node : Node}
    (hnode : net.nodes[n]? = some node) (hkind : node.kind = .gate) {tables : List TruthTable}
    (hlength : tables.length = node.fanins.length)
    (harity : TruthTable.OfArity inputs.length tables)
    (hbits : ∀ env, tables.map (·.bit (codeOf (inputs.map (net.value env)))) =
      node.fanins.map (net.signalValue env)) :
    ∃ t, net.functions.get node.function = .ok t ∧
      TruthTable.Checked.compose t tables = .ok (t.compose tables) ∧
        net.Tabulates inputs n (t.compose tables) := by
  obtain ⟨t, ht, hcanonical, hvars⟩ := hwf.exists_function hnode hkind
  have hnonempty : tables ≠ [] := by
    rintro rfl
    exact (hwf.fits n node hnode hkind).nonempty (List.length_eq_zero_iff.mp hlength.symm)
  have hcommon := TruthTable.commonVars_eq harity hnonempty
  have hle := hcommon.le.trans hlen
  have hlength' : tables.length = t.numVars := hlength.trans hvars.symm
  refine ⟨t, FunctionCache.get_eq_ok.mpr ht,
    TruthTable.Checked.compose_eq hcanonical harity hle hlength',
    TruthTable.canonical_compose harity hle,
    (TruthTable.numVars_compose harity hle).trans hcommon, fun env => ?_⟩
  rw [TruthTable.bit_compose harity hle hlength'
    (hcommon.symm ▸ net.codeOf_values_lt inputs env), hbits, value_of_gate hac hnode hkind,
    functionOf, ht]
  rfl

theorem evaluateNode_ends (hwf : net.WellFormed) (hac : net.Acyclic)
    (hlen : inputs.length ≤ TruthTable.maxVars) {known : NodeId → Prop}
    {values : Std.HashMap NodeId TruthTable} (h : net.Tabled inputs known values) {n : NodeId}
    (hn : n < net.size) (hinput : net.isInput n = false)
    (hfanins : ∀ m, net.Reads n m → known m) :
    Ends permitted (net.evaluateNode inputs.length values n) (net.Tabulates inputs n) := by
  obtain ⟨node, hnode⟩ := exists_node hn
  rw [evaluateNode, node_eq hnode, ok_bind]
  rw [isInput, kindIs_eq hnode] at hinput
  cases hkind : node.kind with
  | constant v =>
    obtain ⟨t, hrun, ht⟩ := tabulates_constant hlen fun env => value_of_constant hac hnode hkind
    exact .of_eq hrun ht
  | primaryInput =>
    rw [hkind] at hinput
    cases hinput
  | registerOutput =>
    rw [hkind] at hinput
    cases hinput
  | gate =>
    have hknown : ∀ s ∈ node.fanins, known s.node := fun s hs => hfanins _ (reads_of_mem hnode hs)
    obtain ⟨tables, hmap, hlength, harity, hbits⟩ := exists_edgeTables h hknown
    obtain ⟨t, hget, hcompose, ht⟩ :=
      tabulates_gate hwf hac hlen hnode hkind hlength harity hbits
    refine .of_eq ?_ ht
    simp only [hmap, hget, ok_bind, hcompose]

/-! ### Cones -/

/-- No path from a target leads past the window to an input of the network: all nodes on such
paths are in a region that has no inputs above the window. -/
structure Encloses (net : Network) (window targets : List NodeId) : Prop where
  window_lt : ∀ n ∈ window, n < net.size
  target_lt : ∀ n ∈ targets, n < net.size
  region : ∃ p : NodeId → Prop, (∀ n ∈ targets, p n) ∧
    (∀ n m, p n → n ∉ window → net.Reads n m → p m) ∧
      ∀ n, p n → n ∉ window → net.isInput n = false

/-- Every target has a table over a window that encloses it. -/
theorem simulateCone_ends (hwf : net.WellFormed) (hac : net.Acyclic) {targets : List NodeId}
    (hlen : inputs.length ≤ TruthTable.maxVars) (h : net.Encloses inputs targets) :
    Ends permitted (net.simulateCone inputs targets)
      (List.Forall₂ (net.Tabulates inputs) targets) := by
  obtain ⟨hinputs, htargets, p, hstart, hp, hinput⟩ := h
  refine (inputTables_ends net hlen).bind ?_
  intro start hstarted
  have hexist : ∀ n ∈ inputs ++ targets, n < net.size := by
    intro n hn
    rcases List.mem_append.mp hn with hn | hn
    · exact hinputs n hn
    · exact htargets n hn
  rw [checkNodes_of hexist, ok_bind]
  have hloop : Ends permitted ((net.coneOrder inputs targets).foldlM
      (net.evaluateInto inputs.length) start) (net.Tabled inputs fun n =>
        n ∈ net.coneOrder inputs targets ∨ n ∈ inputs) := by
    refine Ends.foldlM_prefix (fun before => net.Tabled inputs fun n => n ∈ before ∨ n ∈ inputs)
      (hstarted.mono fun n hn => hn.resolve_left List.not_mem_nil) ?_
    intro before n after values heq h
    have hn : n ∈ net.coneOrder inputs targets := by
      rw [heq]
      exact List.mem_append_right _ List.mem_cons_self
    obtain ⟨hout, hlt⟩ := mem_coneOrder hn
    have hpn : p n := of_mem_coneOrder hstart hp hn
    refine (evaluateNode_ends hwf hac hlen h hlt (hinput n hpn hout) ?_).bind ?_
    · exact fun m hreads => (mem_of_coneOrder_eq hwf hac heq hreads).symm
    · intro t ht
      refine (h.insert ht).mono ?_
      rintro m (hm | hm)
      · rw [List.mem_append, List.mem_singleton] at hm
        exact hm.symm.imp_right Or.inl
      · exact .inr (.inr hm)
  refine hloop.bind ?_
  intro values h
  clear hloop hexist
  have hknown : ∀ n ∈ targets, n ∈ net.coneOrder inputs targets ∨ n ∈ inputs :=
    fun n hn => (root_mem_coneOrder hwf hac hn (htargets n hn)).symm
  -- From here on the order only matters for what it has tables of.
  generalize net.coneOrder inputs targets = order at h hknown
  clear hstart htargets
  induction targets with
  | nil => exact .nil
  | cons n targets ih =>
    obtain ⟨t, hget, ht⟩ := h n (hknown n List.mem_cons_self)
    rw [List.mapM_cons, lookUp_eq hget, ok_bind]
    refine (ih fun m hm => hknown m (List.mem_cons_of_mem _ hm)).bind ?_
    exact fun tables htables => .cons ht htables

/-! ### Windows that were simulated -/

theorem length_le_of_inputTables {start : Std.HashMap NodeId TruthTable}
    (h : inputTables inputs = .ok start) : inputs.length ≤ TruthTable.maxVars := by
  cases inputs with
  | nil => exact Nat.zero_le _
  | cons n inputs =>
    rw [inputTables, List.zipIdx_cons, List.foldlM_cons] at h
    obtain ⟨values, hfirst, -⟩ := bind_eq_ok h
    obtain ⟨t, hvar, -⟩ := bind_eq_ok hfirst
    obtain ⟨-, -, hvar⟩ := bind_eq_ok hvar
    obtain ⟨_, hfew, -⟩ := bind_eq_ok hvar
    exact of_decide_eq_true (require_eq_ok hfew)

/-- Inputs above the window are not evaluated. -/
theorem isInput_of_evaluateNode {numVars : Nat} {values : Std.HashMap NodeId TruthTable}
    {n : NodeId} {t : TruthTable} (h : net.evaluateNode numVars values n = .ok t) :
    net.isInput n = false := by
  cases hnode : net.nodes[n]? with
  | none =>
    rw [isInput, kindIs, hnode]
  | some node =>
    rw [evaluateNode, node_eq hnode, ok_bind] at h
    rw [isInput, kindIs_eq hnode]
    cases hkind : node.kind with
    | constant v => rfl
    | gate => rfl
    | primaryInput =>
      rw [hkind] at h
      cases h
    | registerOutput =>
      rw [hkind] at h
      cases h

theorem isInput_of_evaluateInto {numVars : Nat} {order : List NodeId}
    {start values : Std.HashMap NodeId TruthTable}
    (h : order.foldlM (net.evaluateInto numVars) start = .ok values) :
    ∀ n ∈ order, net.isInput n = false := by
  induction order generalizing start with
  | nil => exact fun n hn => absurd hn List.not_mem_nil
  | cons n order ih =>
    rw [List.foldlM_cons] at h
    obtain ⟨mid, hfirst, hrest⟩ := bind_eq_ok h
    obtain ⟨t, ht, -⟩ := bind_eq_ok hfirst
    exact List.forall_mem_cons.mpr ⟨isInput_of_evaluateNode ht, ih hrest⟩

/-- A window that was simulated encloses its targets: what was evaluated makes up the region. -/
theorem encloses_of_simulateCone (hwf : net.WellFormed) (hac : net.Acyclic)
    {targets : List NodeId} {tables : List TruthTable}
    (h : net.simulateCone inputs targets = .ok tables) :
    inputs.length ≤ TruthTable.maxVars ∧ net.Encloses inputs targets := by
  obtain ⟨start, hstart, h⟩ := bind_eq_ok h
  obtain ⟨_, hcheck, h⟩ := bind_eq_ok h
  obtain ⟨values, hloop, -⟩ := bind_eq_ok h
  have hexist := checkNodes_eq_ok hcheck
  have htargets : ∀ n ∈ targets, n < net.size := fun n hn => hexist n (List.mem_append_right _ hn)
  refine ⟨length_le_of_inputTables hstart, fun n hn => hexist n (List.mem_append_left _ hn),
    htargets, fun n => n ∈ inputs ∨ n ∈ net.coneOrder inputs targets, ?_, ?_, ?_⟩
  · exact fun n hn => root_mem_coneOrder hwf hac hn (htargets n hn)
  · intro n m hn hout hreads
    obtain ⟨before, after, heq⟩ := List.append_of_mem (hn.resolve_left hout)
    refine (mem_of_coneOrder_eq hwf hac heq hreads).imp id fun hm => ?_
    rw [heq]
    exact List.mem_append_left _ hm
  · exact fun n hn hout => isInput_of_evaluateInto hloop n (hn.resolve_left hout)

/-- The tables that simulation finds give the values of the targets. -/
theorem tabulates_of_simulateCone (hwf : net.WellFormed) (hac : net.Acyclic)
    {targets : List NodeId} {tables : List TruthTable}
    (h : net.simulateCone inputs targets = .ok tables) :
    List.Forall₂ (net.Tabulates inputs) targets tables := by
  obtain ⟨hlen, hencloses⟩ := encloses_of_simulateCone hwf hac h
  have hends : Ends Anything (net.simulateCone inputs targets)
      (List.Forall₂ (net.Tabulates inputs) targets) := simulateCone_ends hwf hac hlen hencloses
  exact hends.post_of_eq h

end LogicSynthesis.Network
