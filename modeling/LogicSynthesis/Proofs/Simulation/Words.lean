import LogicSynthesis.Proofs.Network.Assembly
import LogicSynthesis.Proofs.Network.Inventory
import LogicSynthesis.Proofs.Simulation

/-!
# The simulators agree with evaluation

A word holds the values of a node under 64 assignments, one in each lane. Simulation by words keeps
this from the fanins of a gate to the gate, since the composition of words acts on every lane alone.
Exhaustive simulation composes tables instead. Both are compared with the value that recursion over
the fanins gives, so they agree with each other.

## Main definitions

- `Network.WordFor` — a word holds the values of a node
- `Network.Worded` — some nodes have such words

## Main statements

- `evaluateWord_ends` — the word of a node from the words of its fanins
- `simulateWords_run` — the lanes of the outputs answer the lanes of the inputs
- `simulators_agree` — exhaustive simulation and simulation by words are evaluation
-/

namespace LogicSynthesis.Network

open TruthTable (wordBit)

variable {net : Network} {permitted : Fault → Prop} {words : List UInt64}

/-! ### Words of nodes -/

/-- The values in one lane of the input words. -/
def lane (words : List UInt64) (b : Nat) : List Bool := words.map (wordBit · b)

@[simp]
theorem length_lane (words : List UInt64) (b : Nat) : (lane words b).length = words.length :=
  List.length_map _

/-- Each lane of the word is the value of `n` on that lane of the input words. -/
def WordFor (net : Network) (words : List UInt64) (n : NodeId) (w : UInt64) : Prop :=
  ∀ b < 64, wordBit w b = net.value (net.assign (lane words b)) n

/-- Every known node has a word. -/
def Worded (net : Network) (words : List UInt64) (known : NodeId → Prop)
    (values : Std.HashMap NodeId UInt64) : Prop :=
  ∀ n, known n → ∃ w, values[n]? = some w ∧ net.WordFor words n w

/-- The word of an edge from the word of its driver. -/
theorem edgeWord_ends {known : NodeId → Prop} {values : Std.HashMap NodeId UInt64}
    (h : net.Worded words known values) {s : Signal} (hs : known s.node) :
    ∃ w, edgeWord values s = .ok w ∧
      ∀ b < 64, wordBit w b = net.signalValue (net.assign (lane words b)) s := by
  obtain ⟨w, hget, hw⟩ := h s.node hs
  refine ⟨if s.negated then ~~~w else w, ?_, ?_⟩
  · rw [edgeWord, lookUp_eq hget]
    rfl
  · intro b hb
    rw [signalValue, edgeValue, ← hw b hb]
    cases s.negated with
    | true => exact (TruthTable.wordBit_not w hb).trans (Bool.xor_true _).symm
    | false => exact (Bool.xor_false _).symm

/-- Edges whose drivers have words, and the words they get. -/
theorem edgeWords_run {known : NodeId → Prop} {values : Std.HashMap NodeId UInt64}
    (h : net.Worded words known values) {signals : List Signal}
    (hknown : ∀ s ∈ signals, known s.node) :
    ∃ results, signals.mapM (edgeWord values) = .ok results ∧ ∀ b < 64,
      lane results b = signals.map (net.signalValue (net.assign (lane words b))) := by
  induction signals with
  | nil => exact ⟨[], rfl, fun _ _ => rfl⟩
  | cons s signals ih =>
    obtain ⟨w, hw, hbits⟩ := edgeWord_ends h (hknown s List.mem_cons_self)
    obtain ⟨results, hrun, hlanes⟩ := ih fun r hr => hknown r (List.mem_cons_of_mem _ hr)
    refine ⟨w :: results, ?_, ?_⟩
    · rw [List.mapM_cons, hw, ok_bind, hrun]
      rfl
    · intro b hb
      rw [List.map_cons, ← hbits b hb, ← hlanes b hb]
      rfl

theorem evaluateWord_ends (hwf : net.WellFormed) (hac : net.Acyclic) {known : NodeId → Prop}
    {values : Std.HashMap NodeId UInt64} (h : net.Worded words known values) {n : NodeId}
    (hn : n < net.size) (hinput : net.isInput n = false)
    (hfanins : ∀ m, net.Reads n m → known m) :
    Ends permitted (net.evaluateWord values n) (net.WordFor words n) := by
  obtain ⟨node, hnode⟩ := exists_node hn
  rw [evaluateWord, node_eq hnode, ok_bind]
  rw [isInput, kindIs_eq hnode] at hinput
  cases hkind : node.kind with
  | constant v =>
    refine .of_eq (a := if v then 0xFFFFFFFFFFFFFFFF else 0) rfl ?_
    intro b hb
    rw [value_of_constant hac hnode hkind]
    cases v with
    | true => exact TruthTable.wordBit_ones hb
    | false => exact TruthTable.wordBit_zero b
  | primaryInput =>
    rw [hkind] at hinput
    cases hinput
  | registerOutput =>
    rw [hkind] at hinput
    cases hinput
  | gate =>
    obtain ⟨t, ht, hcanonical, hvars⟩ := hwf.exists_function hnode hkind
    have hknown : ∀ s ∈ node.fanins, known s.node := fun s hs => hfanins _ (reads_of_mem hnode hs)
    obtain ⟨fanins, hrun, hlanes⟩ := edgeWords_run h hknown
    have hlength : fanins.length = t.numVars := by
      have hlane := congrArg List.length (hlanes 0 (by decide))
      rw [length_lane, List.length_map] at hlane
      rw [hlane, hvars]
    refine .of_eq (a := t.composeWord fanins) ?_ ?_
    · simp only [hrun, FunctionCache.get_eq_ok.mpr ht, ok_bind,
        TruthTable.Checked.composeWord_eq hcanonical hlength]
    · intro b hb
      rw [TruthTable.wordBit_composeWord hlength hb, value_of_gate hac hnode hkind, functionOf, ht,
        ← hlanes b hb]
      rfl

/-! ### Simulation by words -/

/-- The words of the inputs, each of them the word that is given for it. -/
theorem worded_inputs (hac : net.Acyclic) (hinv : net.Inventory)
    (hlen : words.length = net.numCis) : net.Worded words (· ∈ net.cis)
      ((net.cis.zip words).foldl (fun values (n, w) => values.insert n w) ∅) := by
  have hgood : ∀ p ∈ net.cis.zip words, net.WordFor words p.1 p.2 := by
    intro p hp b _
    obtain ⟨i, hi, rfl⟩ := List.getElem_of_mem hp
    have hi' : i < net.cis.length := by
      rw [List.length_zip] at hi
      omega
    have hiw : i < words.length := by rwa [hlen, ← length_cis]
    rw [List.getElem_zip, value_of_input hac (hinv.mem_cis.mp (List.getElem_mem hi')),
      assign_getElem hinv.nodup_cis, lane, List.getElem?_map, List.getElem?_eq_getElem hiw]
    rfl
  have hfold : ∀ (pairs : List (NodeId × UInt64)) (known : NodeId → Prop)
      (values : Std.HashMap NodeId UInt64), (∀ p ∈ pairs, net.WordFor words p.1 p.2) →
      net.Worded words known values → net.Worded words (fun n => n ∈ pairs.map Prod.fst ∨ known n)
        (pairs.foldl (fun values p => values.insert p.1 p.2) values) := by
    intro pairs
    induction pairs with
    | nil => exact fun known values _ h n hn => h n (hn.resolve_left List.not_mem_nil)
    | cons p pairs ih =>
      intro known values hpairs h
      have hnext := ih _ _ (fun q hq => hpairs q (List.mem_cons_of_mem _ hq))
        (known_insert h (hpairs p List.mem_cons_self))
      intro n hn
      apply hnext n
      rw [List.map_cons, List.mem_cons] at hn
      tauto
  have hstart := hfold (net.cis.zip words) (fun _ => False) ∅ hgood fun _ h => h.elim
  intro n hn
  apply hstart n
  left
  rwa [List.map_fst_zip (by rw [length_cis, hlen])]

/-- Simulation by words answers, in every lane, the values in that lane of the input words. -/
theorem simulateWords_run (hnet : net.Built) (hac : net.Acyclic)
    (hlen : words.length = net.numCis) : ∃ results, net.simulateWords words = .ok results ∧
      ∀ b < 64, lane results b = net.response (lane words b) := by
  have hwf := hnet.wellFormed
  have hinv := hnet.inventory
  have hloop : ∀ start, net.Worded words (· ∈ net.cis) start →
      Ends Never ((net.coneOrder net.cis (net.cos.map Signal.node)).foldlM
        (fun values n => return values.insert n (← net.evaluateWord values n)) start)
        (net.Worded words fun n =>
          n ∈ net.coneOrder net.cis (net.cos.map Signal.node) ∨ n ∈ net.cis) := by
    intro start hstart
    refine Ends.foldlM_prefix (fun before => net.Worded words fun n => n ∈ before ∨ n ∈ net.cis)
      (fun n hn => hstart n (hn.resolve_left List.not_mem_nil)) ?_
    intro before n after values heq h
    have hn : n ∈ net.coneOrder net.cis (net.cos.map Signal.node) := by
      rw [heq]
      exact List.mem_append_right _ List.mem_cons_self
    obtain ⟨hout, hlt⟩ := mem_coneOrder hn
    have hinput : net.isInput n = false :=
      Bool.eq_false_iff.mpr fun hin => hout (hinv.mem_cis.mpr hin)
    have hfanins : ∀ m, net.Reads n m → m ∈ before ∨ m ∈ net.cis :=
      fun m hreads => (mem_of_coneOrder_eq hwf hac heq hreads).symm
    refine (evaluateWord_ends hwf hac h hlt hinput hfanins).bind ?_
    intro w hw m hm
    apply known_insert h hw
    rw [List.mem_append, List.mem_singleton] at hm
    tauto
  obtain ⟨values, hvalues, hworded⟩ := ends_never_iff.mp (hloop _ (worded_inputs hac hinv hlen))
  have hknown : ∀ s ∈ net.cos, s.node ∈ net.coneOrder net.cis (net.cos.map Signal.node) ∨
      s.node ∈ net.cis := fun s hs =>
    (root_mem_coneOrder hwf hac (List.mem_map_of_mem hs) (hwf.output_lt hs)).symm
  obtain ⟨results, hrun, hlanes⟩ := edgeWords_run hworded hknown
  refine ⟨results, ?_, hlanes⟩
  rw [simulateWords, require_of (beq_iff_eq.mpr hlen), ok_bind]
  simp only [hvalues, ok_bind, hrun]

/-! ### Exhaustive simulation -/

/-- The combinational inputs are a window for all nodes. -/
theorem encloses_cis (hinv : net.Inventory) {targets : List NodeId}
    (htargets : ∀ n ∈ targets, n < net.size) : net.Encloses net.cis targets := by
  refine ⟨fun n hn => lt_size_of_kindIs (hinv.mem_cis.mp hn), htargets, fun _ => True,
    fun _ _ => trivial, fun _ _ _ _ _ => trivial, fun n _ hout => ?_⟩
  exact Bool.eq_false_iff.mpr fun hin => hout (hinv.mem_cis.mpr hin)

/-- The values that the pattern `m` gives to `k` inputs, of which the `j`-th is bit `j`. -/
def pattern (k m : Nat) : List Bool := (List.range k).map m.testBit

/-- Values are the pattern that they code. -/
theorem pattern_codeOf {values : List Bool} {k : Nat} (hlen : values.length = k) :
    pattern k (codeOf values) = values := by
  apply List.ext_getElem
  · rw [pattern, List.length_map, List.length_range, hlen]
  · intro i hi hi'
    simp only [pattern, List.getElem_map, List.getElem_range, testBit_codeOf,
      List.getElem?_eq_getElem hi', Option.getD_some]

/-- The tables of a window of all inputs, read at a pattern of these. -/
theorem map_bit_pattern (hac : net.Acyclic) (hinv : net.Inventory) {targets : List NodeId}
    {tables : List TruthTable} (h : List.Forall₂ (net.Tabulates net.cis) targets tables) {m : Nat}
    (hm : m < 2 ^ net.numCis) : tables.map (·.bit m) =
      targets.map (net.value (net.assign (pattern net.numCis m))) := by
  have hinputs : net.cis.map (net.value (net.assign (pattern net.numCis m))) =
      pattern net.numCis m := by
    refine Eq.trans ?_ (map_assign hinv.nodup_cis ?_)
    · exact List.map_congr_left fun n hn => value_of_input hac (hinv.mem_cis.mp hn)
    · rw [pattern, List.length_map, List.length_range]
  have hcode : codeOf (net.cis.map (net.value (net.assign (pattern net.numCis m)))) = m := by
    rw [hinputs, pattern, codeOf_map_testBit hm]
  induction h with
  | nil => rfl
  | cons ht _ ih =>
    have hbit := ht.bit (net.assign (pattern net.numCis m))
    rw [hcode] at hbit
    rw [List.map_cons, List.map_cons, hbit, ih]

/-- Output tables, read at a pattern of the inputs. -/
theorem map_bit_outputs (hac : net.Acyclic) (hinv : net.Inventory) {outputs : List Signal}
    {tables : List TruthTable}
    (h : List.Forall₂ (net.Tabulates net.cis) (outputs.map Signal.node) tables) {m : Nat}
    (hm : m < 2 ^ net.numCis) :
    (List.zipWith (fun t s => t.withPolarity s.negated) tables outputs).map (·.bit m) =
      outputs.map (net.signalValue (net.assign (pattern net.numCis m))) := by
  have hbits := map_bit_pattern hac hinv h hm
  induction outputs generalizing tables with
  | nil => rw [List.zipWith_nil_right, List.map_nil, List.map_nil]
  | cons s outputs ih =>
    cases h with
    | cons ht hrest =>
      rw [List.map_cons, List.map_cons, List.map_cons, List.cons_eq_cons] at hbits
      have hlt := hm
      rw [← length_cis, ← ht.numVars] at hlt
      rw [List.zipWith_cons_cons, List.map_cons, List.map_cons, ih hrest hbits.2,
        TruthTable.bit_withPolarity ht.canonical _ hlt, hbits.1]
      rfl

/-- Up to 16 combinational inputs, exhaustive simulation has a result, and so has simulation by one
word for each input. Bit `m` of a table is the value of the node or of the output under the
assignment that `m` codes. In each lane the outputs are those of the pattern in that lane of the
words. -/
theorem simulators_agree (hnet : net.Built) (hac : net.Acyclic)
    (hfew : net.numCis ≤ maxExhaustiveInputs) :
    ∃ nodes outputs, net.simulateNodes = .ok nodes ∧ net.simulateOutputs = .ok outputs ∧
      (∀ m < 2 ^ net.numCis,
        nodes.map (·.bit m) = net.nodeIds.map (net.value (net.assign (pattern net.numCis m))) ∧
        outputs.map (·.bit m) = net.response (pattern net.numCis m)) ∧
      ∀ words : List UInt64, words.length = net.numCis →
        ∃ results, net.simulateWords words = .ok results ∧
          ∀ b < 64, lane results b = outputs.map (·.bit (codeOf (lane words b))) := by
  have hwf := hnet.wellFormed
  have hinv := hnet.inventory
  have hlen : net.cis.length ≤ TruthTable.maxVars := by
    rw [length_cis]
    exact hfew.trans (by decide)
  have hinputs : net.exhaustiveInputs = .ok net.cis := by
    rw [exhaustiveInputs, require_of (decide_eq_true hfew)]
    rfl
  have hall : net.Encloses net.cis net.nodeIds :=
    encloses_cis hinv fun n hn => List.mem_range.mp hn
  have hcos : net.Encloses net.cis (net.cos.map Signal.node) := by
    apply encloses_cis hinv
    intro n hn
    obtain ⟨s, hs, rfl⟩ := List.mem_map.mp hn
    exact hwf.output_lt hs
  obtain ⟨nodes, hnodes, hvalues⟩ := ends_never_iff.mp (simulateCone_ends hwf hac hlen hall)
  obtain ⟨tables, htables, hdrivers⟩ := ends_never_iff.mp (simulateCone_ends hwf hac hlen hcos)
  have houtputs : ∀ m < 2 ^ net.numCis,
      (List.zipWith (fun t s => t.withPolarity s.negated) tables net.cos).map (·.bit m) =
        net.response (pattern net.numCis m) := fun m hm => map_bit_outputs hac hinv hdrivers hm
  refine ⟨nodes, List.zipWith (fun t s => t.withPolarity s.negated) tables net.cos, ?_, ?_,
    fun m hm => ⟨map_bit_pattern hac hinv hvalues hm, houtputs m hm⟩, ?_⟩
  · rw [simulateNodes, hinputs, ok_bind, hnodes]
  · rw [simulateOutputs, hinputs, ok_bind, htables]
    rfl
  · intro words hwords
    obtain ⟨results, hrun, hlanes⟩ := simulateWords_run hnet hac hwords
    refine ⟨results, hrun, fun b hb => ?_⟩
    have hcode := codeOf_lt (lane words b)
    rw [length_lane, hwords] at hcode
    rw [hlanes b hb, houtputs _ hcode, pattern_codeOf (by rw [length_lane, hwords])]

/-- Two conjunctions of three inputs: all tables, and the outputs on the words of the variables. -/
theorem simulators_agree_tappedConjunction : ∃ nodes outputs,
    tappedConjunction.simulateNodes = .ok nodes ∧ tappedConjunction.simulateOutputs = .ok outputs ∧
    (∀ m < 8, nodes.map (·.bit m) =
        tappedConjunction.nodeIds.map (tappedConjunction.value
          (tappedConjunction.assign (pattern 3 m))) ∧
      outputs.map (·.bit m) = tappedConjunction.response (pattern 3 m)) ∧
    ∃ results, tappedConjunction.simulateWords
        [0xAAAAAAAAAAAAAAAA, 0xCCCCCCCCCCCCCCCC, 0xF0F0F0F0F0F0F0F0] = .ok results ∧
      ∀ b < 64, lane results b = outputs.map (·.bit (codeOf (lane
        [0xAAAAAAAAAAAAAAAA, 0xCCCCCCCCCCCCCCCC, 0xF0F0F0F0F0F0F0F0] b))) := by
  obtain ⟨nodes, outputs, hnodes, houtputs, htables, hwords⟩ := @simulators_agree tappedConjunction
    assembled_tappedConjunction.built acyclic_tappedConjunction (by decide)
  exact ⟨nodes, outputs, hnodes, houtputs, htables, hwords _ (by decide)⟩

end LogicSynthesis.Network
