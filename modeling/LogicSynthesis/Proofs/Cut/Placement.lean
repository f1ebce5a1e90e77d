import LogicSynthesis.Proofs.Cut.Soundness

/-!
# Where leaves lie

Apart from the trivial cut of a node, the leaves of its stored cuts feed the node. So in an acyclic
network a node is no leaf of its cuts of several leaves, and belongs to their cones.

## Main definitions

- `Cut.Below` — the leaves feed the node, or the cut is trivial

## Main statements

- `cutsOf_all` — what holds of all cuts of a node
- `below_of_enumerateCuts` — every stored cut is of this kind
- `mem_cutGates_self` — a gate belongs to the cones of its cuts of several leaves
-/

namespace LogicSynthesis

variable {net : Network}

namespace Cut

/-- The cut is the trivial one of `n`, or its leaves feed `n`. -/
def Below (net : Network) (n : NodeId) (c : Cut) : Prop :=
  c = .trivial n ∨ ∀ l ∈ c.leaves, Relation.TransGen net.Reads n l

/-- A combined cut has no leaves but those of the cuts it comes from. -/
theorem mem_leaves_combine {settings : CutSettings} {t : TruthTable} {fanins : List Signal}
    {chosen : List Cut} {c : Cut} (h : combine settings t fanins chosen = .ok (some c)) {l : NodeId}
    (hl : l ∈ c.leaves) : ∃ d ∈ chosen, l ∈ d.leaves := by
  rcases combine_eq_ok h with ⟨-, hnone⟩ | ⟨merged, composed, hmerge, hsome⟩
  · cases hnone
  · obtain rfl := Option.some.inj hsome
    obtain ⟨part, hpart, hl⟩ := ((mergeLeaves_spec hmerge).2.2 l).mp
      (leaves_ofTable_subset settings merged composed hl)
    obtain ⟨d, hd, rfl⟩ := List.mem_map.mp hpart
    exact ⟨d, hd, hl⟩

/-- Leaves of the cuts of a fanin feed the reader. -/
theorem Below.transGen {n m l : NodeId} {c : Cut} (h : c.Below net m) (hreads : net.Reads n m)
    (hl : l ∈ c.leaves) : Relation.TransGen net.Reads n l := by
  rcases h with rfl | hfeeds
  · obtain rfl : l = m := List.mem_singleton.mp hl
    exact .single hreads
  · exact .head hreads (hfeeds l hl)

/-- Leaves that feed a node feed it in every extension. -/
theorem Below.extends {net' : Network} {n : NodeId} {c : Cut} (h : c.Below net n)
    (hext : net.Extends net') : c.Below net' n :=
  h.imp id fun hfeeds l hl =>
    Relation.TransGen.mono (fun _ _ hreads => (hext.reads_iff hreads.lt_size).mpr hreads)
      _ _ (hfeeds l hl)

end Cut

namespace Network

variable {settings : CutSettings} {sets : CutSets}

/-! ### Cuts that were picked for the fanins -/

theorem exists_fanin_of_pick {fanins : List Signal} {picks : List Cut}
    (hpicks : List.Forall₂ (fun s c => c ∈ sets.of s.node) fanins picks) {d : Cut}
    (hd : d ∈ picks) : ∃ s ∈ fanins, d ∈ sets.of s.node := by
  obtain ⟨i, hi, rfl⟩ := List.getElem_of_mem hd
  have hi' : i < fanins.length := hpicks.length_eq ▸ hi
  exact ⟨fanins[i], List.getElem_mem hi', hpicks.get hi' hi⟩

theorem exists_pick_of_fanin {fanins : List Signal} {picks : List Cut}
    (hpicks : List.Forall₂ (fun s c => c ∈ sets.of s.node) fanins picks) {s : Signal}
    (hs : s ∈ fanins) : ∃ d ∈ picks, d ∈ sets.of s.node := by
  obtain ⟨i, hi, rfl⟩ := List.getElem_of_mem hs
  have hi' : i < picks.length := hpicks.length_eq ▸ hi
  exact ⟨picks[i], List.getElem_mem hi', hpicks.get hi hi'⟩

/-- The leaves of cuts that were picked for the fanins feed the gate. -/
theorem feeds_of_picks (hsets : ∀ m, ∀ c ∈ sets.of m, c.Below net m) {n : NodeId} {node : Node}
    (hnode : net.nodes[n]? = some node) {picks : List Cut}
    (hpicks : List.Forall₂ (fun s c => c ∈ sets.of s.node) node.fanins picks) :
    ∀ d ∈ picks, ∀ l ∈ d.leaves, Relation.TransGen net.Reads n l := by
  intro d hd l hl
  obtain ⟨s, hs, hd⟩ := exists_fanin_of_pick hpicks hd
  exact (hsets s.node d hd).transGen (reads_of_mem hnode hs) hl

/-- All cuts of a node have a property that the simplest cuts have and that whatever picked cuts of
the fanins combine to has as well. -/
theorem cutsOf_all {P : Cut → Prop} {n : NodeId}
    (hconstant : ∀ value, net.isConstant n = true → P (.constant value)) (htrivial : P (.trivial n))
    (hcombine : ∀ node t picks c, net.nodes[n]? = some node → node.kind = .gate →
      List.Forall₂ (fun s c => c ∈ sets.of s.node) node.fanins picks →
        Cut.combine settings t node.fanins picks = .ok (some c) → P c) :
    Ends Anything (net.cutsOf settings sets n) fun cuts => ∀ c ∈ cuts, P c := by
  have hlast : ∀ c ∈ [Cut.trivial n], P c := by
    intro c hc
    rwa [List.mem_singleton.mp hc]
  rw [cutsOf]
  cases hnode : net.nodes[n]? with
  | none =>
    rw [node, hnode]
    trivial
  | some node =>
    rw [node_eq hnode, ok_bind]
    cases hkind : node.kind with
    | constant value =>
      intro c hc
      rw [List.mem_singleton.mp hc]
      refine hconstant value ?_
      rw [isConstant, kindIs_eq hnode, hkind]
      rfl
    | primaryInput => exact hlast
    | registerOutput => exact hlast
    | gate =>
      refine Ends.bind (ends_anything_iff.mpr fun _ _ => trivial) fun t _ => ?_
      refine (searchCuts_ends (fun found => ∀ c ∈ found, P c)
        (fun c hc => absurd hc List.not_mem_nil) ?_ ?_).bind ?_
      · exact fun search => ends_anything_iff.mpr fun _ _ => trivial
      · intro picks found hpicks hfound
        refine ends_anything_iff.mpr ?_
        rintro r hr c rfl d hd
        rcases mem_insertInto hd with rfl | hd
        · exact hcombine node t picks d hnode hkind hpicks hr
        · exact hfound d hd
      · intro search hsearch c hc
        rcases List.mem_append.mp hc with hc | hc
        · exact hsearch c (List.mem_of_mem_take hc)
        · exact hlast c hc

theorem cutsOf_below (hsets : ∀ m, ∀ c ∈ sets.of m, c.Below net m) (n : NodeId) :
    Ends Anything (net.cutsOf settings sets n) fun cuts => ∀ c ∈ cuts, c.Below net n := by
  refine cutsOf_all (fun _ _ => .inr fun l hl => absurd hl List.not_mem_nil) (.inl rfl) ?_
  intro node t picks c hnode _ hpicks hcombine
  -- Whatever a search finds comes from cuts of the fanins.
  refine .inr fun l hl => ?_
  obtain ⟨d, hd, hl⟩ := Cut.mem_leaves_combine hcombine hl
  exact feeds_of_picks hsets hnode hpicks d hd l hl

/-- Every stored cut is trivial, or its leaves feed its node. -/
theorem below_of_enumerateCuts (h : net.enumerateCuts settings = .ok sets) :
    sets.size = net.size ∧ ∀ n, ∀ c ∈ sets.of n, c.Below net n := by
  have hends : Ends Anything (net.enumerateCuts settings) _ :=
    enumerateCuts_stores (fun n cuts => ∀ c ∈ cuts, c.Below net n) (.inr trivial)
      fun _ sets n _ hsets => cutsOf_below (fun m c hc => hsets m (List.ne_nil_of_mem hc) c hc) n
  obtain ⟨-, hsize, hsets, -⟩ := hends.post_of_eq h
  exact ⟨hsize, fun n c hc => hsets n (List.ne_nil_of_mem hc) c hc⟩

/-- A gate belongs to the cones of its cuts of several leaves. -/
theorem mem_cutGates_self (hwf : net.WellFormed) (hac : net.Acyclic) {n : NodeId}
    (hgate : net.isGate n = true) {c : Cut} (hbelow : c.Below net n) (hsize : 1 < c.size) :
    n ∈ net.cutGates c.leaves n := by
  have hn := lt_size_of_kindIs hgate
  refine (root_mem_coneOrder hwf hac List.mem_cons_self hn).resolve_left fun hmem => ?_
  rcases List.mem_append.mp hmem with hleaf | hterm
  · rcases hbelow with rfl | hfeeds
    · exact absurd hsize (Nat.lt_irrefl 1)
    · exact hac n (hfeeds n hleaf)
  · have hterm := (List.mem_filter.mp hterm).2
    rw [isTerminal_eq_not_isGate hn, hgate] at hterm
    cases hterm

end Network

end LogicSynthesis
