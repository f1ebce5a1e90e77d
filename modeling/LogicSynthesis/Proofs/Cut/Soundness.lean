import LogicSynthesis.Cut.Enumeration
import LogicSynthesis.Proofs.Network.Built
import LogicSynthesis.Proofs.Network.Walk

/-!
# Soundness of cuts

A cut of a node is sound when its function gives the value of the node from the values of its
leaves, under every assignment of the inputs. Every cut that enumeration stores is sound. The
leaves need not separate the node from the inputs, and may lie in one another's cones: only the
values that they take together count.

## Main definitions

- `Cut.Sound` — what is kept for every stored cut
- `CutSettings.Allowed` — settings that lead to no fault but permitted ones

## Main statements

- `mergeLeaves_spec` — merging is union
- `Cut.combine_eq_ok` — all that combining cuts can do
- `combine_ofTable`, `combine_sound` — sound cuts of the fanins combine to a sound cut of the gate
- `foldChoices_ends` — the rule for going through all choices
- `enumerateCuts_ends_of_allowed` — enumeration under any settings
- `enumerateCuts_ends`, `stored_cuts_give_values` — enumeration ends, with sound cuts only
-/

namespace LogicSynthesis

variable {net : Network}

/-- The function of the cut gives the value of `n` from those of the leaves. -/
structure Cut.Sound (net : Network) (n : NodeId) (c : Cut) : Prop where
  exist : ∀ l ∈ c.leaves, l < net.size
  ascending : c.leaves.Pairwise (· < ·)
  canonical : c.function.Canonical
  arity : c.function.numVars = c.leaves.length
  value : ∀ inputs, net.value inputs n = c.function.bit (codeOf (c.leaves.map (net.value inputs)))

/-! ### Leaves -/

theorem mem_insertLeaf {n m : NodeId} {leaves : List NodeId} :
    m ∈ insertLeaf n leaves ↔ m = n ∨ m ∈ leaves := by
  induction leaves with
  | nil => simp [insertLeaf]
  | cons l leaves ih =>
    unfold insertLeaf
    split
    · exact List.mem_cons
    split
    · next heq =>
      subst heq
      simp
    · rw [List.mem_cons, ih, List.mem_cons]
      exact or_left_comm

theorem pairwise_insertLeaf {n : NodeId} {leaves : List NodeId} (h : leaves.Pairwise (· < ·)) :
    (insertLeaf n leaves).Pairwise (· < ·) := by
  induction leaves with
  | nil => exact List.pairwise_singleton _ _
  | cons l leaves ih =>
    obtain ⟨hhead, htail⟩ := List.pairwise_cons.mp h
    unfold insertLeaf
    split
    · next hlt =>
      refine List.pairwise_cons.mpr ⟨?_, h⟩
      intro m hm
      rcases List.mem_cons.mp hm with rfl | hm
      · exact hlt
      · exact hlt.trans (hhead m hm)
    split
    · exact h
    · next hge hne =>
      refine List.pairwise_cons.mpr ⟨?_, ih htail⟩
      intro m hm
      rcases mem_insertLeaf.mp hm with rfl | hm
      · exact lt_of_le_of_ne (Nat.not_lt.mp hge) (Ne.symm hne)
      · exact hhead m hm

theorem foldl_insertLeaf (part merged : List NodeId) (h : merged.Pairwise (· < ·)) :
    (part.foldl (fun m n => insertLeaf n m) merged).Pairwise (· < ·) ∧
      ∀ n, n ∈ part.foldl (fun m n => insertLeaf n m) merged ↔ n ∈ merged ∨ n ∈ part := by
  induction part generalizing merged with
  | nil => exact ⟨h, fun n => by simp⟩
  | cons l part ih =>
    obtain ⟨hsorted, hmem⟩ := ih (insertLeaf l merged) (pairwise_insertLeaf h)
    refine ⟨hsorted, ?_⟩
    intro n
    rw [List.foldl_cons, hmem, mem_insertLeaf, List.mem_cons]
    exact or_assoc.trans or_left_comm

theorem foldl_foldl_insertLeaf (parts : List (List NodeId)) (start : List NodeId)
    (h : start.Pairwise (· < ·)) :
    (parts.foldl (fun merged part => part.foldl (fun m n => insertLeaf n m) merged)
      start).Pairwise (· < ·) ∧
    ∀ n, n ∈ parts.foldl (fun merged part => part.foldl (fun m n => insertLeaf n m) merged)
      start ↔ n ∈ start ∨ ∃ part ∈ parts, n ∈ part := by
  induction parts generalizing start with
  | nil => exact ⟨h, fun n => by simp⟩
  | cons part parts ih =>
    obtain ⟨hsorted, hmem⟩ := foldl_insertLeaf part start h
    obtain ⟨hsorted', hmem'⟩ := ih _ hsorted
    refine ⟨hsorted', ?_⟩
    intro n
    rw [List.foldl_cons, hmem', hmem, List.exists_mem_cons_iff, or_assoc]

/-- The merged leaves are the leaves of the parts, in ascending order. -/
theorem mergeLeaves_spec {parts : List (List NodeId)} {limit : Nat} {merged : List NodeId}
    (h : mergeLeaves parts limit = some merged) :
    merged.Pairwise (· < ·) ∧ merged.length ≤ limit ∧
      ∀ n, n ∈ merged ↔ ∃ part ∈ parts, n ∈ part := by
  obtain ⟨hsorted, hmem⟩ := foldl_foldl_insertLeaf parts [] List.Pairwise.nil
  unfold mergeLeaves at h
  simp only at h
  split at h
  · next hle =>
    obtain rfl := Option.some.inj h
    refine ⟨hsorted, hle, ?_⟩
    intro n
    rw [hmem]
    simp
  · cases h

/-- Leaves that lie in a set of few nodes are merged within the limit. -/
theorem exists_mergeLeaves {parts : List (List NodeId)} {limit : Nat} {bounds : Finset NodeId}
    (hsub : ∀ part ∈ parts, ∀ l ∈ part, l ∈ bounds) (hcard : bounds.card ≤ limit) :
    ∃ merged, mergeLeaves parts limit = some merged := by
  obtain ⟨hsorted, hmem⟩ := foldl_foldl_insertLeaf parts [] List.Pairwise.nil
  refine ⟨_, if_pos (le_trans ?_ hcard)⟩
  rw [← List.toFinset_card_of_nodup (hsorted.imp Nat.ne_of_lt)]
  refine Finset.card_le_card fun l hl => ?_
  obtain ⟨part, hpart, hl⟩ := ((hmem l).mp (List.mem_toFinset.mp hl)).resolve_left List.not_mem_nil
  exact hsub part hpart l hl

/-- A leaf finds its value at its place among the merged leaves. -/
theorem testBit_idxOf {merged : List NodeId} {l : NodeId} (h : l ∈ merged) (val : NodeId → Bool) :
    (codeOf (merged.map val)).testBit (merged.idxOf l) = val l := by
  rw [testBit_codeOf, List.getElem?_map, List.getElem?_idxOf h]
  rfl

/-! ### Combining cuts -/

namespace Cut

variable {merged : List NodeId} {s : Signal} {c : Cut} {n : NodeId}

/-- The function of a fanin over the merged leaves. -/
def tableOver (merged : List NodeId) (s : Signal) (c : Cut) : TruthTable :=
  (c.function.expand (c.leaves.map merged.idxOf) merged.length).withPolarity s.negated

theorem canonical_tableOver (hmerged : merged.length ≤ TruthTable.maxVars) (s : Signal) (c : Cut) :
    (tableOver merged s c).Canonical :=
  (TruthTable.canonical_expand _ _ hmerged).withPolarity _

theorem numVars_tableOver (merged : List NodeId) (s : Signal) (c : Cut) :
    (tableOver merged s c).numVars = merged.length := TruthTable.numVars_withPolarity _ _

theorem faninTable_eq (h : c.Sound net n) (hmerged : merged.length ≤ TruthTable.maxVars)
    (hsub : ∀ l ∈ c.leaves, l ∈ merged) (s : Signal) :
    c.faninTable merged s = .ok (tableOver merged s c) := by
  rw [faninTable, TruthTable.Checked.expand_eq h.canonical _ _ hmerged]
  · rfl
  · rw [List.length_map, h.arity]
  · intro p hp
    obtain ⟨l, hl, rfl⟩ := List.mem_map.mp hp
    exact List.idxOf_lt_length_of_mem (hsub l hl)

/-- Leaves that are too many for a table. -/
theorem faninTable_eq_error (h : c.Sound net n) (hmerged : ¬ merged.length ≤ TruthTable.maxVars)
    (hsub : ∀ l ∈ c.leaves, l ∈ merged) (s : Signal) :
    c.faninTable merged s = .error (.tooManyVariables merged.length) := by
  have hlen : ((c.leaves.map merged.idxOf).length == c.function.numVars) = true := by
    rw [List.length_map, h.arity, beq_iff_eq]
  have hplaces : ((c.leaves.map merged.idxOf).all fun p => decide (p < merged.length)) = true := by
    rw [List.all_eq_true]
    intro p hp
    obtain ⟨l, hl, rfl⟩ := List.mem_map.mp hp
    exact decide_eq_true (List.idxOf_lt_length_of_mem (hsub l hl))
  rw [faninTable, TruthTable.Checked.expand, require_of hlen, ok_bind, require_of hplaces, ok_bind,
    LogicSynthesis.require, if_neg (by simpa using hmerged), error_bind, map_error]

/-- At the values of the merged leaves, the table of a fanin has the value of the edge. -/
theorem bit_tableOver (h : c.Sound net s.node) (hmerged : merged.length ≤ TruthTable.maxVars)
    (hsub : ∀ l ∈ c.leaves, l ∈ merged) (inputs : Assignment) :
    (tableOver merged s c).bit (codeOf (merged.map (net.value inputs))) =
      net.signalValue inputs s := by
  have hlt := codeOf_lt (merged.map (net.value inputs))
  rw [List.length_map] at hlt
  have hleaves : (c.leaves.map merged.idxOf).map
      (codeOf (merged.map (net.value inputs))).testBit = c.leaves.map (net.value inputs) := by
    rw [List.map_map]
    exact List.map_congr_left fun l hl => testBit_idxOf (hsub l hl) _
  rw [tableOver, TruthTable.bit_withPolarity (TruthTable.canonical_expand _ _ hmerged) _ hlt,
    TruthTable.bit_expand _ _ hlt, hleaves, ← h.value]
  rfl

/-- A table over ascending leaves that has the value of `n` makes a sound cut. -/
theorem sound_make {t : TruthTable} (hexist : ∀ l ∈ merged, l < net.size)
    (hascending : merged.Pairwise (· < ·)) (ht : t.Canonical) (harity : t.numVars = merged.length)
    (hvalue : ∀ inputs, net.value inputs n = t.bit (codeOf (merged.map (net.value inputs)))) :
    (make merged t).Sound net n := ⟨hexist, hascending, ht, harity, hvalue⟩

/-- Dropping the leaves on which the function does not depend keeps a cut sound. -/
theorem sound_minBase {t : TruthTable} (h : (make merged t).Sound net n) :
    (make (t.minBase.2.filterMap fun i => merged[i]?) t.minBase.1).Sound net n := by
  have hvars : t.numVars = merged.length := h.arity
  have hget : ∀ v ∈ t.support, ∃ l, merged[v]? = some l := by
    intro v hv
    have hlt := (TruthTable.mem_support.mp hv).1
    exact ⟨_, List.getElem?_eq_getElem (hvars ▸ hlt)⟩
  have hmap : ∀ {β : Type} (f : NodeId → β) (g : Nat → β),
      (∀ v l, merged[v]? = some l → f l = g v) → ∀ vs : List Nat,
        (∀ v ∈ vs, ∃ l, merged[v]? = some l) →
          (vs.filterMap fun i => merged[i]?).map f = vs.map g := by
    intro β f g hfg vs
    induction vs with
    | nil => exact fun _ => rfl
    | cons v vs ih =>
      intro hvs
      obtain ⟨l, hl⟩ := hvs v List.mem_cons_self
      rw [List.filterMap_cons, hl, List.map_cons, List.map_cons, hfg v l hl,
        ih fun w hw => hvs w (List.mem_cons_of_mem _ hw)]
  apply sound_make
  · intro l hl
    obtain ⟨v, -, hv⟩ := List.mem_filterMap.mp hl
    exact h.exist l (List.mem_of_getElem? hv)
  · rw [TruthTable.minBase_snd]
    apply (TruthTable.pairwise_support t).filterMap
    intro v w hlt l hl m hm
    obtain ⟨hv, rfl⟩ := List.getElem?_eq_some_iff.mp hl
    obtain ⟨hw, rfl⟩ := List.getElem?_eq_some_iff.mp hm
    exact List.pairwise_iff_getElem.mp h.ascending v w hv hw hlt
  · exact TruthTable.canonical_minBase h.canonical
  · rw [TruthTable.numVars_minBase, TruthTable.minBase_snd]
    have hlen := congrArg List.length (hmap (fun _ => ()) (fun _ => ()) (fun _ _ _ => rfl) _ hget)
    rw [List.length_map, List.length_map] at hlen
    exact hlen.symm
  · intro inputs
    have hlt := codeOf_lt (merged.map (net.value inputs))
    rw [List.length_map, ← hvars] at hlt
    have hbits := hmap (net.value inputs) (codeOf (merged.map (net.value inputs))).testBit
      (fun v l hl => by rw [testBit_codeOf, List.getElem?_map, hl]; rfl) _ hget
    have hbit : t.minBase.1.bit (codeOf (t.support.map
        (codeOf (merged.map (net.value inputs))).testBit)) = _ :=
      TruthTable.bit_minBase h.canonical hlt
    rw [TruthTable.minBase_snd, hbits, hbit]
    exact h.value inputs

/-- The tables of some fanins over the merged leaves, each with the cut that was chosen for it. -/
def tablesOver (merged : List NodeId) (pairs : List (Signal × Cut)) : List TruthTable :=
  pairs.map fun p => tableOver merged p.1 p.2

variable {pairs : List (Signal × Cut)}

theorem ofArity_tablesOver (hmerged : merged.length ≤ TruthTable.maxVars)
    (pairs : List (Signal × Cut)) : TruthTable.OfArity merged.length (tablesOver merged pairs) := by
  intro input hinput
  obtain ⟨p, -, rfl⟩ := List.mem_map.mp hinput
  exact ⟨canonical_tableOver hmerged _ _, numVars_tableOver _ _ _⟩

theorem commonVars_tablesOver (hmerged : merged.length ≤ TruthTable.maxVars) (hne : pairs ≠ []) :
    TruthTable.commonVars (tablesOver merged pairs) = merged.length := by
  apply TruthTable.commonVars_eq (ofArity_tablesOver hmerged pairs)
  exact fun heq => hne (List.map_eq_nil_iff.mp heq)

/-- The function of a gate, composed with those of its fanins, makes a sound cut. -/
theorem sound_compose (hac : net.Acyclic)
    (hmerged : merged.length ≤ TruthTable.maxVars) (hascending : merged.Pairwise (· < ·))
    (hmem : ∀ l, l ∈ merged ↔ ∃ p ∈ pairs, l ∈ p.2.leaves)
    (hpairs : ∀ p ∈ pairs, p.2.Sound net p.1.node) {node : Node} {t : TruthTable}
    (hn : net.nodes[n]? = some node) (hkind : node.kind = .gate)
    (ht : net.functions.get? node.function = some t) (hfanins : pairs.map Prod.fst = node.fanins)
    (hne : pairs ≠ []) (hlen : (tablesOver merged pairs).length = t.numVars) :
    (make merged (t.compose (tablesOver merged pairs))).Sound net n := by
  have harity := ofArity_tablesOver hmerged pairs
  have hcommon := commonVars_tablesOver hmerged hne
  apply sound_make _ hascending
  · exact TruthTable.canonical_compose harity (hcommon.le.trans hmerged)
  · rw [TruthTable.numVars_compose harity (hcommon.le.trans hmerged), hcommon]
  · intro inputs
    have hlt := codeOf_lt (merged.map (net.value inputs))
    rw [List.length_map, ← hcommon] at hlt
    have hbits : (tablesOver merged pairs).map (·.bit (codeOf (merged.map (net.value inputs)))) =
        node.fanins.map (net.signalValue inputs) := by
      rw [tablesOver, List.map_map, ← hfanins, List.map_map]
      apply List.map_congr_left
      intro p hp
      exact bit_tableOver (hpairs p hp) hmerged (fun l hl => (hmem l).mpr ⟨p, hp, hl⟩) inputs
    rw [TruthTable.bit_compose harity (hcommon.le.trans hmerged) hlen hlt, hbits,
      Network.value_of_gate hac hn hkind, Network.functionOf, ht]
    rfl
  · intro l hl
    obtain ⟨p, hp, hl⟩ := (hmem l).mp hl
    exact (hpairs p hp).exist l hl

end Cut

/-- Settings that ask for a cut at least and for no more cuts than can be counted, with no more
leaves than a table has variables, unless the faults are permitted that may come of it. -/
structure CutSettings.Allowed (permitted : Fault → Prop) (settings : CutSettings) : Prop where
  limit_pos : 1 ≤ settings.cutLimit ∨ permitted .noTrivialCut
  limit_lt : settings.cutLimit < 2 ^ 62 ∨ permitted .overflow
  width : settings.cutSize ≤ TruthTable.maxVars ∨
    ∀ numVars, permitted (.tooManyVariables numVars)

theorem CutSettings.allowed_anything (settings : CutSettings) : settings.Allowed Anything :=
  ⟨.inr trivial, .inr trivial, .inr fun _ => trivial⟩

theorem CutSettings.Allowed.permits {permitted : Fault → Prop} {settings : CutSettings}
    (h : settings.Allowed permitted) {k : Nat} (hmax : TruthTable.maxVars < k)
    (hk : k ≤ settings.cutSize) : permitted (.tooManyVariables k) :=
  h.width.resolve_left (fun hsize => (hmax.trans_le (hk.trans hsize)).false) k

/-- The cut for a table over some leaves: over all of them, or over those alone on which the table
depends. -/
def Cut.ofTable (settings : CutSettings) (merged : List NodeId) (t : TruthTable) : Cut :=
  if settings.minimize then make (t.minBase.2.filterMap fun i => merged[i]?) t.minBase.1
  else make merged t

theorem Cut.sound_ofTable {settings : CutSettings} {n : NodeId} {merged : List NodeId}
    {t : TruthTable} (h : (make merged t).Sound net n) :
    (ofTable settings merged t).Sound net n ∧ (ofTable settings merged t).size ≤ merged.length := by
  unfold ofTable
  split
  · have hfewer := (List.length_filterMap_le (fun i => merged[i]?) _).trans
      (TruthTable.length_support_le t)
    rw [← TruthTable.minBase_snd] at hfewer
    exact ⟨sound_minBase h, hfewer.trans h.arity.le⟩
  · exact ⟨h, le_rfl⟩

/-- The cut for a table has no leaves but those given. -/
theorem Cut.leaves_ofTable_subset (settings : CutSettings) (merged : List NodeId) (t : TruthTable) :
    (ofTable settings merged t).leaves ⊆ merged := by
  unfold ofTable
  split
  · intro l hl
    obtain ⟨i, -, hi⟩ := List.mem_filterMap.mp hl
    exact List.mem_of_getElem? hi
  · exact List.Subset.refl _

/-- All that combining cuts can do: there are too many leaves, or there is a table over all of
them. -/
theorem Cut.combine_eq_ok {settings : CutSettings} {t : TruthTable} {fanins : List Signal}
    {chosen : List Cut} {r : Option Cut} (h : combine settings t fanins chosen = .ok r) :
    mergeLeaves (chosen.map Cut.leaves) settings.cutSize = none ∧ r = none ∨
      ∃ merged composed, mergeLeaves (chosen.map Cut.leaves) settings.cutSize = some merged ∧
        r = some (ofTable settings merged composed) := by
  unfold combine at h
  cases hmerge : mergeLeaves (chosen.map Cut.leaves) settings.cutSize with
  | none =>
    rw [hmerge] at h
    exact .inl ⟨rfl, (Except.ok.inj h).symm⟩
  | some merged =>
    rw [hmerge] at h
    obtain ⟨tables, -, h⟩ := bind_eq_ok h
    obtain ⟨composed, -, h⟩ := bind_eq_ok h
    refine .inr ⟨merged, composed, rfl, ?_⟩
    split at h
    · next hminimize =>
      obtain rfl := Except.ok.inj h
      exact congrArg some (if_pos hminimize).symm
    · next hminimize =>
      obtain rfl := Except.ok.inj h
      exact congrArg some (if_neg hminimize).symm

/-- Sound cuts of the fanins combine to the cut for a table that is sound over the merged leaves,
unless these are too many for a table. -/
theorem combine_ofTable (hwf : net.WellFormed) (hac : net.Acyclic) {permitted : Fault → Prop}
    {settings : CutSettings} {n : NodeId} {node : Node} {t : TruthTable}
    (hn : net.nodes[n]? = some node) (hkind : node.kind = .gate)
    (ht : net.functions.get? node.function = some t) {chosen : List Cut}
    (hchosen : List.Forall₂ (fun s c => Cut.Sound net s.node c) node.fanins chosen)
    (hwide : ∀ merged, mergeLeaves (chosen.map Cut.leaves) settings.cutSize = some merged →
      TruthTable.maxVars < merged.length → permitted (.tooManyVariables merged.length)) :
    Ends permitted (Cut.combine settings t node.fanins chosen) fun r =>
      ∀ c, r = some c → ∃ merged composed, (Cut.make merged composed).Sound net n ∧
        merged.length ≤ settings.cutSize ∧ c = Cut.ofTable settings merged composed := by
  unfold Cut.combine
  cases hmerge : mergeLeaves (chosen.map Cut.leaves) settings.cutSize with
  | none =>
    intro c hc
    cases hc
  | some merged =>
    obtain ⟨hascending, hlen, hmem⟩ := mergeLeaves_spec hmerge
    obtain ⟨hlength, hzip⟩ := List.forall₂_iff_zip.mp hchosen
    have hfanins : (node.fanins.zip chosen).map Prod.fst = node.fanins :=
      List.map_fst_zip hlength.le
    have hcuts : (node.fanins.zip chosen).map Prod.snd = chosen := List.map_snd_zip hlength.ge
    generalize node.fanins.zip chosen = pairs at hzip hfanins hcuts
    have hpairs : ∀ p ∈ pairs, p.2.Sound net p.1.node := fun p hp => hzip hp
    have hmem' : ∀ l, l ∈ merged ↔ ∃ p ∈ pairs, l ∈ p.2.leaves := by
      intro l
      rw [hmem, ← hcuts]
      simp only [List.map_map, List.mem_map, Function.comp_apply, exists_exists_and_eq_and]
    obtain ⟨hnonempty, -, u, hu, hvars⟩ := hwf.fits n node hn hkind
    obtain rfl := Option.some.inj (ht.symm.trans hu)
    have hne : pairs ≠ [] := by
      rintro rfl
      exact hnonempty hfanins.symm
    have hinputs : (Cut.tablesOver merged pairs).length = t.numVars := by
      rw [Cut.tablesOver, List.length_map, hvars, ← hfanins, List.length_map]
    show Ends permitted ((pairs.mapM fun p => p.2.faninTable merged p.1) >>= _) _
    by_cases hmerged : merged.length ≤ TruthTable.maxVars
    swap
    · -- The table of the first fanin already has too many variables.
      obtain ⟨p, rest, rfl⟩ := List.exists_cons_of_ne_nil hne
      have hp : p ∈ p :: rest := List.mem_cons_self
      rw [List.mapM_cons, Cut.faninTable_eq_error (hpairs p hp) hmerged
        (fun l hl => (hmem' l).mpr ⟨p, hp, hl⟩) p.1]
      exact hwide merged hmerge (Nat.not_le.mp hmerged)
    -- Every chosen cut has its table over the merged leaves, which compose to that of the gate.
    have htables : pairs.mapM (fun p => p.2.faninTable merged p.1) =
        .ok (Cut.tablesOver merged pairs) :=
      mapM_eq_ok fun p hp => Cut.faninTable_eq (hpairs p hp) hmerged
        (fun l hl => (hmem' l).mpr ⟨p, hp, hl⟩) p.1
    have hcomposed := TruthTable.Checked.compose_eq (hwf.functions.canonical_of_get? ht)
      (Cut.ofArity_tablesOver hmerged pairs)
      ((Cut.commonVars_tablesOver hmerged hne).le.trans hmerged) hinputs
    have hsound := Cut.sound_compose hac hmerged hascending hmem' hpairs hn hkind ht hfanins hne
      hinputs
    rw [htables, ok_bind, hcomposed, ok_bind]
    split
    · next hminimize =>
      intro c hc
      obtain rfl := Option.some.inj hc
      exact ⟨merged, _, hsound, hlen, (if_pos hminimize).symm⟩
    · next hminimize =>
      intro c hc
      obtain rfl := Option.some.inj hc
      exact ⟨merged, _, hsound, hlen, (if_neg hminimize).symm⟩

/-- Sound cuts of the fanins combine to a sound cut of the gate. -/
theorem combine_sound (hwf : net.WellFormed) (hac : net.Acyclic) {permitted : Fault → Prop}
    {settings : CutSettings} (hallowed : settings.Allowed permitted) {n : NodeId} {node : Node}
    {t : TruthTable} (hn : net.nodes[n]? = some node) (hkind : node.kind = .gate)
    (ht : net.functions.get? node.function = some t) {chosen : List Cut}
    (hchosen : List.Forall₂ (fun s c => Cut.Sound net s.node c) node.fanins chosen) :
    Ends permitted (Cut.combine settings t node.fanins chosen) fun r =>
      ∀ c, r = some c → c.Sound net n ∧ c.size ≤ settings.cutSize := by
  refine (combine_ofTable hwf hac hn hkind ht hchosen fun merged hmerge hmax =>
    hallowed.permits hmax (mergeLeaves_spec hmerge).2.1).mono fun r hr c hc => ?_
  obtain ⟨merged, composed, hsound, hlen, rfl⟩ := hr c hc
  exact (Cut.sound_ofTable hsound).imp_right fun hle => hle.trans hlen

/-! ### Going through the choices -/

/-- A search through all choices keeps what its steps keep. Each choice takes one element of each
set, where the first set comes last in the choice. -/
theorem foldChoices_ends {σ : Type} {permitted : Fault → Prop} {finished : σ → Except Fault Bool}
    {step : σ → List Cut → Except Fault σ} (inv : σ → Prop)
    (hfinished : ∀ state, inv state → Ends permitted (finished state) fun _ => True)
    (sets : List (List Cut)) (chosen : List Cut)
    (hstep : ∀ picks state, List.Forall₂ (fun set c => c ∈ set) sets.reverse picks → inv state →
      Ends permitted (step state (picks ++ chosen)) inv)
    (state : σ) (h : inv state) :
    Ends permitted (foldChoices finished step sets chosen state) inv := by
  induction sets generalizing chosen state with
  | nil => exact hstep [] state .nil h
  | cons set sets ih =>
    apply Ends.foldlM inv h
    intro c hc state hstate
    apply (hfinished state hstate).bind
    intro done _
    cases done with
    | true => exact hstate
    | false =>
      apply ih (c :: chosen) _ state hstate
      intro picks state hpicks hstate
      have hall := hstep (picks ++ [c]) state ?_ hstate
      · rwa [List.append_assoc] at hall
      · rw [List.reverse_cons]
        exact List.rel_append hpicks (.cons hc .nil)

/-! ### Enumeration -/

theorem mem_insertInto {set : List Cut} {c d : Cut} (h : d ∈ Cut.insertInto set c) :
    d = c ∨ d ∈ set := by
  unfold Cut.insertInto at h
  split at h
  · exact .inr h
  · rcases List.mem_append.mp h with h | h
    · exact .inr (List.mem_filter.mp ((List.takeWhile_sublist _).mem h)).1
    · rcases List.mem_cons.mp h with rfl | h
      · exact .inl rfl
      · exact .inr (List.mem_filter.mp ((List.dropWhile_sublist _).mem h)).1

namespace Network

theorem sound_constant {n : NodeId} {node : Node} {v : Bool} (hac : net.Acyclic)
    (hn : net.nodes[n]? = some node) (hkind : node.kind = .constant v) :
    (Cut.constant v).Sound net n := by
  refine ⟨?_, List.Pairwise.nil, (TruthTable.canonical_zero (by decide)).withPolarity v, ?_, ?_⟩
  · intro l hl
    cases hl
  · exact TruthTable.numVars_withPolarity _ _
  · intro inputs
    have hbit : ((TruthTable.zero 0).withPolarity v).bit 0 = v := by
      rw [TruthTable.bit_withPolarity (TruthTable.canonical_zero (by decide)) v (by decide),
        TruthTable.bit_zero, Bool.false_xor]
    rw [value_of_constant hac hn hkind]
    exact hbit.symm

theorem sound_trivial {n : NodeId} (hn : n < net.size) : (Cut.trivial n).Sound net n := by
  refine ⟨?_, List.pairwise_singleton _ _, TruthTable.canonical_proj (by decide) 0, rfl, ?_⟩
  · intro l hl
    rw [List.mem_singleton.mp hl]
    exact hn
  · intro inputs
    have hbit : ∀ x, (TruthTable.proj 1 0).bit (codeOf [x]) = x := by decide
    exact (hbit _).symm

theorem isSaturated_ends {permitted : Fault → Prop} {settings : CutSettings}
    (hlimit : settings.cutLimit < 2 ^ 62 ∨ permitted .overflow) (search : CutSearch) :
    Ends permitted (search.isSaturated settings) fun _ => True := by
  have hbound : decide (4 * settings.cutLimit < 1 <<< 64) = true ∨ permitted .overflow := by
    refine hlimit.imp_left fun hlimit => decide_eq_true ?_
    rw [Nat.one_shiftLeft]
    omega
  have hsaturation : Ends permitted (saturation settings) fun _ => True :=
    (Ends.require hbound).bind fun _ _ => trivial
  unfold CutSearch.isSaturated
  split
  · exact hsaturation.bind fun _ _ => trivial
  · exact trivial

/-- The search through the cuts of the fanins of a gate keeps what every insertion of a combined
cut keeps. -/
theorem searchCuts_ends {permitted : Fault → Prop} {settings : CutSettings} {sets : CutSets}
    {t : TruthTable} {fanins : List Signal} (kept : List Cut → Prop) (hnil : kept [])
    (hsaturated : ∀ search, Ends permitted (CutSearch.isSaturated settings search) fun _ => True)
    (hcombine : ∀ picks found, List.Forall₂ (fun s c => c ∈ sets.of s.node) fanins picks →
      kept found → Ends permitted (Cut.combine settings t fanins picks) fun r =>
        ∀ c, r = some c → kept (Cut.insertInto found c)) :
    Ends permitted (foldChoices (CutSearch.isSaturated settings) (CutSearch.step settings t fanins)
      (fanins.map fun s => sets.of s.node).reverse [] ⟨false, []⟩) fun search =>
        kept search.found := by
  refine foldChoices_ends (fun search => kept search.found) (fun search _ => hsaturated search)
    _ _ ?_ ⟨false, []⟩ hnil
  intro picks search hpicks hkept
  rw [List.append_nil]
  rw [List.reverse_reverse] at hpicks
  apply (hcombine picks search.found (List.forall₂_map_left_iff.mp hpicks) hkept).bind
  intro r hr
  cases r with
  | none => exact hkept
  | some c => exact hr c rfl

/-- All stored cuts are sound. -/
def SoundCuts (net : Network) (sets : CutSets) : Prop :=
  ∀ n, ∀ c ∈ sets.of n, c.Sound net n

/-- The cuts of a node are sound and few, if those stored before are sound. -/
theorem cutsOf_sound (hwf : net.WellFormed) (hac : net.Acyclic) {permitted : Fault → Prop}
    {settings : CutSettings} (hallowed : settings.Allowed permitted) {sets : CutSets}
    (hsets : net.SoundCuts sets) {n : NodeId} (hn : n < net.size) :
    Ends permitted (net.cutsOf settings sets n) fun cuts =>
      (∀ c ∈ cuts, c.Sound net n ∧ c.size ≤ max 1 settings.cutSize) ∧
        cuts.length ≤ max 1 settings.cutLimit ∧ cuts ≠ [] := by
  obtain ⟨node, hnode⟩ := exists_node hn
  rw [cutsOf, node_eq hnode, ok_bind]
  have htrivial : ∀ c ∈ [Cut.trivial n], c.Sound net n ∧ c.size ≤ max 1 settings.cutSize := by
    intro c hc
    rw [List.mem_singleton.mp hc]
    exact ⟨sound_trivial hn, le_max_left _ _⟩
  cases hkind : node.kind with
  | constant v =>
    refine ⟨?_, le_max_left _ _, List.cons_ne_nil _ _⟩
    intro c hc
    rw [List.mem_singleton.mp hc]
    exact ⟨sound_constant hac hnode hkind, Nat.zero_le _⟩
  | primaryInput => exact ⟨htrivial, le_max_left _ _, List.cons_ne_nil _ _⟩
  | registerOutput => exact ⟨htrivial, le_max_left _ _, List.cons_ne_nil _ _⟩
  | gate =>
    obtain ⟨t, ht, -⟩ := hwf.exists_function hnode hkind
    simp only [FunctionCache.get_eq_ok.mpr ht, ok_bind]
    -- The search keeps the cuts found so far sound, whatever it tries next.
    refine Ends.bind (searchCuts_ends (fun found => ∀ c ∈ found,
      c.Sound net n ∧ c.size ≤ max 1 settings.cutSize) (fun c hc => absurd hc List.not_mem_nil)
      (isSaturated_ends hallowed.limit_lt) ?_) ?_
    · intro picks found hpicks hfound
      have hchosen := hpicks.imp fun s c hc => hsets s.node c hc
      refine (combine_sound hwf hac hallowed hnode hkind ht hchosen).mono fun r hr c hc d hd => ?_
      rcases mem_insertInto hd with rfl | hd
      · exact (hr d hc).imp_right fun hle => hle.trans (le_max_right _ _)
      · exact hfound d hd
    · intro search hsearch
      refine ⟨?_, ?_, List.append_ne_nil_of_right_ne_nil _ (List.cons_ne_nil _ _)⟩
      · intro c hc
        rcases List.mem_append.mp hc with hc | hc
        · exact hsearch c (List.mem_of_mem_take hc)
        · exact htrivial c hc
      · rw [List.length_append, List.length_take, List.length_singleton]
        omega

theorem of_setIfInBounds (sets : CutSets) (n m : NodeId) (cuts : List Cut) :
    CutSets.of (sets.setIfInBounds n cuts) m =
      if n = m ∧ m < sets.size then cuts else sets.of m := by
  rw [CutSets.of, CutSets.of, Array.getElem?_setIfInBounds]
  by_cases heq : n = m
  · subst heq
    by_cases hlt : n < sets.size
    · simp [hlt]
    · simp [hlt]
  · simp [heq]

/-- What enumeration stores: sound cuts of few leaves, and no more of them than asked for. -/
structure Enumerated (net : Network) (settings : CutSettings) (sets : CutSets) : Prop where
  size : sets.size = net.size
  sound : net.SoundCuts sets
  narrow : ∀ n, ∀ c ∈ sets.of n, c.size ≤ max 1 settings.cutSize
  length : ∀ n, (sets.of n).length ≤ max 1 settings.cutLimit

theorem of_replicate (size n : Nat) : CutSets.of (Array.replicate size []) n = [] := by
  rw [CutSets.of, Array.getElem?_replicate]
  split <;> rfl

/-- A sound cut has no more leaves than a table has variables, whatever was asked for. -/
theorem Enumerated.narrowed {settings : CutSettings} {sets : CutSets}
    (h : Enumerated net settings sets) :
    Enumerated net { settings with cutSize := min settings.cutSize TruthTable.maxVars } sets := by
  refine ⟨h.size, h.sound, fun n c hc => ?_, h.length⟩
  have hsound := h.sound n c hc
  have hnarrow := h.narrow n c hc
  have hmax : c.size ≤ TruthTable.maxVars := hsound.arity.ge.trans hsound.canonical.numVars_le
  dsimp only
  omega

/-- Enumeration stores a good set at every node it comes to, if the cuts of a node are good whenever
those stored before are. -/
theorem enumerateCuts_stores {permitted : Fault → Prop} {settings : CutSettings}
    (good : NodeId → List Cut → Prop) (hlimit : 1 ≤ settings.cutLimit ∨ permitted .noTrivialCut)
    (hcuts : 1 ≤ settings.cutLimit → ∀ (sets : CutSets) (n : NodeId), n < net.size →
      (∀ m, sets.of m ≠ [] → good m (sets.of m)) →
        Ends permitted (net.cutsOf settings sets n) (good n)) :
    Ends permitted (net.enumerateCuts settings) fun sets =>
      1 ≤ settings.cutLimit ∧ sets.size = net.size ∧
        (∀ n, sets.of n ≠ [] → good n (sets.of n)) ∧
          ∀ n ∈ net.coneOrder [] net.nodeIds, good n (sets.of n) := by
  refine Ends.bind (Ends.require (hlimit.imp_left decide_eq_true)) fun _ hpos => ?_
  have hpos := of_decide_eq_true hpos
  refine Ends.mono (Ends.foldlM_prefix (fun before (sets : CutSets) => sets.size = net.size ∧
    (∀ n, sets.of n ≠ [] → good n (sets.of n)) ∧ ∀ n ∈ before, good n (sets.of n)) ?_ ?_)
    fun sets hsets => ⟨hpos, hsets⟩
  · refine ⟨Array.size_replicate, fun n hne => ?_, fun n hn => absurd hn List.not_mem_nil⟩
    exact absurd (of_replicate _ n) hne
  · rintro before n after sets heq ⟨hsize, hsets, hbefore⟩
    have hn : n ∈ net.coneOrder [] net.nodeIds := heq ▸ List.mem_append_right _ List.mem_cons_self
    have hlt := (mem_coneOrder hn).2
    apply (hcuts hpos sets n hlt hsets).bind
    intro cuts hgood
    refine ⟨Array.size_setIfInBounds.trans hsize, fun m hne => ?_, fun m hm => ?_⟩
    · rw [of_setIfInBounds] at hne ⊢
      split
      · next heq => exact heq.1 ▸ hgood
      · next hother =>
        rw [if_neg hother] at hne
        exact hsets m hne
    · rw [of_setIfInBounds]
      split
      · next heq => exact heq.1 ▸ hgood
      · next hother =>
        rcases List.mem_append.mp hm with hm | hm
        · exact hbefore m hm
        · obtain rfl := List.mem_singleton.mp hm
          exact absurd ⟨rfl, hlt.trans_eq hsize.symm⟩ hother

theorem mem_coneOrder_nodeIds (hwf : net.WellFormed) (hac : net.Acyclic) {n : NodeId}
    (hn : n < net.size) : n ∈ net.coneOrder [] net.nodeIds :=
  (root_mem_coneOrder hwf hac (List.mem_range.mpr hn) hn).resolve_left List.not_mem_nil

/-- Enumeration goes through all nodes and stores a cut for each. -/
theorem enumerateCuts_ends_of_allowed (hwf : net.WellFormed) (hac : net.Acyclic)
    {permitted : Fault → Prop} {settings : CutSettings} (hallowed : settings.Allowed permitted) :
    Ends permitted (net.enumerateCuts settings) fun sets =>
      1 ≤ settings.cutLimit ∧ Enumerated net settings sets ∧ ∀ n < net.size, sets.of n ≠ [] := by
  refine (enumerateCuts_stores (fun n cuts => (∀ c ∈ cuts, c.Sound net n ∧
    c.size ≤ max 1 settings.cutSize) ∧ cuts.length ≤ max 1 settings.cutLimit ∧ cuts ≠ [])
    hallowed.limit_pos ?_).mono ?_
  · intro _ sets n hn hsets
    exact cutsOf_sound hwf hac hallowed
      (fun m c hc => ((hsets m (List.ne_nil_of_mem hc)).1 c hc).1) hn
  · rintro sets ⟨hpos, hsize, hsets, hall⟩
    have hmem : ∀ n, ∀ c ∈ sets.of n, c.Sound net n ∧ c.size ≤ max 1 settings.cutSize :=
      fun n c hc => (hsets n (List.ne_nil_of_mem hc)).1 c hc
    refine ⟨hpos, ⟨hsize, fun n c hc => (hmem n c hc).1, fun n c hc => (hmem n c hc).2,
      fun n => ?_⟩, fun n hn => (hall n (mem_coneOrder_nodeIds hwf hac hn)).2.2⟩
    by_cases hempty : sets.of n = []
    · rw [hempty]
      exact Nat.zero_le _
    · exact (hsets n hempty).2.1

/-- Enumeration under settings that are within range. -/
theorem enumerateCuts_ends (hwf : net.WellFormed) (hac : net.Acyclic) (permitted : Fault → Prop)
    {settings : CutSettings} (hsize : settings.cutSize ≤ TruthTable.maxVars)
    (hpos : 1 ≤ settings.cutLimit) (hlimit : settings.cutLimit < 2 ^ 62) :
    Ends permitted (net.enumerateCuts settings) fun sets =>
      Enumerated net settings sets ∧ ∀ n < net.size, sets.of n ≠ [] :=
  (enumerateCuts_ends_of_allowed hwf hac ⟨.inl hpos, .inl hlimit, .inl hsize⟩).mono
    fun _ => And.right

/-- The function of every stored cut gives the value of its node from the values of its leaves,
whether or not the leaves separate the node from the inputs. -/
theorem stored_cuts_give_values (hbuilt : net.Built) (hac : net.Acyclic) {settings : CutSettings}
    (hpos : 1 ≤ settings.cutLimit) (hlimit : settings.cutLimit < 2 ^ 62)
    (hsize : settings.cutSize ≤ TruthTable.maxVars) :
    ∃ sets, net.enumerateCuts settings = .ok sets ∧ (∀ n < net.size, sets.of n ≠ []) ∧
      ∀ n, ∀ c ∈ sets.of n, c.function.numVars = c.leaves.length ∧ ∀ inputs,
        net.value inputs n = c.function.bit (codeOf (c.leaves.map (net.value inputs))) := by
  obtain ⟨sets, hrun, hsets, hstored⟩ :=
    ends_never_iff.mp (enumerateCuts_ends hbuilt.wellFormed hac Never hsize hpos hlimit)
  refine ⟨sets, hrun, hstored, ?_⟩
  intro n c hc
  have hsound := hsets.sound n c hc
  exact ⟨hsound.arity, hsound.value⟩

theorem stored_cuts_give_values_conjunctionOfThree :
    ∃ sets, conjunctionOfThree.enumerateCuts {} = .ok sets ∧
      (∀ n < conjunctionOfThree.size, sets.of n ≠ []) ∧
        ∀ n, ∀ c ∈ sets.of n, c.function.numVars = c.leaves.length ∧ ∀ inputs,
          conjunctionOfThree.value inputs n =
            c.function.bit (codeOf (c.leaves.map (conjunctionOfThree.value inputs))) :=
  stored_cuts_give_values built_conjunctionOfThree acyclic_conjunctionOfThree (by decide)
    (by decide) (by decide)

end Network

end LogicSynthesis
