import LogicSynthesis.Proofs.Cleanup.Folding
import LogicSynthesis.Proofs.Fingerprint

/-!
# Clean-ups of networks in normal form

Where gates are arranged, distinct and read earlier nodes, nothing folds or merges during a
clean-up: every live gate becomes a gate of the same function at its place in the topological order.
The result is compact, so that its own order is that of its numbers, and a second clean-up goes
through the same steps.

## Main definitions

- `Basis.Separate` — fanins of which a gate is made as they are
- `Network.enter` — the literal of a function of gates
- `Network.Renumbers` — the images of some nodes are the nodes to which a function takes them
- `Network.Placed` — the invariant of copying: every node was copied to its place
- `Network.Repeats` — the compact network goes through the same copies

## Main statements

- `cloneNode_of_separate`, `exists_cloneNode_fresh` — the copy of a gate over separate fanins
- `Placed.unlike`, `Placed.gate_step` — copies do not merge, and a gate is copied to its place
- `Compacts.copyNode_repeats` — copying the compact network takes the same steps
- `exists_compact` — a clean-up is compact and its own clean-up
- `cleanup_faithful_idempotent` — clean-ups of networks that constructors made
-/

namespace LogicSynthesis

namespace Basis

variable {basis : Basis} {fanins : List Signal}

/-- Of these fanins a gate is made as they are: it does not fold, and no fanin is complemented for
it. -/
structure Separate (basis : Basis) (fanins : List Signal) : Prop where
  drivers : ¬ basis.Folds (fanins.map Signal.node)
  polarity : basis = .majorityInverter → fanins.countP Signal.negated ≤ 1

theorem Separate.arrange (h : basis.Separate fanins) : basis.Separate (basis.arrange fanins) := by
  have hperm := arrange_perm basis fanins
  refine ⟨fun hfolds => h.drivers (hfolds.of_perm (hperm.map _)), fun hbasis => ?_⟩
  rw [hperm.countP_eq]
  exact h.polarity hbasis

end Basis

namespace Network

/-- The literal of a function of gates. Where all gates have one function it is fixed, and else the
function is entered. -/
def enter (net : Network) (t : TruthTable) : Nat × Network :=
  if net.basis.isSymmetric then (Basis.gateLiteral, net) else net.insertFunction t

end Network

namespace Build

open Network

variable {model net : Network} {source : NodeId} {fanins fanins' : List Signal}

/-- A copy over separate fanins is the gate of the arranged fanins. -/
theorem cloneNode_of_separate (hmodel : model.WellFormed) (hbasis : net.basis = model.basis)
    {t : TruthTable} {literal : Nat} (hgate : model.HasGate source fanins literal)
    (ht : model.functions.get? literal = some t) (hlen : fanins'.length = fanins.length)
    (hseparate : net.basis.Separate fanins') :
    cloneNode model source fanins' net =
      (Signal.ofNode <$> node (net.basis.arrange fanins') (net.enter t).1) (net.enter t).2 := by
  obtain ⟨hne, -, t', ht', hvars⟩ := hgate.fits hmodel
  obtain rfl := Option.some.inj (ht.symm.trans ht')
  obtain ⟨fanout, hnode⟩ := hgate
  have hdrivers := hseparate.drivers
  rw [cloneNode, get_run]
  cases hcase : net.basis with
  | andInverter =>
    obtain ⟨-, harity⟩ := hmodel.functionOf_eq
      (show model.basis.gateFunction? = some _ by rw [← hbasis, hcase]; rfl) hnode rfl
    obtain ⟨a, b, rfl⟩ := List.length_eq_two.mp (hlen.trans harity)
    rw [hcase, Basis.folds_pair_iff, not_or, not_or] at hdrivers
    have henter : net.enter t = (Basis.gateLiteral, net) := by rw [enter, hcase]; rfl
    show Build.and a b net = _
    rw [Build.and, get_run, henter]
    simp only [hcase]
    rw [conjunction_of_not_folds hdrivers.1 hdrivers.2.1 hdrivers.2.2, ← Signal.sort_pair]
    rfl
  | majorityInverter =>
    obtain ⟨-, harity⟩ := hmodel.functionOf_eq
      (show model.basis.gateFunction? = some _ by rw [← hbasis, hcase]; rfl) hnode rfl
    obtain ⟨a, b, c, rfl⟩ := List.length_eq_three.mp (hlen.trans harity)
    rw [hcase] at hdrivers
    have henter : net.enter t = (Basis.gateLiteral, net) := by rw [enter, hcase]; rfl
    have hcount : ¬ 2 ≤ (Signal.sort [a, b, c]).countP Signal.negated := by
      rw [(Signal.sort_perm _).countP_eq]
      exact Nat.not_le.mpr (Nat.lt_succ_of_le (hseparate.polarity hcase))
    show maj a b c net = _
    rw [maj, get_run, henter]
    simp only [hcase]
    rw [majority_of_not_folds (not_not.mp hdrivers), distinctMajority, if_neg hcount]
    rfl
  | lookupTable =>
    have henter : net.enter t = net.insertFunction t := by rw [enter, hcase]; rfl
    have hne' : fanins' ≠ [] := by
      rwa [← List.length_pos_iff, hlen, List.length_pos_iff]
    simp only [bind_run (ask_run (nodeFunction_eq hnode ht))]
    rw [lut_of_ne_nil hne' (hlen.trans hvars.symm), henter]
    rfl

end Build

namespace Network

variable {src net net' c : Network} {images images' : Images} {before after : List NodeId}
  {n m : NodeId} {fanins : List Signal} {literal : Nat} {s : Signal}

/-- Arranged fanins are separate again where nodes stand at their places. -/
theorem separate_moved (hinv : net.Inventory) (harranged : net.basis.Arranged fanins)
    (hfanins : ∀ s ∈ fanins, s.node ∈ net.topoOrder) :
    net.basis.Separate (fanins.map net.moved) := by
  have hdrivers : (fanins.map net.moved).map Signal.node =
      (fanins.map Signal.node).map net.place := by
    rw [List.map_map, List.map_map]
    rfl
  have hnodup : net.basis.isSymmetric = true →
      ((fanins.map net.moved).map Signal.node).Nodup := by
    intro hsymmetric
    have hdistinct : (fanins.map Signal.node).Nodup :=
      List.pairwise_map.mpr ((harranged.pairwise hsymmetric).imp fun hlt => hlt.ne)
    rw [hdrivers]
    refine hdistinct.map_on fun n hn m _ heq => ?_
    obtain ⟨s, hs, rfl⟩ := List.mem_map.mp hn
    exact (place_inj (hfanins s hs)).mp heq
  have hzero : net.basis = .andInverter → 0 ∉ (fanins.map net.moved).map Signal.node := by
    intro hbasis hmem
    have hfirst : net.place 0 = 0 := place_of_lt hinv (by rw [hbasis]; decide)
    rw [hdrivers, List.map_map] at hmem
    obtain ⟨s, hs, hplace⟩ := List.mem_map.mp hmem
    rw [hbasis] at harranged
    exact harranged.2 s hs ((place_inj (hfanins s hs)).mp (hplace.trans hfirst.symm))
  refine ⟨?_, fun hbasis => ?_⟩
  · cases hbasis : net.basis with
    | andInverter => exact not_or.mpr ⟨not_not.mpr (hnodup (by rw [hbasis]; rfl)), hzero hbasis⟩
    | majorityInverter => exact not_not.mpr (hnodup (by rw [hbasis]; rfl))
    | lookupTable => exact not_false
  · have hcount : (fanins.map net.moved).countP Signal.negated = fanins.countP Signal.negated :=
      List.countP_map
    rw [hcount]
    rw [hbasis] at harranged
    exact harranged.2

/-- The literal of a function that the basis allows, and what entering it changes. -/
theorem exists_enter (hnet : net.WellFormed) {t : TruthTable} (ht : t.Canonical)
    (hfixed : net.basis.isSymmetric = true → net.basis.gateFunction? = some t) :
    ∃ literal mid, net.enter t = (literal, mid) ∧ net.GrowsTo mid ∧ mid.nodes = net.nodes ∧
      mid.index = net.index ∧ mid.functions.get? literal = some t ∧
        (net.basis.isSymmetric = true → literal = Basis.gateLiteral) := by
  rw [enter]
  cases hsymmetric : net.basis.isSymmetric with
  | true =>
    exact ⟨_, _, rfl, .refl, rfl, rfl, hnet.basisFunction t (hfixed hsymmetric), fun _ => rfl⟩
  | false =>
    exact ⟨_, _, rfl, .function .refl ht, rfl, rfl, FunctionCache.get?_insert hnet.functions ht,
      Bool.noConfusion⟩

/-- A copy over separate fanins is appended where no gate is like it. -/
theorem exists_cloneNode_fresh (hsrc : src.WellFormed) (hnet : net.WellFormed)
    (hbasis : net.basis = src.basis) (hgate : src.HasGate n fanins literal) {t : TruthTable}
    (ht : src.functions.get? literal = some t) {fanins' : List Signal}
    (hlen : fanins'.length = fanins.length) (hseparate : net.basis.Separate fanins')
    (hlt : ∀ s ∈ fanins', s.node < net.size)
    (hnew : ∀ m literal', net.HasGate m (net.basis.arrange fanins') literal' →
      net.functions.get? literal' ≠ some t) :
    ∃ net' literal', Build.cloneNode src n fanins' net = .ok (.ofNode net.size, net') ∧
      net.GrowsTo net' ∧ net'.size = net.size + 1 ∧
      net'.HasGate net.size (net.basis.arrange fanins') literal' ∧
      net'.functions.get? literal' = some t := by
  have hfits := hgate.fits hsrc
  have hfixed : net.basis.isSymmetric = true → net.basis.gateFunction? = some t := by
    intro hsymmetric
    rw [hbasis] at hsymmetric ⊢
    obtain ⟨t', ht'⟩ : ∃ t', src.basis.gateFunction? = some t' := by
      cases hcase : src.basis with
      | andInverter => exact ⟨_, rfl⟩
      | majorityInverter => exact ⟨_, rfl⟩
      | lookupTable => cases hcase ▸ hsymmetric
    rw [hfits.symmetric hsymmetric, hsrc.basisFunction t' ht'] at ht
    rw [ht', ht]
  obtain ⟨literal', mid, henter, hgrow, hnodes, hindex, hget, hliteral⟩ :=
    exists_enter hnet (hsrc.functions.canonical_of_get? ht) hfixed
  have hext := hgrow.extends hnet
  have hperm := Basis.arrange_perm net.basis fanins'
  have hsize : mid.size = net.size := congrArg Array.size hnodes
  have hfound : mid.index[(net.basis.arrange fanins', literal')]? = none := by
    rw [hindex, Option.eq_none_iff_forall_ne_some]
    intro m hm
    have hgate' := hasGate_of_index hnet hm
    obtain ⟨t', ht', -⟩ := (hgate'.fits hnet).function
    exact hnew m _ hgate' (ht'.trans ((hext.functions _ _ ht').symm.trans hget))
  have hcreate : mid.createNode (net.basis.arrange fanins') literal' =
      .ok (net.size, (mid.appendGate (net.basis.arrange fanins') literal').2) := by
    rw [createNode_eq_appendGate hfound fun s hs => hsize ▸ hlt s (hperm.mem_iff.mp hs), ← hsize,
      ← appendGate_fst mid (net.basis.arrange fanins') literal']
  have hfits' : mid.Fits (net.basis.arrange fanins') literal' := by
    obtain ⟨t', ht', hvars⟩ := hfits.function
    obtain rfl := Option.some.inj (ht.symm.trans ht')
    refine ⟨?_, fun h => hliteral (hext.basis ▸ h), t, hget, ?_⟩
    · rw [← List.length_pos_iff, hperm.length_eq, hlen, List.length_pos_iff]
      exact hfits.nonempty
    · rw [hvars, hperm.length_eq, hlen]
  refine ⟨_, literal', ?_, .gate hgrow hfits' hcreate, ?_, ?_, hget⟩
  · rw [Build.cloneNode_of_separate hsrc hbasis hgate ht hlen hseparate, henter]
    exact Build.map_run hcreate
  · rw [size_appendGate, hsize]
  · exact hasGate_appendGate.mpr (.inr ⟨hsize.symm, rfl, rfl⟩)

/-! ### Copies at their places -/

/-- The image of each of these nodes is the node to which `f` takes it. -/
def Renumbers (f : NodeId → NodeId) (ns : List NodeId) (images : Images) : Prop :=
  ∀ n ∈ ns, images[n]? = some (.ofNode (f n))

namespace Renumbers

variable {f : NodeId → NodeId} {ns : List NodeId}

theorem insert (h : Renumbers f ns images) (n : NodeId) :
    Renumbers f (ns ++ [n]) (images.insert n (.ofNode (f n))) := by
  intro m hm
  by_cases hne : n = m
  · subst hne
    exact Std.HashMap.getElem?_insert_self
  · rw [Std.HashMap.getElem?_insert, if_neg (by simpa using hne)]
    exact h m ((List.mem_append.mp hm).resolve_right fun heq =>
      hne (List.mem_singleton.mp heq).symm)

theorem of_mem (h : Renumbers f ns images) (hn : n ∈ ns) : Renumbers f (ns ++ [n]) images := by
  intro m hm
  rcases List.mem_append.mp hm with hm | hm
  · exact h m hm
  · exact h m (List.mem_singleton.mp hm ▸ hn)

theorem edgeAt_eq (h : Renumbers f ns images) (hs : s.node ∈ ns) :
    edgeAt images s = ⟨f s.node, s.negated⟩ := by
  rw [edgeAt, imageAt_eq (h _ hs)]
  cases s.negated <;> rfl

theorem isSome (h : Renumbers f ns images) (hn : n ∈ ns) : (images[n]?).isSome := by
  rw [h n hn]
  rfl

/-- The inputs of a copy are those of its new inputs. -/
theorem inputImages (hinv : src.Inventory) (hcis : net.cis = src.cis.map f) :
    Renumbers f src.cis (src.inputImages (net.cis.map .ofNode)) := by
  intro n hn
  obtain ⟨i, hi, rfl⟩ := List.getElem_of_mem hn
  have hlen : (net.cis.map Signal.ofNode).length = src.numCis := by
    rw [List.length_map, hcis, List.length_map, length_cis]
  have hi' : i < (net.cis.map Signal.ofNode).length := by rwa [hlen, ← length_cis]
  rw [getElem?_inputImages hinv hlen hi hi', List.getElem_map]
  simp only [hcis, List.getElem_map]

end Renumbers

/-- The nodes of `before` were copied to their places, and nothing else was. -/
structure Placed (src : Network) (before : List NodeId) (images : Images) (net : Network) :
    Prop where
  images : Renumbers src.place (src.cis ++ before) images
  size : net.size = max src.terminals.length before.length
  gate : ∀ {n : NodeId} {fanins : List Signal} {literal : Nat}, n ∈ before →
    src.HasGate n fanins literal → ∃ literal',
      net.HasGate (src.place n) (src.basis.arrange (fanins.map src.moved)) literal' ∧
        net.functions.get? literal' = src.functions.get? literal
  origin : ∀ {k : NodeId}, net.isGate k = true →
    ∃ n ∈ before, src.isGate n = true ∧ src.place n = k

/-- A node that is no gate has the place of an input or a constant. -/
theorem Placed.terminal (h : Placed src before images net) (hinv : src.Inventory)
    (horder : src.topoOrder = before ++ n :: after) (hn : n ∈ src.terminals)
    (himages : Renumbers src.place (src.cis ++ (before ++ [n])) images') :
    Placed src (before ++ [n]) images' net := by
  have hplace := place_lt_terminals_iff.mpr hn
  rw [place_of_topoOrder_eq hinv horder] at hplace
  refine ⟨himages, ?_, ?_, ?_⟩
  · rw [h.size, List.length_append, List.length_singleton, max_eq_left hplace.le,
      max_eq_left hplace]
  · intro m fanins literal hm hgate
    rcases List.mem_append.mp hm with hm | hm
    · exact h.gate hm hgate
    · exact absurd hn (List.mem_singleton.mp hm ▸ hinv.not_mem_terminals hgate.isGate)
  · intro k hk
    obtain ⟨m, hm, horigin⟩ := h.origin hk
    exact ⟨m, List.mem_append_left _ hm, horigin⟩

/-- No copy is like the one of a gate that is yet to come. The fanins of a copy and its function
tell which gate it stands for. -/
theorem Placed.unlike (h : Placed src before images net) (hsrc : src.WellFormed)
    (hnormal : src.Normal) (hinv : src.Inventory) (hbefore : ∀ m ∈ before, m ∈ src.topoOrder)
    (hn : n ∈ src.topoOrder) (hnew : n ∉ before) (hgate : src.HasGate n fanins literal)
    {k : NodeId} {literal' : Nat}
    (hcopy : net.HasGate k (src.basis.arrange (fanins.map src.moved)) literal') :
    net.functions.get? literal' ≠ src.functions.get? literal := by
  intro hfunction
  have hac := hnormal.acyclic hsrc
  obtain ⟨m, hm, hmgate, rfl⟩ := h.origin hcopy.isGate
  obtain ⟨mfanins, mliteral, hmgate⟩ := isGate_iff_hasGate.mp hmgate
  obtain ⟨literal'', hcopy', hfunction'⟩ := h.gate hm hmgate
  obtain ⟨harrange, rfl⟩ := hcopy.inj hcopy'
  obtain rfl := arrange_moved_inj (hgate.fanins_mem_topoOrder hsrc hac hinv hn)
    (hmgate.fanins_mem_topoOrder hsrc hac hinv (hbefore m hm)) (hnormal.arranged hgate)
    (hnormal.arranged hmgate) harrange
  obtain ⟨t, ht, -⟩ := (hgate.fits hsrc).function
  have hliteral := hnormal.functions.get?_inj hsrc.functions ht
    (hfunction'.symm.trans (hfunction.trans ht))
  exact hnew (hnormal.unique hgate (hliteral ▸ hmgate) ▸ hm)

/-- A gate is copied to its place, which is the next one. -/
theorem Placed.gate_step (h : Placed src before images net) (hsrc : src.WellFormed)
    (hnormal : src.Normal) (hinv : src.Inventory) (hnet : net.WellFormed)
    (hbasis : net.basis = src.basis) (horder : src.topoOrder = before ++ n :: after)
    (hgate : src.HasGate n fanins literal) :
    ∃ net', Build.cloneNode src n (fanins.map src.moved) net = .ok (.ofNode (src.place n), net') ∧
      net.GrowsTo net' ∧
      Placed src (before ++ [n]) (images.insert n (.ofNode (src.place n))) net' := by
  have hac := hnormal.acyclic hsrc
  have hn : n ∈ src.topoOrder := horder ▸ List.mem_append_right _ List.mem_cons_self
  have hfanins := hgate.fanins_mem_topoOrder hsrc hac hinv hn
  have hplace := place_of_topoOrder_eq hinv horder
  have hle : src.terminals.length ≤ before.length := by
    rw [← hplace, ← Nat.not_lt, place_lt_terminals_iff]
    exact hinv.not_mem_terminals hgate.isGate
  have hsize : net.size = src.place n := by rw [h.size, max_eq_right hle, hplace]
  have hseparate : net.basis.Separate (fanins.map src.moved) :=
    hbasis ▸ separate_moved hinv (hnormal.arranged hgate) hfanins
  have hlt : ∀ s ∈ fanins.map src.moved, s.node < net.size := by
    rw [List.forall_mem_map, hsize, hplace]
    intro s hs
    exact place_lt_of_topoOrder_eq horder
      (mem_of_topoOrder_eq hsrc hac hinv horder (hgate.reads_iff.mpr ⟨s, hs, rfl⟩))
  have hbefore : ∀ m ∈ before, m ∈ src.topoOrder := fun m hm =>
    horder ▸ List.mem_append_left _ hm
  have hnew := notMem_of_topoOrder_eq hinv horder
  obtain ⟨t, ht, -⟩ := (hgate.fits hsrc).function
  obtain ⟨net', literal', hrun, hgrow, hsize', hcopy, hget⟩ :=
    exists_cloneNode_fresh hsrc hnet hbasis hgate ht (List.length_map _) hseparate hlt
      fun k literal' hcopy => ht ▸ h.unlike hsrc hnormal hinv hbefore hn hnew hgate (hbasis ▸ hcopy)
  have hext := hgrow.extends hnet
  rw [hsize] at hrun hcopy
  refine ⟨net', hrun, hgrow, List.append_assoc .. ▸ h.images.insert n, ?_, ?_, ?_⟩
  · rw [hsize', hsize, hplace, List.length_append, List.length_singleton, max_eq_right]
    exact hle.trans (Nat.le_succ _)
  · intro m mfanins mliteral hm hmgate
    rcases List.mem_append.mp hm with hm | hm
    · obtain ⟨literal'', hcopy', hfunction⟩ := h.gate hm hmgate
      obtain ⟨t', ht', -⟩ := (hmgate.fits hsrc).function
      refine ⟨literal'', hcopy'.extends hext, ?_⟩
      rw [ht', hext.functions _ _ (hfunction.trans ht')]
    · obtain rfl := List.mem_singleton.mp hm
      obtain ⟨rfl, rfl⟩ := hgate.inj hmgate
      exact ⟨literal', hbasis ▸ hcopy, hget.trans ht.symm⟩
  · intro k hk
    by_cases hlt : k < net.size
    · have hold : net.isGate k = true := (hext.kindIs_eq NodeKind.isGate hlt).symm.trans hk
      obtain ⟨m, hm, horigin⟩ := h.origin hold
      exact ⟨m, List.mem_append_left _ hm, horigin⟩
    · refine ⟨n, List.mem_append_right _ (List.mem_singleton_self n), hgate.isGate, ?_⟩
      have hk' := lt_size_of_kindIs hk
      rw [hsize'] at hk'
      rw [← hsize]
      exact Nat.le_antisymm (Nat.not_lt.mp hlt) (Nat.le_of_lt_succ hk')

/-- The copy of the next node, whatever its kind. -/
theorem copyNode_placed (hsrc : src.WellFormed) (hadmits : src.AdmitsEdges)
    (hnormal : src.Normal) (hinv : src.Inventory) (hnet : net.WellFormed)
    (hbasis : net.basis = src.basis) (horder : src.topoOrder = before ++ n :: after)
    (h : Placed src before images net) :
    (copyNode src images n).Grows net (Placed src (before ++ [n])) := by
  have hac := hnormal.acyclic hsrc
  have hn : n ∈ src.topoOrder := horder ▸ List.mem_append_right _ List.mem_cons_self
  obtain ⟨node, hnode⟩ := exists_node (lt_size_of_mem_topoOrder hsrc hac hinv hn)
  have hinput : node.kind.isInput = true →
      (copyNode src images n).Grows net (Placed src (before ++ [n])) := by
    intro hkind
    have hinput : src.isInput n = true := kindIs_iff.mpr ⟨node, hnode, hkind⟩
    have hcis := hinv.mem_cis.mpr hinput
    refine ⟨images, net, copyNode_input hinput, .refl,
      h.terminal hinv horder (List.mem_append_right _ hcis) ?_⟩
    exact List.append_assoc .. ▸ h.images.of_mem (List.mem_append_left _ hcis)
  cases hkind : node.kind with
  | constant v =>
    have hterminal : n ∈ src.terminals := by
      rw [hinv.mem_terminals_iff]
      exact kindIs_iff.mpr ⟨node, hnode, hkind ▸ rfl⟩
    refine ⟨_, net, copyNode_constant hnode hkind, .refl,
      h.terminal hinv horder hterminal ?_⟩
    obtain ⟨hvalue, hconstant⟩ := constant_eq_ofNode hsrc hinv hnode hkind
    have hn : n < src.basis.constants.length := (List.getElem?_eq_some_iff.mp hvalue).1
    have hinsert := h.images.insert n
    rwa [place_of_lt hinv hn, ← hconstant, ← hbasis, List.append_assoc] at hinsert
  | primaryInput => exact hinput (hkind ▸ rfl)
  | registerOutput => exact hinput (hkind ▸ rfl)
  | gate =>
    have hgate := hasGate_of_node hnode hkind
    have hbefore : ∀ s ∈ src.fanins n, s.node ∈ src.cis ++ before := fun s hs =>
      List.mem_append_right _
        (mem_of_topoOrder_eq hsrc hac hinv horder (reads_iff.mpr ⟨s, hs, rfl⟩))
    obtain ⟨net', hrun, hgrow, hplaced⟩ :=
      h.gate_step hsrc hnormal hinv hnet hbasis horder hgate
    refine ⟨_, net', ?_, hgrow, hplaced⟩
    rw [copyNode_gate hgate.isGate]
    · rw [List.map_congr_left fun s hs => h.images.edgeAt_eq (hbefore s hs), hgate.fanins_eq]
      exact Build.map_run hrun
    · exact fun s hs => hbasis ▸ hadmits s (mem_edges_iff.mpr (.inl ⟨n, hs⟩))
    · exact fun s hs => h.images.isSome (hbefore s hs)

/-! ### The same steps again -/

namespace Compacts

/-- The compact copy of a gate is copied as the gate itself. -/
theorem cloneNode_eq (h : Compacts src c) (hsrc : src.WellFormed) (hc : c.WellFormed)
    (hnormal : src.Normal) (hinv : src.Inventory) (hbasis : net.basis = src.basis)
    (hn : n ∈ src.liveGates) (hfanins : ∀ s ∈ fanins, s.node ∈ src.topoOrder)
    (hgate : src.HasGate n fanins literal) :
    Build.cloneNode c (src.place n) (src.basis.arrange (fanins.map src.moved)) net =
      Build.cloneNode src n (fanins.map src.moved) net := by
  obtain ⟨literal', hgate', hfunction⟩ := h.gate hn hgate
  obtain ⟨t, ht, -⟩ := (hgate.fits hsrc).function
  have hseparate := separate_moved hinv (hnormal.arranged hgate) hfanins
  rw [← hbasis] at hseparate hgate' ⊢
  rw [Build.cloneNode_of_separate hsrc hbasis hgate ht (List.length_map _) hseparate,
    Build.cloneNode_of_separate hc (hbasis.trans h.basis.symm) hgate' (hfunction.trans ht) rfl
      hseparate.arrange, Basis.arrange_arrange]

/-- The copy of a compact gate changes the destination as that of the gate, and keeps its number. -/
theorem copyGate_repeats (h : Compacts src c) (hsrc : src.WellFormed) (hadmits : src.AdmitsEdges)
    (hnormal : src.Normal) (hinv : src.Inventory) (hc : c.WellFormed)
    (hbasis : net.basis = src.basis) (horder : src.topoOrder = before ++ n :: after)
    (hgate : src.HasGate n fanins literal)
    (hplaced : Renumbers src.place (src.cis ++ before) images)
    (hplaced' : Renumbers src.place (src.cis ++ (before ++ [n])) images')
    (hrun : copyNode src images n net = .ok (images', net')) {repeated : Images}
    (hrepeated : Renumbers id (c.cis ++ before.map src.place) repeated) :
    copyNode c repeated (src.place n) net =
      .ok (repeated.insert (src.place n) (.ofNode (src.place n)), net') := by
  have hac := hnormal.acyclic hsrc
  have hn : n ∈ src.topoOrder := horder ▸ List.mem_append_right _ List.mem_cons_self
  have hlive := mem_liveGates_of_topoOrder hsrc hac hinv hn hgate.isGate
  obtain ⟨literal', hgate', -⟩ := h.gate hlive hgate
  have hbefore : ∀ s ∈ src.fanins n, s.node ∈ before := fun s hs =>
    mem_of_topoOrder_eq hsrc hac hinv horder (reads_iff.mpr ⟨s, hs, rfl⟩)
  have hadmits' : ∀ s ∈ src.fanins n, net.basis.Admits s := fun s hs =>
    hbasis ▸ hadmits s (mem_edges_iff.mpr (.inl ⟨n, hs⟩))
  have hmoved : ∀ s ∈ c.fanins (src.place n), ∃ r ∈ src.fanins n, src.moved r = s := by
    intro s hs
    rw [hgate'.fanins_eq, (Basis.arrange_perm _ _).mem_iff] at hs
    rw [hgate.fanins_eq]
    exact List.mem_map.mp hs
  have hnodes : ∀ s ∈ c.fanins (src.place n), s.node ∈ c.cis ++ before.map src.place := by
    intro s hs
    obtain ⟨r, hr, rfl⟩ := hmoved s hs
    exact List.mem_append_right _ (List.mem_map_of_mem (hbefore r hr))
  -- The fanins of the gate are moved, and those of its copy stay.
  have hedges : (src.fanins n).map (edgeAt images) = fanins.map src.moved := by
    rw [hgate.fanins_eq] at hbefore ⊢
    exact List.map_congr_left fun s hs =>
      hplaced.edgeAt_eq (List.mem_append_right _ (hbefore s hs))
  have hsame : (c.fanins (src.place n)).map (edgeAt repeated) = c.fanins (src.place n) :=
    (List.map_congr_left fun s hs => hrepeated.edgeAt_eq (hnodes s hs)).trans (List.map_id _)
  rw [copyNode_gate hgate.isGate hadmits' fun s hs => hplaced.isSome
    (List.mem_append_right _ (hbefore s hs)), hedges] at hrun
  obtain ⟨⟨s, mid⟩, hclone, hpair⟩ := bind_eq_ok hrun
  obtain ⟨rfl, rfl⟩ := Prod.mk.inj (Except.ok.inj hpair)
  obtain rfl : s = .ofNode (src.place n) := by
    have himage := hplaced' n (List.mem_append_right _ (List.mem_append_right _ List.mem_cons_self))
    rw [Std.HashMap.getElem?_insert_self] at himage
    exact Option.some.inj himage
  rw [copyNode_gate hgate'.isGate _ fun s hs => hrepeated.isSome (hnodes s hs), hsame,
    hgate'.fanins_eq]
  · exact Build.map_run ((h.cloneNode_eq hsrc hc hnormal hinv hbasis hlive
      (hgate.fanins_mem_topoOrder hsrc hac hinv hn) hgate).trans hclone)
  · intro s hs
    obtain ⟨r, hr, rfl⟩ := hmoved s hs
    exact hadmits' r hr

/-- So it is for every node. -/
theorem copyNode_repeats (h : Compacts src c) (hsrc : src.WellFormed) (hadmits : src.AdmitsEdges)
    (hnormal : src.Normal) (hinv : src.Inventory) (hc : c.WellFormed) (hcinv : c.Inventory)
    (hbasis : net.basis = src.basis) (horder : src.topoOrder = before ++ n :: after)
    (hplaced : Renumbers src.place (src.cis ++ before) images)
    (hplaced' : Renumbers src.place (src.cis ++ (before ++ [n])) images')
    (hrun : copyNode src images n net = .ok (images', net')) {repeated : Images}
    (hrepeated : Renumbers id (c.cis ++ before.map src.place) repeated) :
    ∃ repeated', copyNode c repeated (src.place n) net = .ok (repeated', net') ∧
      Renumbers id (c.cis ++ (before ++ [n]).map src.place) repeated' := by
  have hn : n ∈ src.topoOrder := horder ▸ List.mem_append_right _ List.mem_cons_self
  obtain ⟨node, hnode⟩ :=
    exists_node (lt_size_of_mem_topoOrder hsrc (hnormal.acyclic hsrc) hinv hn)
  rw [List.map_append, List.map_singleton, ← List.append_assoc]
  have hinput : node.kind.isInput = true →
      ∃ repeated', copyNode c repeated (src.place n) net = .ok (repeated', net') ∧
        Renumbers id (c.cis ++ before.map src.place ++ [src.place n]) repeated' := by
    intro hkind
    have hinput : src.isInput n = true := kindIs_iff.mpr ⟨node, hnode, hkind⟩
    have hcis : src.place n ∈ c.cis := by
      rw [h.cis_eq hinv hcinv]
      exact List.mem_map_of_mem (hinv.mem_cis.mpr hinput)
    obtain ⟨-, rfl⟩ := Prod.mk.inj (Except.ok.inj ((copyNode_input hinput).symm.trans hrun))
    exact ⟨repeated, copyNode_input (hcinv.mem_cis.mp hcis),
      hrepeated.of_mem (List.mem_append_left _ hcis)⟩
  cases hkind : node.kind with
  | constant v =>
    obtain ⟨hvalue, hconstant⟩ := constant_eq_ofNode hsrc hinv hnode hkind
    obtain ⟨node', hnode', hkind'⟩ := hc.constants n v (h.basis ▸ hvalue)
    obtain ⟨-, rfl⟩ :=
      Prod.mk.inj (Except.ok.inj ((copyNode_constant hnode hkind).symm.trans hrun))
    rw [place_of_lt hinv (List.getElem?_eq_some_iff.mp hvalue).1]
    refine ⟨_, copyNode_constant hnode' hkind', ?_⟩
    rw [hbasis, hconstant]
    exact hrepeated.insert n
  | primaryInput => exact hinput (hkind ▸ rfl)
  | registerOutput => exact hinput (hkind ▸ rfl)
  | gate =>
    exact ⟨_, h.copyGate_repeats hsrc hadmits hnormal hinv hc hbasis horder
      (hasGate_of_node hnode hkind) hplaced hplaced' hrun hrepeated, hrepeated.insert _⟩

end Compacts

/-! ### Clean-ups -/

/-- Copies of the inputs depend on their numbers alone. -/
theorem copyInputs_congr (hpis : c.pis.size = src.pis.size) (hros : c.ros.size = src.ros.size) :
    copyInputs c = copyInputs src := by
  have hconst : ∀ (b : Build Signal) (ns ns' : List NodeId), ns.length = ns'.length →
      ns.mapM (fun _ => b) = ns'.mapM fun _ => b := by
    intro b ns
    induction ns with
    | nil => exact fun ns' hlen => by rw [List.length_eq_zero_iff.mp hlen.symm]
    | cons n ns ih =>
      intro ns' hlen
      cases ns' with
      | nil => cases hlen
      | cons n' ns' => rw [List.mapM_cons, List.mapM_cons, ih ns' (Nat.succ.inj hlen)]
  rw [copyInputs, copyInputs, hconst Build.pi c.pis.toList src.pis.toList hpis,
    hconst Build.ro c.ros.toList src.ros.toList hros]

/-- Every compact network repeats the copies of `before`, from the same start to the same end. -/
def Repeats (src : Network) (before : List NodeId) (start net : Network) : Prop :=
  ∀ c, Compacts src c → c.WellFormed → c.Inventory → ∃ repeated,
    (before.map src.place).foldlM (copyNode c) (c.inputImages (start.cis.map .ofNode)) start =
      .ok (repeated, net) ∧ Renumbers id (c.cis ++ before.map src.place) repeated

theorem InputsOnly.terminals_eq {start : Network} (h : start.InputsOnly)
    (hinv : src.Inventory) (hbasis : start.basis = src.basis)
    (hpis : start.pis.size = src.pis.size) (hros : start.ros.size = src.ros.size) :
    start.terminals = List.range src.terminals.length ∧ start.size = src.terminals.length := by
  have hsize : start.size = src.terminals.length := by
    have hlen := congrArg List.length h.terminals
    rw [List.length_range, length_terminals h.built.inventory, hbasis, hpis, hros,
      ← length_terminals hinv] at hlen
    exact hlen.symm
  exact ⟨hsize ▸ h.terminals, hsize⟩

/-- All live nodes are copied to their places, and the copies can be repeated. -/
theorem copyNodes_placed {start : Network} (hsrc : src.Assembled) (hnormal : src.Normal)
    (honly : start.InputsOnly) (hbasis : start.basis = src.basis)
    (hpis : start.pis.size = src.pis.size) (hros : start.ros.size = src.ros.size) :
    (src.copyNodes (start.cis.map .ofNode)).Grows start fun images net =>
      Placed src src.topoOrder images net ∧ Repeats src src.topoOrder start net := by
  have hwf := hsrc.built.wellFormed
  have hinv := hsrc.built.inventory
  obtain ⟨hterminals, hsize⟩ := honly.terminals_eq hinv hbasis hpis hros
  have hcis := cis_eq_map_place hinv honly.built.inventory hbasis hterminals
  apply Build.Grows.foldlM_prefix fun before images net =>
    Placed src before images net ∧ Repeats src before start net
  · refine ⟨⟨?_, ?_, fun h => absurd h List.not_mem_nil, ?_⟩, ?_⟩
    · rw [List.append_nil]
      exact .inputImages hinv hcis
    · rw [hsize, List.length_nil, Nat.max_zero]
    · intro k hk
      rw [honly.isGate_eq] at hk
      cases hk
    · intro c hc _ hcinv
      refine ⟨_, rfl, ?_⟩
      rw [List.map_nil, List.append_nil]
      refine .inputImages hcinv ?_
      rw [List.map_id, hcis, hc.cis_eq hinv hcinv]
  · rintro before n after images net horder hgrow ⟨hplaced, hrepeats⟩
    have hnet := hgrow.wellFormed honly.proper.wellFormed
    have hnetBasis := (hgrow.extends honly.proper.wellFormed).basis.trans hbasis
    obtain ⟨images', net', hrun, hgrow', hplaced'⟩ :=
      copyNode_placed hwf hsrc.admits hnormal hinv hnet hnetBasis horder hplaced
    refine ⟨images', net', hrun, hgrow', hplaced', ?_⟩
    intro c hc hcwf hcinv
    obtain ⟨repeated, hprefix, hrenumbers⟩ := hrepeats c hc hcwf hcinv
    obtain ⟨repeated', hstep, hrenumbers'⟩ := hc.copyNode_repeats hwf hsrc.admits hnormal hinv hcwf
      hcinv hnetBasis horder hplaced.images hplaced'.images hrun hrenumbers
    refine ⟨repeated', ?_, hrenumbers'⟩
    rw [List.map_append, List.foldlM_append, Build.bind_run hprefix]
    exact Build.bind_run hstep

theorem Placed.edgeAt_eq (h : Placed src src.topoOrder images net) (hs : s.node ∈ src.topoOrder) :
    edgeAt images s = src.moved s := h.images.edgeAt_eq (List.mem_append_right _ hs)

/-- What is left of a network whose live nodes were copied to their places. -/
theorem Placed.compacts {start : Network} (h : Placed src src.topoOrder images net)
    (hsrc : src.WellFormed) (hac : src.Acyclic) (hinv : src.Inventory) (honly : start.InputsOnly)
    (hbasis : start.basis = src.basis) (hpis : start.pis.size = src.pis.size)
    (hros : start.ros.size = src.ros.size) (hext : start.Extends net)
    (hcinv : (net.withOutputs (src.pos.toList.map src.moved)
      (src.ris.toList.map src.moved)).Inventory) :
    Compacts src
      (net.withOutputs (src.pos.toList.map src.moved) (src.ris.toList.map src.moved)) := by
  have hgates : ∀ {k fanins literal}, (net.withOutputs (src.pos.toList.map src.moved)
      (src.ris.toList.map src.moved)).HasGate k fanins literal ↔ net.HasGate k fanins literal :=
    hasGate_countReaders rfl
  refine ⟨hext.basis.trans hbasis, ?_, ?_, ?_, ?_, ?_, ?_, ?_, ?_⟩
  · exact (congrArg Array.size hext.pis).trans hpis
  · exact (congrArg Array.size hext.ros).trans hros
  · simp [withOutputs, hext.pos, honly.pos]
  · simp [withOutputs, hext.ris, honly.ris]
  · rw [size_withOutputs, h.size, max_eq_right]
    rw [topoOrder_eq, List.length_append]
    exact Nat.le_add_right _ _
  · rw [← (honly.terminals_eq hinv hbasis hpis hros).1, terminals, terminals, hcinv.constants,
      honly.built.inventory.constants]
    exact congrArg₂ (List.range ·.constants.length ++ ·) hext.basis hext.cis_eq
  · intro n fanins literal hn hgate
    have hn := (mem_topoOrder_iff hsrc hac hinv).mpr (.inr hn)
    obtain ⟨literal', hcopy, hfunction⟩ := h.gate hn hgate
    exact ⟨literal', hgates.mpr hcopy, hfunction⟩
  · intro k hk
    obtain ⟨fanins, literal, hk⟩ := isGate_iff_hasGate.mp hk
    obtain ⟨n, hn, hgate, hplace⟩ := h.origin (hgates.mp hk).isGate
    exact ⟨n, mem_liveGates_of_topoOrder hsrc hac hinv hn hgate, hplace⟩

/-- A clean-up that repeats the copies ends in the same network. -/
theorem Repeats.cleanup {start : Network} (h : Repeats src src.topoOrder start net)
    (hsrc : src.Assembled) (hnormal : src.Normal)
    (hinputs : copyInputs src (new src.basis) = .ok (start.cis.map .ofNode, start))
    (hlen : (start.cis.map Signal.ofNode).length = src.numCis) (hbasis : net.basis = src.basis)
    (hc : c = net.withOutputs (src.pos.toList.map src.moved) (src.ris.toList.map src.moved))
    (hbuilt : c.Built) (hcompacts : Compacts src c) : c.cleanup = .ok c := by
  have hwf := hsrc.built.wellFormed
  have hinv := hsrc.built.inventory
  have hac := hnormal.acyclic hwf
  obtain ⟨repeated, hcopy, hrenumbers⟩ := h c hcompacts hbuilt.wellFormed hbuilt.inventory
  have horder : src.topoOrder.map src.place = c.topoOrder := by
    rw [map_place_topoOrder hinv, ← hcompacts.size, hcompacts.topoOrder_eq_range hwf hnormal hinv
      hbuilt.wellFormed hbuilt.inventory]
  rw [horder] at hcopy hrenumbers
  have hmoved : ∀ s ∈ c.cos, ∃ r ∈ src.cos, src.moved r = s := by
    intro s hs
    rw [hcompacts.cos_eq] at hs
    exact List.mem_map.mp hs
  have hlisted : ∀ s ∈ c.cos, s.node ∈ c.topoOrder := by
    intro s hs
    obtain ⟨r, hr, rfl⟩ := hmoved s hs
    rw [← horder]
    exact List.mem_map_of_mem (output_mem_topoOrder hwf hac hinv hr)
  have hsame : ∀ s ∈ c.cos, edgeAt repeated s = s := fun s hs =>
    hrenumbers.edgeAt_eq (List.mem_append_right _ (hlisted s hs))
  have hadmits : ∀ s ∈ c.cos, net.basis.Admits s := by
    intro s hs
    obtain ⟨r, hr, rfl⟩ := hmoved s hs
    exact hbasis ▸ hsrc.admits r (mem_edges_iff.mpr (.inr hr))
  have hlt : ∀ s ∈ c.cos, (edgeAt repeated s).node < net.size := by
    intro s hs
    rw [hsame s hs, ← size_withOutputs, ← hc]
    exact hbuilt.wellFormed.output_lt hs
  have hclean := @cleanup_run c repeated (start.cis.map .ofNode) start net
    (by rw [copyInputs_congr hcompacts.pis hcompacts.ros, hcompacts.basis, hinputs])
    (by rw [hlen, numCis, numCis, hcompacts.pis, hcompacts.ros]) hcopy hadmits
    (fun s hs => hrenumbers.isSome (List.mem_append_right _ (hlisted s hs))) hlt
  have hpos : c.pos.toList.map (edgeAt repeated) = c.pos.toList :=
    (List.map_congr_left fun s hs => hsame s (List.mem_append_left _ hs)).trans (List.map_id _)
  have hris : c.ris.toList.map (edgeAt repeated) = c.ris.toList :=
    (List.map_congr_left fun s hs => hsame s (List.mem_append_right _ hs)).trans (List.map_id _)
  rw [hpos, hris, hcompacts.pos, hcompacts.ris, ← hc] at hclean
  exact hclean

/-- The clean-up of a network in normal form is compact, and a second one changes nothing. -/
theorem exists_compact (hsrc : src.Assembled) (hnormal : src.Normal) : ∃ c,
    src.cleanup = .ok c ∧ c.Built ∧ Compacts src c ∧ c.cleanup = .ok c := by
  have hwf := hsrc.built.wellFormed
  have hinv := hsrc.built.inventory
  have hac := hnormal.acyclic hwf
  obtain ⟨start, hinputs, honly, hbasis, hpis, hros⟩ := copyInputs_run src src.basis
  have hlen : (start.cis.map Signal.ofNode).length = src.numCis := by
    rw [List.length_map, length_cis, numCis, numCis, hpis, hros]
  obtain ⟨images, net, hcopy, hgrow, hplaced, hrepeats⟩ :=
    copyNodes_placed hsrc hnormal honly hbasis hpis hros
  have hext := hgrow.extends honly.proper.wellFormed
  have hadmits : ∀ s ∈ src.cos, net.basis.Admits s := by
    intro s hs
    rw [hext.basis, hbasis]
    exact hsrc.admits s (mem_edges_iff.mpr (.inr hs))
  have hlisted : ∀ s ∈ src.cos, s.node ∈ src.topoOrder := fun s hs =>
    output_mem_topoOrder hwf hac hinv hs
  have hlt : ∀ s ∈ src.cos, (src.moved s).node < net.size := by
    intro s hs
    rw [hplaced.size]
    exact (place_lt (hlisted s hs)).trans_le (le_max_right _ _)
  have hpos : src.pos.toList.map (edgeAt images) = src.pos.toList.map src.moved :=
    List.map_congr_left fun s hs => hplaced.edgeAt_eq (hlisted s (List.mem_append_left _ hs))
  have hris : src.ris.toList.map (edgeAt images) = src.ris.toList.map src.moved :=
    List.map_congr_left fun s hs => hplaced.edgeAt_eq (hlisted s (List.mem_append_right _ hs))
  have hclean := cleanup_run hinputs hlen hcopy hadmits
    (fun s hs => hplaced.images.isSome (List.mem_append_right _ (hlisted s hs)))
    fun s hs => hplaced.edgeAt_eq (hlisted s hs) ▸ hlt s hs
  rw [hpos, hris] at hclean
  have hbuilt : (net.withOutputs (src.pos.toList.map src.moved)
      (src.ris.toList.map src.moved)).Built := by
    refine (hgrow.built honly.built).withOutputs ?_ ?_ <;> rw [List.forall_mem_map]
    · exact fun s hs => hlt s (List.mem_append_left _ hs)
    · exact fun s hs => hlt s (List.mem_append_right _ hs)
  have hcompacts := hplaced.compacts hwf hac hinv honly hbasis hpis hros hext hbuilt.inventory
  exact ⟨_, hclean, hbuilt, hcompacts, hrepeats.cleanup hsrc hnormal hinputs hlen
    (hext.basis.trans hbasis) rfl hbuilt hcompacts⟩

/-! ### The theorem -/

/-- The clean-up of a network that constructors made has the live gates and no others, and the same
fingerprint under every hash function. Cleaning it up again gives it back as it is: the nodes with
their fanins, functions and fanouts, the inputs, the outputs and the rest of the state. -/
theorem cleanup_faithful_idempotent (h : src.Constructed) : ∃ c, src.cleanup = .ok c ∧
    (∀ n, c.isGate n = true → c.Live n) ∧ c.numGates = src.liveGates.card ∧
    (∀ hash : List (MessagePiece (List UInt8)) → List UInt8, ∃ d,
      src.fingerprintWith ⟨hash, HashScheme.bytesLe⟩ = .ok d ∧
        c.fingerprintWith ⟨hash, HashScheme.bytesLe⟩ = .ok d) ∧
    c.cleanup = .ok c := by
  have hwf := h.assembled.built.wellFormed
  have hinv := h.assembled.built.inventory
  have hac := h.acyclic
  obtain ⟨c, hclean, hbuilt, hcompacts, hagain⟩ := exists_compact h.assembled h.normal
  obtain ⟨c', hclean', hac', -⟩ := exists_cleanup h.assembled hac
  obtain rfl := Except.ok.inj (hclean.symm.trans hclean')
  refine ⟨c, hclean, fun n => hcompacts.live hwf, hcompacts.numGates hwf hac hinv, ?_, hagain⟩
  exact fun hash => hcompacts.exists_fingerprintWith (HashScheme.ordered_bytesLe hash) hwf hac hinv
    hbuilt.wellFormed hac' hbuilt.inventory

/-- The outer gate of the small network dangles. Without it the network is its own clean-up. -/
theorem cleanup_faithful_tappedConjunction : tappedConjunction.Constructed ∧
    ∃ c, tappedConjunction.cleanup = .ok c ∧ c.numGates = tappedConjunction.liveGates.card ∧
      (∃ d, tappedConjunction.fingerprint = .ok d ∧ c.fingerprint = .ok d) ∧
      c.cleanup = .ok c := by
  obtain ⟨c, hclean, -, hgates, hfingerprint, hagain⟩ :=
    cleanup_faithful_idempotent constructed_tappedConjunction
  exact ⟨constructed_tappedConjunction, c, hclean, hgates, hfingerprint _, hagain⟩

end Network

end LogicSynthesis
