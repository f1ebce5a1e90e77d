import LogicSynthesis.Proofs.Cleanup

/-!
# What a clean-up leaves dangling

A clean-up copies the live gates, fanins first, and some of the copies fold away: the images of the
fanins of a conjunction or a majority can coincide, or be constant, although the fanins do not. The
copies of those fanins are made by then, and nothing else may read them. Every other copy reads the
copies of all fanins, so that whatever dangles after a clean-up is below a gate that folded. Lookup
tables do not fold.

## Main definitions

- `Basis.Folds` — drivers of which no gate is made
- `Network.imageAt`, `Network.FoldsOver` — the image of a node, and a gate that folds over images
- `Network.CleansTo` — a clean-up with the images it went through
- `Network.Traced` — the invariant: gates of the copy go back to gates that did not fold

## Main statements

- `cloneNode_cases` — a copied gate folds, or it reads the images of all fanins
- `cleanup_dangles_below_folds` — whatever dangles is below a gate that folded
- `live_of_not_foldsOver` — nothing dangles if nothing folds
-/

namespace LogicSynthesis

/-- No gate is made of fanins with these drivers: two of them are the same, or a conjunction has the
constant among them. -/
def Basis.Folds (basis : Basis) (drivers : List NodeId) : Prop :=
  match basis with
  | .andInverter => ¬ drivers.Nodup ∨ 0 ∈ drivers
  | .majorityInverter => ¬ drivers.Nodup
  | .lookupTable => False

namespace Basis

variable {basis : Basis}

theorem folds_pair_iff {a b : Signal} : andInverter.Folds ([a, b].map Signal.node) ↔
    a.node = b.node ∨ a.node = 0 ∨ b.node = 0 := by
  simp [Folds, eq_comm]

theorem Folds.of_perm {drivers drivers' : List NodeId} (h : basis.Folds drivers)
    (hperm : drivers.Perm drivers') : basis.Folds drivers' := by
  cases basis with
  | andInverter => exact h.imp (mt hperm.nodup_iff.mpr) hperm.mem_iff.mp
  | majorityInverter => exact mt hperm.nodup_iff.mpr h
  | lookupTable => exact h

end Basis

namespace Build

open Network

variable {model net net' : Network} {source : NodeId} {fanins : List Signal} {s : Signal}

/-! ### Copies of gates -/

theorem conjunction_of_not_folds {a b : Signal} (hne : a.node ≠ b.node) (ha : a.node ≠ 0)
    (hb : b.node ≠ 0) : conjunction a b =
      Signal.ofNode <$> node (if a.le b then [a, b] else [b, a]) Basis.gateLiteral := by
  by_cases hle : a.le b = true
  · simp only [conjunction, hle, if_true, if_neg hne, if_neg ha]
  · simp only [conjunction, hle, if_neg hne.symm, if_neg hb, Bool.false_eq_true, if_false]

theorem eq_of_run_pure {r : Signal} (hrun : (pure r : Build Signal) net = .ok (s, net')) :
    net' = net := (Prod.mk.inj (Except.ok.inj hrun)).2.symm

theorem conjunction_of_folds {a b : Signal} (h : a.node = b.node ∨ a.node = 0 ∨ b.node = 0)
    (hrun : conjunction a b net = .ok (s, net')) : net' = net := by
  have hsorted : ∀ a b : Signal, a.node = b.node ∨ a.node = 0 →
      (if a.node = b.node then
        if a.negated = b.negated then return a else constant false
      else if a.node = 0 then
        if a.negated then return b else constant false
      else Signal.ofNode <$> node [a, b] Basis.gateLiteral : Build Signal) net = .ok (s, net') →
        net' = net := by
    intro a b h hrun
    by_cases hnode : a.node = b.node
    · rw [if_pos hnode] at hrun
      split at hrun <;> exact eq_of_run_pure hrun
    · rw [if_neg hnode, if_pos (h.resolve_left hnode)] at hrun
      split at hrun <;> exact eq_of_run_pure hrun
  unfold conjunction at hrun
  by_cases hle : a.le b = true
  · rw [if_pos hle] at hrun
    refine hsorted a b ?_ hrun
    -- The constant is the first in order.
    rcases h with h | h | h
    · exact .inl h
    · exact .inr h
    · exact .inr (Nat.le_zero.mp (h ▸ Signal.node_le_of_le hle))
  · rw [if_neg hle] at hrun
    have hle' := Signal.le_of_not_le hle
    refine hsorted b a ?_ hrun
    rcases h with h | h | h
    · exact .inl h.symm
    · exact .inr (Nat.le_zero.mp (h ▸ Signal.node_le_of_le hle'))
    · exact .inr h

/-- A majority of three drivers that differ is the gate of the sorted signals. -/
theorem majority_of_not_folds {a b c : Signal} (h : ([a, b, c].map Signal.node).Nodup) :
    majority a b c = distinctMajority (Signal.sort [a, b, c]) := by
  have hperm : (Signal.sort [a, b, c]).Perm [a, b, c] := List.mergeSort_perm _ _
  obtain ⟨a', b', c', hsort⟩ := List.length_eq_three.mp hperm.length_eq
  rw [hsort] at hperm
  have hnodup := (hperm.map Signal.node).nodup_iff.mpr h
  simp only [List.map_cons, List.map_nil, List.nodup_cons, List.mem_cons, List.not_mem_nil,
    or_false, not_or] at hnodup
  obtain ⟨⟨hab, hac⟩, hbc, -⟩ := hnodup
  simp only [majority, hsort, if_neg hab, if_neg hbc, if_neg hac]

theorem majority_of_folds {a b c : Signal} (h : ¬ ([a, b, c].map Signal.node).Nodup)
    (hrun : majority a b c net = .ok (s, net')) : net' = net := by
  have hperm : (Signal.sort [a, b, c]).Perm [a, b, c] := List.mergeSort_perm _ _
  obtain ⟨a', b', c', hsort⟩ := List.length_eq_three.mp hperm.length_eq
  rw [hsort] at hperm
  have hnodup := mt (hperm.map Signal.node).nodup_iff.mp h
  simp only [majority, hsort] at hrun
  split at hrun
  · exact eq_of_run_pure hrun
  split at hrun
  · exact eq_of_run_pure hrun
  split at hrun
  · exact eq_of_run_pure hrun
  · next hab hbc hac => exact absurd (by simp [hab, hbc, hac]) hnodup

/-- What creating a gate adds: the gate reads its fanins, and no other gate is new. -/
theorem gate_of_createNode (hwf : net.WellFormed) {literal : Nat} {n : NodeId}
    (h : net.createNode fanins literal = .ok (n, net')) :
    net'.isGate n = true ∧ net'.faninNodes n = fanins.map Signal.node ∧
      ∀ k, net'.isGate k = true → net.isGate k = true ∨ k = n := by
  obtain ⟨-, node, hnode, hkind, hfanins, -⟩ := createNode_spec hwf h
  refine ⟨isGate_iff.mpr ⟨node, hnode, hkind⟩, ?_, ?_⟩
  · rw [faninNodes, fanins_eq hnode, hfanins]
  · intro k hk
    rcases createNode_eq_ok h with ⟨-, rfl⟩ | ⟨rfl, rfl, -⟩
    · exact .inl hk
    · by_cases hn : k = net.size
      · exact .inr hn
      · left
        obtain ⟨node, hnode, hkind⟩ := isGate_iff.mp hk
        rw [getElem?_appendGate, if_neg hn] at hnode
        obtain ⟨former, hformer, rfl⟩ := exists_of_countReaders hnode
        exact isGate_iff.mpr ⟨former, hformer, hkind⟩

theorem lut_of_ne_nil {t : TruthTable} (hne : fanins ≠ []) (hlen : fanins.length = t.numVars) :
    lut fanins t net =
      (Signal.ofNode <$> node fanins (net.insertFunction t).1) (net.insertFunction t).2 := by
  have hfunction : function t net = .ok (net.insertFunction t) := rfl
  rw [lut_of_length hlen, if_neg (by simpa using hne), bind_run hfunction]
  rfl

/-- The gate that stands behind a signal was created from the fanins, complemented or not. -/
structure MadeOf (drivers : List NodeId) (net : Network) (n : NodeId) (net' : Network) : Prop where
  gate : net'.isGate n = true
  fanins : (net'.faninNodes n).Perm drivers
  fresh : ∀ k, net'.isGate k = true → net.isGate k = true ∨ k = n

theorem madeOf_createNode {mid : Network} (hwf : mid.WellFormed)
    (hkinds : ∀ k, mid.isGate k = net.isGate k) {fanins' : List Signal}
    (hperm : (fanins'.map Signal.node).Perm (fanins.map Signal.node)) {literal : Nat} {n : NodeId}
    (h : mid.createNode fanins' literal = .ok (n, net')) :
    MadeOf (fanins.map Signal.node) net n net' := by
  obtain ⟨hgate, hfanins, hnew⟩ := gate_of_createNode hwf h
  exact ⟨hgate, hfanins ▸ hperm, fun k hk => (hnew k hk).imp_left fun hk => hkinds k ▸ hk⟩

theorem madeOf_distinctMajority (hwf : net.WellFormed) {signals : List Signal}
    (hperm : signals.Perm fanins) (h : distinctMajority signals net = .ok (s, net')) :
    MadeOf (fanins.map Signal.node) net s.node net' := by
  unfold distinctMajority at h
  split at h
  · obtain ⟨⟨n, last⟩, hcreate, hpair⟩ := bind_eq_ok h
    obtain ⟨rfl, rfl⟩ := Prod.mk.inj (Except.ok.inj hpair)
    have hnodes : (signals.map Signal.negate).map Signal.node = signals.map Signal.node := by
      rw [List.map_map]
      rfl
    exact madeOf_createNode hwf (fun _ => rfl) (hnodes ▸ hperm.map _) hcreate
  · obtain ⟨⟨n, last⟩, hcreate, hpair⟩ := bind_eq_ok h
    obtain ⟨rfl, rfl⟩ := Prod.mk.inj (Except.ok.inj hpair)
    exact madeOf_createNode hwf (fun _ => rfl) (hperm.map _) hcreate

/-- A gate folds when it is copied, and nothing is built, or its copy is a gate that reads all the
new fanins. -/
theorem cloneNode_cases (hmodel : model.WellFormed) (hwf : net.WellFormed) (hne : fanins ≠ [])
    (h : cloneNode model source fanins net = .ok (s, net')) :
    net.basis.Folds (fanins.map Signal.node) ∧ net' = net ∨
      ¬ net.basis.Folds (fanins.map Signal.node) ∧
        MadeOf (fanins.map Signal.node) net s.node net' := by
  cases hbasis : net.basis with
  | andInverter =>
    obtain ⟨a, b, rfl, hrun⟩ := cloneNode_andInverter hbasis h
    by_cases hfolds : a.node = b.node ∨ a.node = 0 ∨ b.node = 0
    · exact .inl ⟨Basis.folds_pair_iff.mpr hfolds, conjunction_of_folds hfolds hrun⟩
    · refine .inr ⟨mt Basis.folds_pair_iff.mp hfolds, ?_⟩
      rw [not_or, not_or] at hfolds
      rw [conjunction_of_not_folds hfolds.1 hfolds.2.1 hfolds.2.2] at hrun
      obtain ⟨⟨n, last⟩, hcreate, hpair⟩ := bind_eq_ok hrun
      obtain ⟨rfl, rfl⟩ := Prod.mk.inj (Except.ok.inj hpair)
      refine madeOf_createNode hwf (fun _ => rfl) (List.Perm.map _ ?_) hcreate
      split
      · exact .refl _
      · exact .swap _ _ _
  | majorityInverter =>
    obtain ⟨a, b, c, rfl, hrun⟩ := cloneNode_majorityInverter hbasis h
    by_cases hfolds : ([a, b, c].map Signal.node).Nodup
    · rw [majority_of_not_folds hfolds] at hrun
      exact .inr ⟨not_not_intro hfolds,
        madeOf_distinctMajority hwf (List.mergeSort_perm _ _) hrun⟩
    · exact .inl ⟨hfolds, majority_of_folds hfolds hrun⟩
  | lookupTable =>
    obtain ⟨t, ht, hlut⟩ := cloneNode_lookupTable hbasis h
    rw [lut_of_ne_nil hne (lut_eq_ok hlut).1] at hlut
    obtain ⟨⟨n, last⟩, hcreate, hpair⟩ := bind_eq_ok hlut
    obtain ⟨rfl, rfl⟩ := Prod.mk.inj (Except.ok.inj hpair)
    have hwf' := hwf.insertFunction (canonical_of_nodeFunction hmodel ht)
    have hkinds : ∀ k, (net.insertFunction t).2.isGate k = net.isGate k := fun _ => rfl
    exact .inr ⟨not_false, madeOf_createNode hwf' hkinds (.refl _) hcreate⟩

end Build

namespace Network

open Relation

variable {src dest net net' : Network} {images images' : Images} {before : List NodeId}
  {n m : NodeId} {s : Signal}

/-! ### Tracing gates back -/

/-- The signal that stands for a node. -/
def imageAt (images : Images) (n : NodeId) : Signal := (images[n]?).getD (.ofNode n)

/-- The signal that stands for an edge. -/
def edgeAt (images : Images) (s : Signal) : Signal :=
  (imageAt images s.node).withPolarity s.negated

/-- The images of the fanins of `m` make no gate. -/
def FoldsOver (src : Network) (images : Images) (m : NodeId) : Prop :=
  src.basis.Folds ((src.faninNodes m).map fun n => (imageAt images n).node)

theorem imageAt_eq (h : images[n]? = some s) : imageAt images n = s := by
  rw [imageAt, h]
  rfl

theorem imageAt_insert_self (images : Images) (n : NodeId) (s : Signal) :
    imageAt (images.insert n s) n = s := imageAt_eq Std.HashMap.getElem?_insert_self

theorem imageAt_insert_of_ne (images : Images) (s : Signal) (h : m ≠ n) :
    imageAt (images.insert n s) m = imageAt images m := by
  rw [imageAt, imageAt, Std.HashMap.getElem?_insert, if_neg (by simpa using h.symm)]

theorem node_edgeAt (images : Images) (s : Signal) :
    (edgeAt images s).node = (imageAt images s.node).node := by
  rw [edgeAt]
  cases s.negated <;> rfl

/-- The images of the given edges, where nothing has to be built for them. -/
theorem mapM_edgeImage_eq {signals : List Signal} (hadmits : ∀ s ∈ signals, net.basis.Admits s)
    (hfound : ∀ s ∈ signals, (images[s.node]?).isSome) :
    signals.mapM (edgeImage images) net = .ok (signals.map (edgeAt images), net) := by
  have hmap : ∃ rs mid, signals.mapM (edgeImage images) net = .ok (rs, mid) ∧ mid = net ∧
      rs = signals.map (edgeAt images) := by
    apply Build.mapM_run fun done rs mid => mid = net ∧ rs = done.map (edgeAt images)
    · exact ⟨rfl, rfl⟩
    · rintro s hs done rs mid ⟨rfl, rfl⟩
      obtain ⟨image, himage⟩ := Option.isSome_iff_exists.mp (hfound s hs)
      refine ⟨_, _, edgeImage_eq (hadmits s hs) himage, rfl, ?_⟩
      rw [List.map_append, List.map_singleton, edgeAt, imageAt_eq himage]
  obtain ⟨rs, mid, hrun, rfl, rfl⟩ := hmap
  exact hrun

/-- Every gate of the copy is the image of a gate that did not fold, and reads the images of its
fanins. -/
structure Traced (src : Network) (before : List NodeId) (images : Images) (net : Network) :
    Prop where
  reads : ∀ m ∈ before, src.isGate m = true → ¬ src.FoldsOver images m →
    ∀ k, src.Reads m k → net.Reads (imageAt images m).node (imageAt images k).node
  origin : ∀ k, net.isGate k = true → ∃ m ∈ before, src.isGate m = true ∧
    ¬ src.FoldsOver images m ∧ (imageAt images m).node = k

theorem foldsOver_congr (himages : ∀ k, src.Reads m k → imageAt images' k = imageAt images k) :
    src.FoldsOver images' m ↔ src.FoldsOver images m := by
  have hdrivers : (src.faninNodes m).map (fun n => (imageAt images' n).node) =
      (src.faninNodes m).map fun n => (imageAt images n).node :=
    List.map_congr_left fun k hk => by rw [himages k hk]
  rw [FoldsOver, FoldsOver, hdrivers]

/-- What a copied gate reads is copied before. -/
def Closed (src : Network) (before : List NodeId) : Prop :=
  ∀ m ∈ before, ∀ k, src.Reads m k → k ∈ before

theorem closed_of_topoOrder_eq (hwf : src.WellFormed) (hac : src.Acyclic) (hinv : src.Inventory)
    {after : List NodeId} (horder : src.topoOrder = before ++ after) : Closed src before := by
  intro m hm k hreads
  obtain ⟨first, rest, rfl⟩ := List.append_of_mem hm
  rw [List.append_assoc] at horder
  exact List.mem_append_left _ (mem_of_topoOrder_eq hwf hac hinv horder hreads)

/-- Nodes that make no gate leave what was traced, with the images of the nodes before. -/
theorem Traced.terminal (h : Traced src before images net) (hclosed : Closed src before)
    (hn : src.isGate n = false) (himages : ∀ m ∈ before, imageAt images' m = imageAt images m) :
    Traced src (before ++ [n]) images' net := by
  have hfolds : ∀ m ∈ before, src.FoldsOver images' m ↔ src.FoldsOver images m := fun m hm =>
    foldsOver_congr fun k hk => himages k (hclosed m hm k hk)
  refine ⟨?_, ?_⟩
  · intro m hm hgate hnot k hk
    rcases List.mem_append.mp hm with hm | hm
    · rw [himages m hm, himages k (hclosed m hm k hk)]
      exact h.reads m hm hgate (mt (hfolds m hm).mpr hnot) k hk
    · rw [List.mem_singleton.mp hm, hn] at hgate
      cases hgate
  · intro k hk
    obtain ⟨m, hm, hgate, hnot, hnode⟩ := h.origin k hk
    exact ⟨m, List.mem_append_left _ hm, hgate, mt (hfolds m hm).mp hnot, himages m hm ▸ hnode⟩

/-- A gate is copied, and its copy is traced back to it unless it folded. -/
theorem Traced.gate (h : Traced src before images net) (hclosed : Closed src before)
    (hgate : src.isGate n = true) (hn : n ∉ before) (hfanins : ∀ k, src.Reads n k → k ∈ before)
    (hwf : net.WellFormed) (hgrow : net.GrowsTo net')
    (hcases : src.FoldsOver images n ∧ net' = net ∨ ¬ src.FoldsOver images n ∧
      Build.MadeOf ((src.faninNodes n).map fun k => (imageAt images k).node) net s.node net') :
    Traced src (before ++ [n]) (images.insert n s) net' := by
  have hext := hgrow.extends hwf
  have himages : ∀ m ∈ before, imageAt (images.insert n s) m = imageAt images m := fun m hm =>
    imageAt_insert_of_ne images s fun heq => hn (heq ▸ hm)
  have hfolds : ∀ m ∈ before ++ [n],
      src.FoldsOver (images.insert n s) m ↔ src.FoldsOver images m := by
    intro m hm
    refine foldsOver_congr fun k hk => himages k ?_
    rcases List.mem_append.mp hm with hm | hm
    · exact hclosed m hm k hk
    · exact hfanins k (List.mem_singleton.mp hm ▸ hk)
  refine ⟨?_, ?_⟩
  · intro m hm hgate' hnot k hk
    rw [hfolds m hm] at hnot
    rcases List.mem_append.mp hm with hm | hm
    · rw [himages m hm, himages k (hclosed m hm k hk)]
      have hreads := h.reads m hm hgate' hnot k hk
      exact (hext.reads_iff hreads.lt_size).mpr hreads
    · obtain rfl := List.mem_singleton.mp hm
      obtain ⟨-, hmade⟩ := hcases.resolve_left fun hfold => hnot hfold.1
      rw [imageAt_insert_self, himages k (hfanins k hk)]
      exact hmade.fanins.mem_iff.mpr (List.mem_map_of_mem hk)
  · intro k hk
    have hold : net.isGate k = true → ∃ m ∈ before ++ [n], src.isGate m = true ∧
        ¬ src.FoldsOver (images.insert n s) m ∧ (imageAt (images.insert n s) m).node = k := by
      intro hk
      obtain ⟨m, hm, hgate', hnot, hnode⟩ := h.origin k hk
      have hm' := List.mem_append_left [n] hm
      exact ⟨m, hm', hgate', mt (hfolds m hm').mp hnot, himages m hm ▸ hnode⟩
    rcases hcases with ⟨-, rfl⟩ | ⟨hnot, hmade⟩
    · exact hold hk
    · rcases hmade.fresh k hk with hk | rfl
      · exact hold hk
      · have hn' := List.mem_append_right before (List.mem_singleton_self n)
        exact ⟨n, hn', hgate, mt (hfolds n hn').mp hnot, by rw [imageAt_insert_self]⟩

/-- A gate is copied over the images of its fanins. -/
theorem copyNode_gate (hgate : src.isGate n = true)
    (hadmits : ∀ s ∈ src.fanins n, net.basis.Admits s)
    (hfound : ∀ s ∈ src.fanins n, (images[s.node]?).isSome) :
    copyNode src images n net =
      (images.insert n <$> Build.cloneNode src n ((src.fanins n).map (edgeAt images))) net := by
  obtain ⟨node, hnode, hkind⟩ := isGate_iff.mp hgate
  have hrun := mapM_edgeImage_eq hadmits hfound
  rw [fanins_eq hnode] at hrun ⊢
  rw [copyNode, Build.bind_run (Build.ask_run (node_eq hnode))]
  simp only [hkind]
  rw [Build.bind_run hrun]
  rfl

theorem copyNode_constant {node : Node} (hnode : src.nodes[n]? = some node) {v : Bool}
    (hkind : node.kind = .constant v) :
    copyNode src images n net = .ok (images.insert n (net.basis.constant v), net) := by
  rw [copyNode, Build.bind_run (Build.ask_run (node_eq hnode))]
  simp only [hkind]
  rfl

theorem copyNode_input (h : src.isInput n = true) :
    copyNode src images n net = .ok (images, net) := by
  obtain ⟨node, hnode, hkind⟩ := kindIs_iff.mp h
  rw [copyNode, Build.bind_run (Build.ask_run (node_eq hnode))]
  cases hcase : node.kind <;> rw [hcase] at hkind <;> first | rfl | cases hkind

/-- Copying a node that is no gate builds nothing. -/
theorem copyNode_terminal (hn : n < src.size) (hterminal : src.isGate n = false)
    (h : copyNode src images n net = .ok (images', net')) :
    net' = net ∧ ∀ m ≠ n, imageAt images' m = imageAt images m := by
  obtain ⟨node, hnode⟩ := exists_node hn
  have hinput : node.kind.isInput = true →
      net' = net ∧ ∀ m ≠ n, imageAt images' m = imageAt images m := by
    intro hkind
    rw [copyNode_input (kindIs_iff.mpr ⟨node, hnode, hkind⟩)] at h
    obtain ⟨rfl, rfl⟩ := Prod.mk.inj (Except.ok.inj h)
    exact ⟨rfl, fun _ _ => rfl⟩
  rw [isGate, kindIs_eq hnode] at hterminal
  cases hkind : node.kind with
  | constant v =>
    rw [copyNode_constant hnode hkind] at h
    obtain ⟨rfl, rfl⟩ := Prod.mk.inj (Except.ok.inj h)
    exact ⟨rfl, fun m hm => imageAt_insert_of_ne images _ hm⟩
  | primaryInput => exact hinput (hkind ▸ rfl)
  | registerOutput => exact hinput (hkind ▸ rfl)
  | gate => cases hkind ▸ hterminal

/-- One more node is copied. -/
theorem Traced.copyNode (h : Traced src before images net) (hsrc : src.Assembled)
    (hnet : net.WellFormed) (hbasis : net.basis = src.basis) (hclosed : Closed src before)
    (hn : n < src.size) (hnew : n ∉ before) (hfanins : ∀ k, src.Reads n k → k ∈ before)
    (himages : ∀ m ∈ before, (images[m]?).isSome) (hgrow : net.GrowsTo net')
    (hrun : src.copyNode images n net = .ok (images', net')) :
    Traced src (before ++ [n]) images' net' := by
  have hwf := hsrc.built.wellFormed
  cases hgate : src.isGate n with
  | false =>
    obtain ⟨rfl, himages'⟩ := copyNode_terminal hn hgate hrun
    exact h.terminal hclosed hgate fun m hm => himages' m fun heq => hnew (heq ▸ hm)
  | true =>
    have hadmits : ∀ s ∈ src.fanins n, net.basis.Admits s := fun s hs =>
      hbasis ▸ hsrc.admits s (mem_edges_iff.mpr (.inl ⟨n, hs⟩))
    have hfound : ∀ s ∈ src.fanins n, (images[s.node]?).isSome := fun s hs =>
      himages _ (hfanins _ (reads_iff.mpr ⟨s, hs, rfl⟩))
    rw [copyNode_gate hgate hadmits hfound] at hrun
    obtain ⟨⟨r, last⟩, hclone, hpair⟩ := bind_eq_ok hrun
    obtain ⟨rfl, rfl⟩ := Prod.mk.inj (Except.ok.inj hpair)
    have hdrivers : ((src.fanins n).map (edgeAt images)).map Signal.node =
        (src.faninNodes n).map fun k => (imageAt images k).node := by
      rw [faninNodes, List.map_map, List.map_map]
      exact List.map_congr_left fun s _ => node_edgeAt images s
    have hne : (src.fanins n).map (edgeAt images) ≠ [] := by
      obtain ⟨node, hnode, hkind⟩ := isGate_iff.mp hgate
      rw [fanins_eq hnode, Ne, List.map_eq_nil_iff]
      exact (hwf.fits n node hnode hkind).nonempty
    have hcases := Build.cloneNode_cases hwf hnet hne hclone
    rw [hdrivers, hbasis] at hcases
    exact h.gate hclosed hgate hnew hfanins hnet hgrow hcases

/-- The copies of all live nodes are traced. -/
theorem copyNodes_traced (hsrc : src.Assembled) (hac : src.Acyclic) (hdest : dest.Proper)
    (hgates : ∀ k, dest.isGate k = false) (hbasis : dest.basis = src.basis) {cis : List Signal}
    (hlen : cis.length = src.numCis) (hcis : ∀ s ∈ cis, s.node < dest.size) :
    (src.copyNodes cis).Grows dest fun images net =>
      Copied src (src.fed dest cis) dest.size src.topoOrder images net ∧
        Traced src src.topoOrder images net := by
  have hwf := hsrc.built.wellFormed
  have hinv := hsrc.built.inventory
  apply Build.Grows.foldlM_prefix fun before images net =>
    Copied src (src.fed dest cis) dest.size before images net ∧ Traced src before images net
  · refine ⟨copied_start hac hinv hlen hcis, fun m hm => absurd hm List.not_mem_nil, ?_⟩
    intro k hk
    rw [hgates] at hk
    cases hk
  · rintro before n after images net horder hgrow ⟨hcopied, htraced⟩
    have hn : n ∈ src.topoOrder := horder ▸ List.mem_append_right _ List.mem_cons_self
    have hlt := lt_size_of_mem_topoOrder hwf hac hinv hn
    have hfanins : ∀ m, src.Reads n m → m ∈ before :=
      fun m hreads => mem_of_topoOrder_eq hwf hac hinv horder hreads
    have hnet := hgrow.proper hdest
    have hnetBasis := (hgrow.extends hdest.wellFormed).basis.trans hbasis
    obtain ⟨images', net', hrun, hgrow', hcopied'⟩ :=
      copyNode_grows hwf hac hinv hsrc.admits hnet hnetBasis hlt hfanins hcopied
    refine ⟨images', net', hrun, hgrow', hcopied', ?_⟩
    refine htraced.copyNode hsrc hnet.wellFormed hnetBasis (closed_of_topoOrder_eq hwf hac hinv
      horder) hlt (notMem_of_topoOrder_eq hinv horder) hfanins (fun m hm => ?_) hgrow' hrun
    obtain ⟨image, himage, -⟩ := hcopied.images m (.inr hm)
    rw [himage]
    rfl

/-! ### Clean-ups -/

/-- A clean-up copies the inputs and all live nodes and takes the images of the outputs. -/
theorem cleanup_run {cis : List Signal} {start mid : Network}
    (hinputs : copyInputs src (new src.basis) = .ok (cis, start)) (hlen : cis.length = src.numCis)
    (hcopy : src.copyNodes cis start = .ok (images, mid))
    (hadmits : ∀ s ∈ src.cos, mid.basis.Admits s)
    (hfound : ∀ s ∈ src.cos, (images[s.node]?).isSome)
    (hlt : ∀ s ∈ src.cos, (edgeAt images s).node < mid.size) :
    src.cleanup = .ok (mid.withOutputs (src.pos.toList.map (edgeAt images))
      (src.ris.toList.map (edgeAt images))) := by
  have houtputs := mapM_edgeImage_eq hadmits hfound
  have hsplit : src.cos.map (edgeAt images) =
      src.pos.toList.map (edgeAt images) ++ src.ris.toList.map (edgeAt images) := List.map_append
  have hsize : (src.pos.toList.map (edgeAt images)).length = src.pos.size := by simp
  rw [cleanup, Build.bind_run hinputs, Build.bind_run (copyInto_run hlen hcopy houtputs),
    addOutputs_run (List.forall_mem_map.mpr hlt), hsplit, List.take_left' hsize,
    List.drop_left' hsize]
  rfl

/-- The clean-up of `src` ends in `net'`, and the images of the live nodes are as given. -/
structure CleansTo (src : Network) (images : Images) (net' : Network) : Prop where
  cleanup : src.cleanup = .ok net'
  copied : ∃ cis start mid, copyInputs src (new src.basis) = .ok (cis, start) ∧
    src.copyNodes cis start = .ok (images, mid) ∧
    net' = mid.withOutputs (src.pos.toList.map (edgeAt images)) (src.ris.toList.map (edgeAt images))

theorem reads_withOutputs_iff {pos ris : List Signal} {k : NodeId} :
    (net.withOutputs pos ris).Reads m k ↔ net.Reads m k :=
  @reads_countReaders_iff net (net.withOutputs pos ris) (pos ++ ris) rfl m k

theorem Traced.withOutputs (h : Traced src before images net) (pos ris : List Signal) :
    Traced src before images (net.withOutputs pos ris) := by
  have hkinds : ∀ k, (net.withOutputs pos ris).isGate k = net.isGate k := fun k =>
    @kindIs_countReaders net (net.withOutputs pos ris) (pos ++ ris) rfl _ k
  refine ⟨?_, ?_⟩
  · exact fun m hm hgate hnot k hk => reads_withOutputs_iff.mpr (h.reads m hm hgate hnot k hk)
  · exact fun k hk => h.origin k (hkinds k ▸ hk)

/-- Every acyclic network has a clean-up, whose outputs are the images of its outputs and whose
gates are traced back. -/
theorem exists_cleansTo (hsrc : src.Assembled) (hac : src.Acyclic) :
    ∃ images net', src.CleansTo images net' ∧ Traced src src.topoOrder images net' ∧
      net'.cos = src.cos.map (edgeAt images) := by
  have hwf := hsrc.built.wellFormed
  have hinv := hsrc.built.inventory
  obtain ⟨start, hinputs, honly, hbasis, hpis, hros⟩ := copyInputs_run src src.basis
  have hlen : (start.cis.map Signal.ofNode).length = src.numCis := by
    rw [List.length_map, length_cis, numCis, numCis, hpis, hros]
  obtain ⟨images, mid, hcopy, hgrow, hcopied, htraced⟩ :=
    copyNodes_traced hsrc hac honly.proper honly.isGate_eq hbasis hlen honly.cis_lt
  have hext := hgrow.extends honly.proper.wellFormed
  have hadmits : ∀ s ∈ src.cos, mid.basis.Admits s := by
    intro s hs
    rw [hext.basis, hbasis]
    exact hsrc.admits s (mem_edges_iff.mpr (.inr hs))
  have himages : ∀ s ∈ src.cos, HasImage src (src.fed start _) images mid s.node := fun s hs =>
    hcopied.images _ (.inr (output_mem_topoOrder hwf hac hinv hs))
  have hfound : ∀ s ∈ src.cos, (images[s.node]?).isSome := by
    intro s hs
    obtain ⟨image, himage, -⟩ := himages s hs
    rw [himage]
    rfl
  have hlt : ∀ s ∈ src.cos, (edgeAt images s).node < mid.size := by
    intro s hs
    obtain ⟨image, himage, hdrives⟩ := himages s hs
    rw [node_edgeAt, imageAt_eq himage]
    exact hdrives.lt
  refine ⟨images, _, ⟨cleanup_run hinputs hlen hcopy hadmits hfound hlt, _, start, mid, hinputs,
    hcopy, rfl⟩, htraced.withOutputs _ _, ?_⟩
  simp [cos, withOutputs, hext.pos, hext.ris, honly.pos, honly.ris]

/-- Whatever a live node of the source stands for is below an output or below a gate that folded. -/
theorem live_or_below_folds (htraced : Traced src src.topoOrder images net')
    (hcos : net'.cos = src.cos.map (edgeAt images)) (hwf : src.WellFormed) (hac : src.Acyclic)
    (hinv : src.Inventory) (hlive : src.Live m) :
    net'.Live (imageAt images m).node ∨ ∃ f ∈ src.liveGates, src.FoldsOver images f ∧
      ∃ k, src.Reads f k ∧
        ReflTransGen net'.Reads (imageAt images k).node (imageAt images m).node := by
  obtain ⟨s, hs, hpath⟩ := hlive
  -- Along the path from the output, a gate that did not fold passes on where its image is.
  induction hpath with
  | refl =>
    refine .inl ⟨edgeAt images s, hcos ▸ List.mem_map_of_mem hs, ?_⟩
    rw [node_edgeAt]
  | @tail m k hpath hreads ih =>
    have hgate := hwf.isGate_of_reads hreads
    have hm : m ∈ src.liveGates := mem_liveGates.mpr ⟨hgate, s, hs, hpath⟩
    by_cases hfolds : src.FoldsOver images m
    · exact .inr ⟨m, hm, hfolds, k, hreads, .refl⟩
    · have hstep := htraced.reads m ((mem_topoOrder_iff hwf hac hinv).mpr (.inr hm)) hgate hfolds k
        hreads
      rcases ih with ⟨r, hr, hbelow⟩ | ⟨f, hf, hfolds', j, hj, hbelow⟩
      · exact .inl ⟨r, hr, hbelow.tail hstep⟩
      · exact .inr ⟨f, hf, hfolds', j, hj, hbelow.tail hstep⟩

/-- Every gate of the copy is the image of a live gate. -/
theorem Traced.origin_live (htraced : Traced src src.topoOrder images net') (hwf : src.WellFormed)
    (hac : src.Acyclic) (hinv : src.Inventory) {k : NodeId} (hk : net'.isGate k = true) :
    ∃ m ∈ src.liveGates, (imageAt images m).node = k := by
  obtain ⟨m, hm, hgate, -, rfl⟩ := htraced.origin k hk
  exact ⟨m, mem_liveGates_of_topoOrder hwf hac hinv hm hgate, rfl⟩

/-- Nothing dangles if no gate folds. -/
theorem live_of_not_foldsOver (htraced : Traced src src.topoOrder images net')
    (hcos : net'.cos = src.cos.map (edgeAt images)) (hwf : src.WellFormed) (hac : src.Acyclic)
    (hinv : src.Inventory) (hfolds : ∀ f ∈ src.liveGates, ¬ src.FoldsOver images f) {k : NodeId}
    (hk : net'.isGate k = true) : net'.Live k := by
  obtain ⟨m, hm, rfl⟩ := htraced.origin_live hwf hac hinv hk
  refine (live_or_below_folds htraced hcos hwf hac hinv (mem_liveGates.mp hm).2).resolve_right ?_
  rintro ⟨f, hf, hfolds', -⟩
  exact hfolds f hf hfolds'

/-! ### A reader that folds -/

/-- Two gates over three inputs that share the first one. -/
def sharedConjunction : Network :=
  (innerConjunction.appendGate [⟨1, false⟩, ⟨3, false⟩] Basis.gateLiteral).2

/-- The conjunction of the two gates. -/
def pairedConjunction : Network :=
  (sharedConjunction.appendGate [⟨4, false⟩, ⟨5, false⟩] Basis.gateLiteral).2

/-- Its gate drives an output. -/
def tappedPair : Network :=
  { pairedConjunction with
    nodes := countReader pairedConjunction.nodes 6
    pos := #[⟨6, false⟩] }

/-- The constant in place of the second gate. -/
def foldedConjunction : Network :=
  match tappedPair.substitute 5 ⟨0, false⟩ with
  | .ok net => net
  | .error _ => tappedPair

theorem assembled_tappedPair : tappedPair.Assembled := by
  have hinputs : threeInputs.Assembled :=
    (((Assembled.new .andInverter).construct .pi).construct .pi).construct .pi
  have hinner : innerConjunction.Assembled :=
    hinputs.construct (.conjunction rfl (by decide) (by decide) (by decide)
      Std.HashMap.getElem?_empty (by decide))
  have hshared : sharedConjunction.Assembled := by
    refine hinner.construct (.conjunction rfl (by decide) (by decide) (by decide) ?_ (by decide))
    refine Std.HashMap.getElem?_insert.trans ((if_neg (by decide)).trans ?_)
    exact Std.HashMap.getElem?_empty
  have hpaired : pairedConjunction.Assembled := by
    refine hshared.construct (.conjunction rfl (by decide) (by decide) (by decide) ?_ (by decide))
    refine Std.HashMap.getElem?_insert.trans ((if_neg (by decide)).trans ?_)
    refine Std.HashMap.getElem?_insert.trans ((if_neg (by decide)).trans ?_)
    exact Std.HashMap.getElem?_empty
  exact hpaired.construct
    (.po (fun hlut => absurd hlut (by decide)) (addPo_eq (s := ⟨6, false⟩) (by decide)))

theorem substituted_foldedConjunction :
    Substituted tappedPair 5 ⟨0, false⟩ foldedConjunction ∧ foldedConjunction.Assembled := by
  obtain ⟨net, hrun, hsub, -⟩ : ∃ net, tappedPair.substitute 5 ⟨0, false⟩ = .ok net ∧
      Substituted tappedPair 5 ⟨0, false⟩ net ∧ net.WellFormed :=
    exists_substitute assembled_tappedPair.built.wellFormed (by decide) (by decide) (by decide)
  have hnet : foldedConjunction = net := by
    rw [foldedConjunction, hrun]
  rw [hnet]
  exact ⟨hsub, assembled_tappedPair.edit (.substitute (fun _ => rfl) hrun)⟩

theorem fanins_foldedConjunction : foldedConjunction.fanins 4 = [⟨1, false⟩, ⟨2, false⟩] ∧
    foldedConjunction.fanins 6 = [⟨0, false⟩, ⟨4, false⟩] := by
  obtain ⟨hsub, -⟩ := substituted_foldedConjunction
  exact ⟨(hsub.fanins_eq 4).trans rfl, (hsub.fanins_eq 6).trans (Signal.sort_pair _ _)⟩

theorem topoOrder_foldedConjunction : foldedConjunction.topoOrder = [0, 1, 2, 3, 4, 6] := by
  obtain ⟨hsub, -⟩ := substituted_foldedConjunction
  obtain ⟨h4, h6⟩ := fanins_foldedConjunction
  have hconstants : foldedConjunction.nodesOf NodeKind.isConstant = [0] := by
    rw [nodesOf, nodeIds, hsub.size, funext (hsub.kindIs_eq NodeKind.isConstant)]
    decide
  have hcis : foldedConjunction.cis = [1, 2, 3] := by
    rw [cis, hsub.pis, hsub.ros]
    decide
  have hcos : foldedConjunction.cos = [⟨6, false⟩] := hsub.cos_eq.trans rfl
  have hsize : foldedConjunction.size = 7 := hsub.size
  rw [topoOrder_eq, terminals, hconstants, hcis, hcos, coneOrder, Walk.start, hsize]
  simp [walkFrom, Walk.seeAll, Walk.see, Array.replicate, List.replicate]
  simp [walk, Walk.isNew, Walk.see, faninNodes, h6, h4, Walk.emit]

theorem acyclic_foldedConjunction : foldedConjunction.Acyclic := by
  obtain ⟨hsub, -⟩ := substituted_foldedConjunction
  have hordered : tappedPair.Acyclic := acyclic_of_ordered (by decide)
  refine hsub.acyclic hordered fun hpath => ?_
  rcases hpath.cases_head with heq | ⟨n, hreads, -⟩
  · cases heq
  · have hnone : tappedPair.faninNodes 0 = [] := by decide
    rw [Reads, hnone] at hreads
    cases hreads

/-- The images of the constant and of the inputs. -/
def foldedImages : Images :=
  ((((∅ : Images).insert 1 ⟨1, false⟩).insert 2 ⟨2, false⟩).insert 3 ⟨3, false⟩).insert 0 ⟨0, false⟩

theorem getElem?_foldedImages {k : NodeId} (hk : k < 4) : foldedImages[k]? = some ⟨k, false⟩ := by
  interval_cases k <;> simp only [foldedImages, Std.HashMap.getElem?_insert] <;> rfl

/-- The inner gate is copied, and then its reader folds to the constant. -/
theorem copyNodes_foldedConjunction :
    foldedConjunction.copyNodes (threeInputs.cis.map .ofNode) threeInputs =
      .ok ((foldedImages.insert 4 ⟨4, false⟩).insert 6 ⟨0, false⟩, innerConjunction) := by
  obtain ⟨hsub, -⟩ := substituted_foldedConjunction
  obtain ⟨hfanins, hfanins'⟩ := fanins_foldedConjunction
  have hgate : ∀ n, tappedPair.isGate n = true → foldedConjunction.isGate n = true := fun n hn =>
    (hsub.kindIs_eq NodeKind.isGate n).trans hn
  have hinput : ∀ n, tappedPair.isInput n = true → foldedConjunction.isInput n = true := fun n hn =>
    (hsub.kindIs_eq NodeKind.isInput n).trans hn
  obtain ⟨zero, hzero, hkind, -⟩ := hsub.nodes 0 (constantNode false) rfl
  have hinner : foldedConjunction.copyNode foldedImages 4 threeInputs =
      .ok (foldedImages.insert 4 ⟨4, false⟩, innerConjunction) := by
    have hfound : foldedImages[1]? = some ⟨1, false⟩ ∧ foldedImages[2]? = some ⟨2, false⟩ :=
      ⟨getElem?_foldedImages (by decide), getElem?_foldedImages (by decide)⟩
    have hrun : Build.cloneNode foldedConjunction 4 [⟨1, false⟩, ⟨2, false⟩] threeInputs =
        .ok (⟨4, false⟩, innerConjunction) :=
      Build.map_run (createNode_eq_appendGate Std.HashMap.getElem?_empty (by decide))
    rw [copyNode_gate (hgate 4 (by decide)), hfanins]
    · simp only [List.map_cons, List.map_nil, edgeAt, imageAt, hfound]
      exact Build.map_run hrun
    · exact fun _ _ hbasis => Basis.noConfusion hbasis
    · simp only [hfanins, List.forall_mem_cons, hfound]
      simp
  have hreader : foldedConjunction.copyNode (foldedImages.insert 4 ⟨4, false⟩) 6 innerConjunction =
      .ok ((foldedImages.insert 4 ⟨4, false⟩).insert 6 ⟨0, false⟩, innerConjunction) := by
    have hfound : (foldedImages.insert 4 ⟨4, false⟩)[0]? = some ⟨0, false⟩ ∧
        (foldedImages.insert 4 ⟨4, false⟩)[4]? = some ⟨4, false⟩ :=
      ⟨Std.HashMap.getElem?_insert.trans (getElem?_foldedImages (by decide)),
        Std.HashMap.getElem?_insert_self⟩
    rw [copyNode_gate (hgate 6 (by decide)), hfanins']
    · simp only [List.map_cons, List.map_nil, edgeAt, imageAt, hfound]
      rfl
    · exact fun _ _ hbasis => Basis.noConfusion hbasis
    · simp only [hfanins', List.forall_mem_cons, hfound]
      simp
  have hcis : foldedConjunction.inputImages (threeInputs.cis.map .ofNode) =
      (((∅ : Images).insert 1 ⟨1, false⟩).insert 2 ⟨2, false⟩).insert 3 ⟨3, false⟩ := by
    rw [inputImages, cis, hsub.pis, hsub.ros]
    rfl
  rw [copyNodes, topoOrder_foldedConjunction, hcis,
    List.foldlM_cons, Build.bind_run (copyNode_constant hzero hkind),
    List.foldlM_cons, Build.bind_run (copyNode_input (hinput 1 (by decide))),
    List.foldlM_cons, Build.bind_run (copyNode_input (hinput 2 (by decide))),
    List.foldlM_cons, Build.bind_run (copyNode_input (hinput 3 (by decide))),
    List.foldlM_cons]
  refine (Build.bind_run hinner).trans ?_
  rw [List.foldlM_cons, Build.bind_run hreader]
  rfl

/-- What is left of the network: the inner gate, and an output that is constant. -/
theorem cleanup_foldedConjunction :
    foldedConjunction.cleanup = .ok (innerConjunction.withOutputs [⟨0, false⟩] []) := by
  obtain ⟨hsub, -⟩ := substituted_foldedConjunction
  have hinputs : copyInputs foldedConjunction (new foldedConjunction.basis) =
      .ok (threeInputs.cis.map .ofNode, threeInputs) := by
    rw [hsub.basis, copyInputs, hsub.pis, hsub.ros]
    rfl
  have hcos : foldedConjunction.cos = [⟨6, false⟩] := hsub.cos_eq.trans rfl
  have hlen : (threeInputs.cis.map Signal.ofNode).length = foldedConjunction.numCis := by
    rw [numCis, hsub.pis, hsub.ros]
    rfl
  have hpos : foldedConjunction.pos.toList = [⟨6, false⟩] := by
    rw [hsub.pos, Array.toList_map]
    rfl
  have hris : foldedConjunction.ris.toList = [] := by
    rw [hsub.ris, Array.toList_map]
    rfl
  have hcleanup := cleanup_run hinputs hlen copyNodes_foldedConjunction
  rw [hcos, hpos, hris, List.map_singleton, List.forall_mem_singleton, List.forall_mem_singleton,
    List.forall_mem_singleton, edgeAt, imageAt_insert_self] at hcleanup
  exact hcleanup (fun _ => rfl) (by simp) (by decide)

theorem not_live_innerGate : ¬ (innerConjunction.withOutputs [⟨0, false⟩] []).Live 4 := by
  rintro ⟨s, hs, hpath⟩
  obtain rfl : s = ⟨0, false⟩ := List.mem_singleton.mp hs
  rcases hpath.cases_head with heq | ⟨n, hreads, -⟩
  · cases heq
  · have hnone : (innerConjunction.withOutputs [⟨0, false⟩] []).faninNodes 0 = [] := by decide
    rw [Reads, hnone] at hreads
    cases hreads

/-! ### The theorem -/

/-- A clean-up of an acyclic network has no gate that its outputs do not depend on, but for those
below the fanins of a live gate that folded. Over lookup tables it has none. -/
theorem cleanup_dangles_below_folds (hsrc : src.Assembled) (hac : src.Acyclic) :
    ∃ images net', src.CleansTo images net' ∧
      (∀ n, net'.isGate n = true → net'.Live n ∨ ∃ f ∈ src.liveGates, src.FoldsOver images f ∧
        ∃ k, src.Reads f k ∧ ReflTransGen net'.Reads (imageAt images k).node n) ∧
      (src.basis = .lookupTable → ∀ n, net'.isGate n = true → net'.Live n) := by
  have hwf := hsrc.built.wellFormed
  have hinv := hsrc.built.inventory
  obtain ⟨images, net', hcleans, htraced, hcos⟩ := exists_cleansTo hsrc hac
  refine ⟨images, net', hcleans, ?_, ?_⟩
  · intro n hn
    obtain ⟨m, hm, rfl⟩ := htraced.origin_live hwf hac hinv hn
    exact live_or_below_folds htraced hcos hwf hac hinv (mem_liveGates.mp hm).2
  · intro hbasis n hn
    refine live_of_not_foldsOver htraced hcos hwf hac hinv (fun f _ => ?_) hn
    rw [FoldsOver, hbasis]
    exact not_false

/-- The inner gate, which the clean-up leaves without readers, is below a gate that folded. -/
theorem cleanup_dangles_below_foldedConjunction : ∃ images net',
    foldedConjunction.CleansTo images net' ∧ net'.isGate 4 = true ∧
      ∃ f ∈ foldedConjunction.liveGates, foldedConjunction.FoldsOver images f ∧
        ∃ k, foldedConjunction.Reads f k ∧ ReflTransGen net'.Reads (imageAt images k).node 4 := by
  obtain ⟨images, net', hcleans, hdangles, -⟩ := cleanup_dangles_below_folds
    substituted_foldedConjunction.2 acyclic_foldedConjunction
  obtain rfl := Except.ok.inj (cleanup_foldedConjunction.symm.trans hcleans.cleanup)
  exact ⟨images, _, hcleans, by decide, (hdangles 4 (by decide)).resolve_left not_live_innerGate⟩

/-- A clean-up can leave a gate dangling: the gate is copied before its only reader folds. -/
theorem cleanup_foldedConjunction_dangles :
    foldedConjunction.Assembled ∧ foldedConjunction.Acyclic ∧
      ∃ net', foldedConjunction.cleanup = .ok net' ∧ net'.isGate 4 = true ∧ ¬ net'.Live 4 :=
  ⟨substituted_foldedConjunction.2, acyclic_foldedConjunction, _, cleanup_foldedConjunction,
    by decide, not_live_innerGate⟩

end Network

end LogicSynthesis
