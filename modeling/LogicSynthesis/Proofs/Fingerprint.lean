import LogicSynthesis.Fingerprint
import LogicSynthesis.Proofs.Network.Compaction

/-!
# Fingerprints forget node numbers

The digest of a node is determined by what the node depends on. Where gates are symmetric their
fanins are sorted by digest first, so that digests do not change when a network is compacted and the
fanins are kept in another order. Nothing is assumed of the hash function, and of the order of
digests only that it is total.

## Main definitions

- `HashScheme.Ordered` — the order of digests is a total order
- `Network.HasDigest` — the digest of a node
- `Network.Digested` — the invariant: these nodes have their digests

## Main statements

- `ordered_bytesLe` — byte strings are ordered
- `HasDigest.unique` — a node has one digest
- `fingerprintWith_spec` — a fingerprint is made of the digests of the outputs
- `Compacts.hasDigest`, `Compacts.fingerprintWith_eq` — digests and fingerprints of compact networks
-/

namespace LogicSynthesis

namespace HashScheme

variable {δ : Type}

/-- The order of digests is a total order. -/
structure Ordered (scheme : HashScheme δ) : Prop where
  total : ∀ a b, (scheme.le a b || scheme.le b a) = true
  trans : ∀ a b c, scheme.le a b = true → scheme.le b c = true → scheme.le a c = true
  antisymm : ∀ a b, scheme.le a b = true → scheme.le b a = true → a = b

theorem bytesLe_cons {a b : UInt8} {as bs : List UInt8} :
    bytesLe (a :: as) (b :: bs) = true ↔ a < b ∨ a = b ∧ bytesLe as bs = true := by
  simp [bytesLe]

theorem bytesLe_total (as bs : List UInt8) : (bytesLe as bs || bytesLe bs as) = true := by
  induction as generalizing bs with
  | nil => rfl
  | cons a as ih =>
    cases bs with
    | nil => rfl
    | cons b bs =>
      rw [Bool.or_eq_true, bytesLe_cons, bytesLe_cons]
      by_cases heq : a = b
      · subst heq
        exact (Bool.or_eq_true _ _ ▸ ih bs).imp (fun h => .inr ⟨rfl, h⟩) fun h => .inr ⟨rfl, h⟩
      · exact (UInt8.lt_or_lt_of_ne heq).imp .inl .inl

theorem bytesLe_trans (as bs cs : List UInt8) (hab : bytesLe as bs = true)
    (hbc : bytesLe bs cs = true) : bytesLe as cs = true := by
  induction as generalizing bs cs with
  | nil => rfl
  | cons a as ih =>
    cases bs with
    | nil => cases hab
    | cons b bs =>
      cases cs with
      | nil => cases hbc
      | cons c cs =>
        rw [bytesLe_cons] at hab hbc ⊢
        rcases hab with hab | ⟨rfl, hab⟩
        · rcases hbc with hbc | ⟨rfl, -⟩
          · exact .inl (UInt8.lt_trans hab hbc)
          · exact .inl hab
        · exact hbc.imp id fun hbc => ⟨hbc.1, ih bs cs hab hbc.2⟩

theorem bytesLe_antisymm (as bs : List UInt8) (hab : bytesLe as bs = true)
    (hba : bytesLe bs as = true) : as = bs := by
  induction as generalizing bs with
  | nil =>
    cases bs with
    | nil => rfl
    | cons b bs => cases hba
  | cons a as ih =>
    cases bs with
    | nil => cases hab
    | cons b bs =>
      rw [bytesLe_cons] at hab hba
      rcases hab with hab | ⟨rfl, hab⟩
      · rcases hba with hba | ⟨rfl, -⟩
        · exact absurd hab (UInt8.lt_asymm hba)
        · exact absurd hab (UInt8.lt_irrefl _)
      · rcases hba with hba | ⟨-, hba⟩
        · exact absurd hba (UInt8.lt_irrefl _)
        · rw [ih bs hab hba]

/-- Byte strings are ordered. -/
theorem ordered_bytesLe (hash : List (MessagePiece (List UInt8)) → List UInt8) :
    Ordered ⟨hash, bytesLe⟩ := ⟨bytesLe_total, bytesLe_trans, bytesLe_antisymm⟩

end HashScheme

namespace Network

variable {δ : Type} {scheme : HashScheme δ} {net net' : Network} {n m : NodeId} {d d' : δ}

/-! ### Sorted fanins -/

theorem faninLe_iff {a b : FaninDigest δ} : faninLe scheme a b = true ↔
    scheme.le a.1 b.1 = true ∧ (scheme.le b.1 a.1 = true → a.2 = true → b.2 = true) := by
  rw [faninLe]
  cases scheme.le a.1 b.1 <;> cases scheme.le b.1 a.1 <;> cases a.2 <;> simp

theorem mergeSort_faninLe_congr (h : scheme.Ordered) {fanins fanins' : List (FaninDigest δ)}
    (hperm : fanins.Perm fanins') :
    fanins.mergeSort (faninLe scheme) = fanins'.mergeSort (faninLe scheme) := by
  have htotal : ∀ a b : FaninDigest δ, (faninLe scheme a b || faninLe scheme b a) = true := by
    intro a b
    rw [Bool.or_eq_true, faninLe_iff, faninLe_iff]
    have hle := h.total a.1 b.1
    rw [Bool.or_eq_true] at hle
    cases hab : scheme.le a.1 b.1 <;> cases hba : scheme.le b.1 a.1 <;> cases a.2 <;> cases b.2 <;>
      simp_all
  have htrans : ∀ a b c : FaninDigest δ, faninLe scheme a b = true → faninLe scheme b c = true →
      faninLe scheme a c = true := by
    intro a b c hab hbc
    rw [faninLe_iff] at hab hbc ⊢
    refine ⟨h.trans _ _ _ hab.1 hbc.1, fun hca ha => ?_⟩
    exact hbc.2 (h.trans _ _ _ hca hab.1) (hab.2 (h.trans _ _ _ hbc.1 hca) ha)
  have hantisymm : ∀ a b : FaninDigest δ, faninLe scheme a b = true → faninLe scheme b a = true →
      a = b := by
    intro a b hab hba
    rw [faninLe_iff] at hab hba
    refine Prod.ext (h.antisymm _ _ hab.1 hba.1) ?_
    rw [Bool.eq_iff_iff]
    exact ⟨hab.2 hba.1, hba.2 hab.1⟩
  have hsorted := ((List.mergeSort_perm fanins (faninLe scheme)).trans hperm).trans
    (List.mergeSort_perm fanins' (faninLe scheme)).symm
  exact hsorted.eq_of_pairwise (fun a b _ _ => hantisymm a b)
    (List.pairwise_mergeSort htrans htotal fanins) (List.pairwise_mergeSort htrans htotal fanins')

/-- The digests of the fanins in the order in which they are hashed. -/
def hashOrder (basis : Basis) (scheme : HashScheme δ) (fanins : List (FaninDigest δ)) :
    List (FaninDigest δ) :=
  if basis.isSymmetric then fanins.mergeSort (faninLe scheme) else fanins

/-! ### Digests of nodes -/

/-- `d` is the digest of node `n`. -/
inductive HasDigest (net : Network) (scheme : HashScheme δ) : NodeId → δ → Prop
  | input {i : Nat} {n : NodeId} (hn : net.cis[i]? = some n) :
      HasDigest net scheme n (scheme.hash (inputMessage (net.pis.size ≤ i) i))
  | constant {n : NodeId} {node : Node} {v : Bool} (hnode : net.nodes[n]? = some node)
      (hkind : node.kind = .constant v) :
      HasDigest net scheme n (scheme.hash (constantMessage v))
  | gate {n : NodeId} {fanins : List Signal} {literal : Nat} {t : TruthTable}
      {digest : NodeId → δ} (hgate : net.HasGate n fanins literal)
      (ht : net.functions.get? literal = some t)
      (hfanins : ∀ s ∈ fanins, HasDigest net scheme s.node (digest s.node)) :
      HasDigest net scheme n (scheme.hash (gateMessage t
        (hashOrder net.basis scheme (fanins.map fun s => (digest s.node, s.negated)))))

namespace HasDigest

/-- A node has one digest. -/
theorem unique (h : net.HasDigest scheme n d) (hinv : net.Inventory)
    (h' : net.HasDigest scheme n d') : d = d' := by
  have hkinds : ∀ {i n : Nat} {node : Node}, net.cis[i]? = some n → net.nodes[n]? = some node →
      node.kind.isInput = true := by
    intro i n node hn hnode
    have hinput := hinv.mem_cis.mp (List.mem_of_getElem? hn)
    rwa [isInput, kindIs_eq hnode] at hinput
  induction h generalizing d' with
  | @input i n hn =>
    cases h' with
    | @input j _ hn' =>
      obtain rfl := (List.getElem?_inj (List.getElem?_eq_some_iff.mp hn).1 hinv.nodup_cis).mp
        (hn.trans hn'.symm)
      rfl
    | constant hnode hkind => cases hkind ▸ hkinds hn hnode
    | gate hgate =>
      obtain ⟨fanout, hnode⟩ := hgate
      cases hkinds hn hnode
  | constant hnode hkind =>
    cases h' with
    | input hn => cases hkind ▸ hkinds hn hnode
    | constant hnode' hkind' =>
      obtain rfl := Option.some.inj (hnode.symm.trans hnode')
      rw [NodeKind.constant.inj (hkind.symm.trans hkind')]
    | gate hgate =>
      obtain ⟨fanout, hnode'⟩ := hgate
      obtain rfl := Option.some.inj (hnode.symm.trans hnode')
      cases hkind
  | @gate n fanins literal t digest hgate ht hfanins ih =>
    cases h' with
    | input hn =>
      obtain ⟨fanout, hnode⟩ := hgate
      cases hkinds hn hnode
    | constant hnode' hkind =>
      obtain ⟨fanout, hnode⟩ := hgate
      obtain rfl := Option.some.inj (hnode.symm.trans hnode')
      cases hkind
    | gate hgate' ht' hfanins' =>
      obtain ⟨rfl, rfl⟩ := hgate.inj hgate'
      obtain rfl := Option.some.inj (ht.symm.trans ht')
      rw [List.map_congr_left fun s hs => by rw [ih s hs (hfanins' s hs)]]

end HasDigest

/-- The nodes have their digests. -/
def Digested (net : Network) (scheme : HashScheme δ) (ns : List NodeId)
    (digests : Std.HashMap NodeId δ) : Prop :=
  ∀ n ∈ ns, ∃ d, digests[n]? = some d ∧ net.HasDigest scheme n d

namespace Digested

variable {ns : List NodeId} {digests : Std.HashMap NodeId δ}

theorem insert (h : net.Digested scheme ns digests) (hd : net.HasDigest scheme n d) :
    net.Digested scheme (ns ++ [n]) (digests.insert n d) := by
  intro m hm
  by_cases hne : n = m
  · subst hne
    exact ⟨d, Std.HashMap.getElem?_insert_self, hd⟩
  · rw [Std.HashMap.getElem?_insert, if_neg (by simpa using hne)]
    exact h m ((List.mem_append.mp hm).resolve_right fun heq =>
      hne (List.mem_singleton.mp heq).symm)

/-- The digests of signals are read off those of their drivers. -/
theorem exists_mapM_digestOf (h : net.Digested scheme ns digests) {signals : List Signal}
    (hns : ∀ s ∈ signals, s.node ∈ ns) : ∃ digest : NodeId → δ,
      (∀ s ∈ signals, net.HasDigest scheme s.node (digest s.node)) ∧
        (signals.mapM fun s => (digestOf digests s.node >>= fun d => pure (d, s.negated) :
          Except Fault (FaninDigest δ))) =
            .ok (signals.map fun s => (digest s.node, s.negated)) := by
  -- The default is never read.
  refine ⟨fun n => (digests[n]?).getD (scheme.hash []), fun s hs => ?_, mapM_eq_ok fun s hs => ?_⟩
  · obtain ⟨d, hfound, hd⟩ := h s.node (hns s hs)
    show net.HasDigest scheme s.node ((digests[s.node]?).getD _)
    rw [hfound]
    exact hd
  · obtain ⟨d, hfound, -⟩ := h s.node (hns s hs)
    show _ = Except.ok ((digests[s.node]?).getD _, s.negated)
    rw [digestOf, hfound]
    rfl

/-- The digest of a constant or a gate is found from those of its fanins. -/
theorem exists_nodeDigest (h : net.Digested scheme ns digests) (hwf : net.WellFormed)
    (hinv : net.Inventory) (hn : n < net.size) (hcis : n ∉ net.cis)
    (hfanins : ∀ m, net.Reads n m → m ∈ ns) :
    ∃ d, net.nodeDigest scheme digests n = .ok d ∧ net.HasDigest scheme n d := by
  obtain ⟨node, hnode⟩ := exists_node hn
  have hinput : node.kind.isInput ≠ true := fun hkind =>
    hcis (hinv.mem_cis.mpr (kindIs_iff.mpr ⟨node, hnode, hkind⟩))
  rw [nodeDigest, node_eq hnode, ok_bind]
  cases hkind : node.kind with
  | constant v => exact ⟨_, rfl, .constant hnode hkind⟩
  | primaryInput => exact absurd (hkind ▸ rfl) hinput
  | registerOutput => exact absurd (hkind ▸ rfl) hinput
  | gate =>
    have hgate := hasGate_of_node hnode hkind
    obtain ⟨t, ht, -⟩ := (hgate.fits hwf).function
    obtain ⟨digest, hdigest, hrun⟩ := h.exists_mapM_digestOf fun s hs =>
      hfanins s.node (hgate.reads_iff.mpr ⟨s, hs, rfl⟩)
    refine ⟨_, ?_, .gate hgate ht hdigest⟩
    simp only [hrun, ok_bind, FunctionCache.get_eq_ok.mpr ht]
    rfl

end Digested

theorem digested_inputDigests (net : Network) (scheme : HashScheme δ) :
    net.Digested scheme net.cis (net.inputDigests scheme) := by
  have hgen : ∀ (pairs : List (NodeId × Nat)) (ns : List NodeId) (digests : Std.HashMap NodeId δ),
      (∀ p ∈ pairs, net.cis[p.2]? = some p.1) → net.Digested scheme ns digests →
        net.Digested scheme (ns ++ pairs.map Prod.fst) (pairs.foldl (fun digests p =>
          digests.insert p.1 (scheme.hash (inputMessage (net.pis.size ≤ p.2) p.2))) digests) := by
    intro pairs
    induction pairs with
    | nil => exact fun ns digests _ h => by rwa [List.map_nil, List.append_nil]
    | cons p pairs ih =>
      intro ns digests hpairs h
      obtain ⟨hp, hpairs⟩ := List.forall_mem_cons.mp hpairs
      have hstep := ih (ns ++ [p.1]) _ hpairs (h.insert (.input hp))
      rwa [List.append_assoc] at hstep
  have hall := hgen net.cis.zipIdx [] ∅ (fun p hp => List.mem_zipIdx_iff_getElem?.mp hp)
    fun n hn => absurd hn List.not_mem_nil
  rwa [List.nil_append, List.zipIdx_map_fst] at hall

/-- A fingerprint is made of the digests of the outputs. -/
theorem fingerprintWith_spec (scheme : HashScheme δ) (hwf : net.WellFormed) (hac : net.Acyclic)
    (hinv : net.Inventory) : ∃ digest : NodeId → δ,
      (∀ s ∈ net.cos, net.HasDigest scheme s.node (digest s.node)) ∧
        net.fingerprintWith scheme = .ok (scheme.hash
          (net.networkMessage (net.cos.map fun s => (digest s.node, s.negated)))) := by
  have hloop : Ends Never ((net.coneOrder net.cis (net.cos.map Signal.node)).foldlM
      (fun digests n => (net.nodeDigest scheme digests n >>= fun d => pure (digests.insert n d) :
        Except Fault (Std.HashMap NodeId δ))) (net.inputDigests scheme))
      (net.Digested scheme (net.cis ++ net.coneOrder net.cis (net.cos.map Signal.node))) := by
    refine Ends.foldlM_prefix (fun before => net.Digested scheme (net.cis ++ before)) ?_ ?_
    · rw [List.append_nil]
      exact digested_inputDigests net scheme
    · intro before n after digests horder h
      obtain ⟨hcis, hn⟩ := mem_coneOrder (horder ▸ List.mem_append_right _ List.mem_cons_self)
      obtain ⟨d, hrun, hd⟩ := h.exists_nodeDigest hwf hinv hn hcis fun m hreads =>
        List.mem_append.mpr (mem_of_coneOrder_eq hwf hac horder hreads)
      rw [hrun, ok_bind, ← List.append_assoc]
      exact h.insert hd
  obtain ⟨digests, hrun, hdigests⟩ := ends_never_iff.mp hloop
  obtain ⟨digest, hdigest, houtputs⟩ := hdigests.exists_mapM_digestOf fun s hs =>
    List.mem_append.mpr (root_mem_coneOrder hwf hac (List.mem_map_of_mem hs) (hwf.output_lt hs))
  refine ⟨digest, hdigest, ?_⟩
  rw [fingerprintWith, hrun, ok_bind, houtputs]
  rfl

/-! ### Compact networks -/

/-- Symmetric gates hash their fanins in an order that does not depend on node numbers, and the
fanins of others keep theirs. -/
theorem hashOrder_arrange (hscheme : scheme.Ordered) (basis : Basis) {fanins : List Signal}
    {digest digest' : NodeId → δ}
    (hdigest : ∀ s ∈ fanins, digest' (net.place s.node) = digest s.node) :
    hashOrder basis scheme ((basis.arrange (fanins.map net.moved)).map fun s =>
      (digest' s.node, s.negated)) =
        hashOrder basis scheme (fanins.map fun s => (digest s.node, s.negated)) := by
  have hmoved : (fanins.map net.moved).map (fun s => (digest' s.node, s.negated)) =
      fanins.map fun s => (digest s.node, s.negated) := by
    rw [List.map_map]
    exact List.map_congr_left fun s hs => Prod.ext (hdigest s hs) rfl
  rw [hashOrder, hashOrder, ← hmoved]
  cases hsymmetric : basis.isSymmetric with
  | false => simp only [Basis.arrange, hsymmetric, Bool.false_eq_true, if_false]
  | true =>
    rw [if_pos rfl, if_pos rfl]
    exact mergeSort_faninLe_congr hscheme ((Basis.arrange_perm _ _).map _)

namespace Compacts

/-- Nodes keep their digests. -/
theorem hasDigest (h : Compacts net net') (hscheme : scheme.Ordered) (hwf : net.WellFormed)
    (hac : net.Acyclic) (hinv : net.Inventory) (hwf' : net'.WellFormed) (hinv' : net'.Inventory)
    (hd : net.HasDigest scheme n d) (hn : n ∈ net.topoOrder) :
    net'.HasDigest scheme (net.place n) d := by
  induction hd with
  | @input i n hcis =>
    rw [← h.pis]
    refine .input ?_
    rw [h.cis_eq hinv hinv', List.getElem?_map, hcis]
    rfl
  | @constant n node v hnode hkind =>
    obtain ⟨hvalue, -⟩ := constant_eq_ofNode hwf hinv hnode hkind
    obtain ⟨node', hnode', hkind'⟩ := hwf'.constants n v (h.basis ▸ hvalue)
    rw [place_of_lt hinv (List.getElem?_eq_some_iff.mp hvalue).1]
    exact .constant hnode' hkind'
  | @gate n fanins literal t digest hgate ht hfanins ih =>
    have hlisted := hgate.fanins_mem_topoOrder hwf hac hinv hn
    obtain ⟨literal', hgate', hfunction⟩ :=
      h.gate (mem_liveGates_of_topoOrder hwf hac hinv hn hgate.isGate) hgate
    -- What a place has for a digest is read off the node that stands there.
    let digest' : NodeId → δ := fun k => digest (net.topoOrder.getD k 0)
    have hdigest' : ∀ s ∈ fanins, digest' (net.place s.node) = digest s.node := fun s hs =>
      congrArg (digest ·.node) (unmoved_moved (hlisted s hs))
    rw [← hashOrder_arrange hscheme net.basis hdigest', ← h.basis]
    refine .gate (h.basis ▸ hgate') (hfunction.trans ht) fun s hs => ?_
    rw [h.basis, (Basis.arrange_perm _ _).mem_iff] at hs
    obtain ⟨r, hr, rfl⟩ := List.mem_map.mp hs
    exact (hdigest' r hr).symm ▸ ih r hr (hlisted r hr)

/-- A compact network has the fingerprint of the network that it was made of. -/
theorem exists_fingerprintWith (h : Compacts net net') (hscheme : scheme.Ordered)
    (hwf : net.WellFormed) (hac : net.Acyclic) (hinv : net.Inventory) (hwf' : net'.WellFormed)
    (hac' : net'.Acyclic) (hinv' : net'.Inventory) :
    ∃ d, net.fingerprintWith scheme = .ok d ∧ net'.fingerprintWith scheme = .ok d := by
  obtain ⟨digest, hdigest, hrun⟩ := fingerprintWith_spec scheme hwf hac hinv
  obtain ⟨digest', hdigest', hrun'⟩ := fingerprintWith_spec scheme hwf' hac' hinv'
  refine ⟨_, hrun, hrun'.trans ?_⟩
  have hcounts : net'.pos.size = net.pos.size ∧ net'.ris.size = net.ris.size := by
    refine ⟨?_, ?_⟩
    · simpa using congrArg List.length h.pos
    · simpa using congrArg List.length h.ris
  have houtputs : net'.cos.map (fun s => (digest' s.node, s.negated)) =
      net.cos.map fun s => (digest s.node, s.negated) := by
    rw [h.cos_eq, List.map_map]
    refine List.map_congr_left fun s hs => Prod.ext ?_ rfl
    have hmoved : net.moved s ∈ net'.cos := h.cos_eq ▸ List.mem_map_of_mem hs
    exact (hdigest' _ hmoved).unique hinv' (h.hasDigest hscheme hwf hac hinv hwf' hinv'
      (hdigest s hs) (output_mem_topoOrder hwf hac hinv hs))
  rw [houtputs, networkMessage, networkMessage, h.pis, hcounts.1, hcounts.2]

end Compacts

end Network

end LogicSynthesis
