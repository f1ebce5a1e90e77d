import LogicSynthesis.Proofs.Fingerprint.Messages

/-!
# Fingerprints identify output cones

Two nodes have the same unrolled cone when they are the same constant, inputs of one class at the
same position, or gates of one function whose fanins have the same cones and polarities, in order or
as multisets. When no two of the messages of two networks collide, a digest can be read back level
by level. So nodes have the same digest just when they have the same cone, and networks the same
fingerprint just when their outputs do.

## Main definitions

- `Network.SameCone` — nodes of the same unrolled cone
- `Network.SameOutputs` — as many inputs and outputs, and outputs of the same cones
- `Network.Hashed` — the messages that a fingerprint is made of
- `Network.Embeds` — the logic of the outputs is there under other numbers

## Main statements

- `HasDigest.sameCone`, `SameCone.digest_eq` — cones and digests
- `SameCone.value_eq` — nodes of the same cone have the same values
- `fingerprint_identifies_cones` — networks of the same fingerprint
-/

namespace LogicSynthesis

/-! ### Fanins in order, or as multisets -/

/-- Equal lists, up to their order where the gates are symmetric. -/
def Basis.Matches {α : Type} (basis : Basis) (as bs : List α) : Prop :=
  if basis.isSymmetric then as.Perm bs else as = bs

namespace Basis.Matches

variable {α β : Type} {basis : Basis} {as bs : List α}

theorem perm (h : basis.Matches as bs) : as.Perm bs := by
  unfold Matches at h
  split at h
  · exact h
  · exact .of_eq h

theorem map (h : basis.Matches as bs) (f : α → β) : basis.Matches (as.map f) (bs.map f) := by
  unfold Matches at h ⊢
  split
  · next hsymmetric =>
    rw [if_pos hsymmetric] at h
    exact h.map f
  · next hordered =>
    rw [if_neg hordered] at h
    rw [h]

/-- What matches images are images of what matches. -/
theorem exists_map {f : β → α} {cs : List β} (h : basis.Matches as (cs.map f)) :
    ∃ bs, basis.Matches bs cs ∧ as = bs.map f := by
  unfold Matches at h
  cases hsymmetric : basis.isSymmetric with
  | true =>
    rw [hsymmetric, if_pos rfl] at h
    have hcomp : Relation.Comp (· = List.map f ·) List.Perm as cs := by
      rw [List.eq_map_comp_perm]
      exact h
    obtain ⟨bs, hbs, hperm⟩ := hcomp
    refine ⟨bs, ?_, hbs⟩
    rw [Matches, hsymmetric, if_pos rfl]
    exact hperm
  | false =>
    rw [hsymmetric, if_neg Bool.false_ne_true] at h
    refine ⟨cs, ?_, h⟩
    rw [Matches, hsymmetric, if_neg Bool.false_ne_true]

end Basis.Matches

namespace Network

open HashScheme (flatten)

variable {δ : Type} {scheme : HashScheme δ} {net net' : Network} {n n' : NodeId} {d d' : δ}

theorem hashOrder_perm (basis : Basis) (scheme : HashScheme δ) (fanins : List (FaninDigest δ)) :
    (hashOrder basis scheme fanins).Perm fanins := by
  unfold hashOrder
  split
  · exact List.mergeSort_perm _ _
  · exact .refl _

/-- Fanins are hashed in the same order just when they match. -/
theorem hashOrder_eq_iff (hscheme : scheme.Ordered) {basis : Basis}
    {fanins fanins' : List (FaninDigest δ)} :
    hashOrder basis scheme fanins = hashOrder basis scheme fanins' ↔
      basis.Matches fanins fanins' := by
  constructor
  · intro h
    have hperm := ((hashOrder_perm basis scheme fanins).symm.trans (.of_eq h)).trans
      (hashOrder_perm basis scheme fanins')
    rw [hashOrder, hashOrder] at h
    unfold Basis.Matches
    split
    · exact hperm
    · next hordered => rwa [if_neg hordered, if_neg hordered] at h
  · intro h
    rw [Basis.Matches] at h
    unfold hashOrder
    split
    · next hsymmetric =>
      rw [if_pos hsymmetric] at h
      exact mergeSort_faninLe_congr hscheme h
    · next hordered => rwa [if_neg hordered] at h

/-! ### Unrolled cones -/

/-- The nodes have the same unrolled cone. The pairs say which fanins belong together. -/
inductive SameCone (net net' : Network) : NodeId → NodeId → Prop
  | constant {n n' : NodeId} {node node' : Node} {v : Bool} (hnode : net.nodes[n]? = some node)
      (hkind : node.kind = .constant v) (hnode' : net'.nodes[n']? = some node')
      (hkind' : node'.kind = .constant v) : SameCone net net' n n'
  | input {i : Nat} {n n' : NodeId} (hn : net.cis[i]? = some n) (hn' : net'.cis[i]? = some n')
      (hclass : i < net.pis.size ↔ i < net'.pis.size) : SameCone net net' n n'
  | gate {n n' : NodeId} {fanins fanins' : List Signal} {literal literal' : Nat} {t : TruthTable}
      {pairs : List (Signal × Signal)} (hgate : net.HasGate n fanins literal)
      (hgate' : net'.HasGate n' fanins' literal') (ht : net.functions.get? literal = some t)
      (ht' : net'.functions.get? literal' = some t) (hfst : pairs.map Prod.fst = fanins)
      (hsnd : net.basis.Matches (pairs.map Prod.snd) fanins')
      (hpolarity : ∀ p ∈ pairs, p.1.negated = p.2.negated)
      (hcones : ∀ p ∈ pairs, SameCone net net' p.1.node p.2.node) : SameCone net net' n n'

/-- As many inputs and outputs, and the outputs have the same polarities and cones. -/
structure SameOutputs (net net' : Network) : Prop where
  pis : net'.pis.size = net.pis.size
  pos : net'.pos.size = net.pos.size
  ris : net'.ris.size = net.ris.size
  cones : List.Forall₂ (fun s s' => s.negated = s'.negated ∧ net.SameCone net' s.node s'.node)
    net.cos net'.cos

/-- An input has the value at its position. -/
theorem value_of_cis (hinv : net.Inventory) (hac : net.Acyclic) (values : List Bool) {i : Nat}
    (h : net.cis[i]? = some n) : net.value (net.assign values) n = (values[i]?).getD false := by
  obtain ⟨hi, rfl⟩ := List.getElem?_eq_some_iff.mp h
  rw [value_of_input hac (hinv.mem_cis.mp (List.getElem_mem hi)), assign_getElem hinv.nodup_cis]

/-- Nodes of the same cone have the same values when inputs at the same position do. -/
theorem SameCone.value_eq (h : net.SameCone net' n n') (hnet : net.Built) (hac : net.Acyclic)
    (hnet' : net'.Built) (hac' : net'.Acyclic) (values : List Bool) :
    net.value (net.assign values) n = net'.value (net'.assign values) n' := by
  induction h with
  | constant hnode hkind hnode' hkind' =>
    rw [value_of_constant hac hnode hkind, value_of_constant hac' hnode' hkind']
  | input hn hn' =>
    rw [value_of_cis hnet.inventory hac values hn, value_of_cis hnet'.inventory hac' values hn']
  | @gate n n' fanins fanins' literal literal' t pairs hgate hgate' ht ht' hfst hsnd hpolarity
      hcones ih =>
    obtain ⟨fanout, hnode⟩ := hgate
    obtain ⟨fanout', hnode'⟩ := hgate'
    have hmatches : net.basis.Matches (fanins.map (net.signalValue (net.assign values)))
        (fanins'.map (net'.signalValue (net'.assign values))) := by
      have hpairs : fanins.map (net.signalValue (net.assign values)) =
          (pairs.map Prod.snd).map (net'.signalValue (net'.assign values)) := by
        rw [← hfst, List.map_map, List.map_map]
        refine List.map_congr_left fun p hp => ?_
        show (_ ^^ _) = (_ ^^ _)
        rw [ih p hp, hpolarity p hp]
      rw [hpairs]
      exact hsnd.map _
    rw [value_of_gate hac hnode rfl, value_of_gate hac' hnode' rfl]
    simp only [functionOf, ht, ht', Option.getD_some]
    cases hsymmetric : net.basis.isSymmetric with
    | false =>
      rw [Basis.Matches, hsymmetric, if_neg Bool.false_ne_true] at hmatches
      rw [hmatches]
    | true =>
      obtain ⟨u, hu⟩ := Basis.isSymmetric_iff.mp hsymmetric
      obtain ⟨hfunction, hvars⟩ := hnet.wellFormed.functionOf_eq hu hnode rfl
      obtain rfl : t = u := by simpa only [functionOf, ht, Option.getD_some] using hfunction
      exact bit_gateFunction_perm hu (by rw [List.length_map, hvars]) hmatches.perm

/-- Outputs of the same cones have the same functions. -/
theorem SameOutputs.response_eq (h : net.SameOutputs net') (hnet : net.Built) (hac : net.Acyclic)
    (hnet' : net'.Built) (hac' : net'.Acyclic) (values : List Bool) :
    net'.response values = net.response values := by
  have hvalues : net.cos.map (net.signalValue (net.assign values)) =
      net'.cos.map (net'.signalValue (net'.assign values)) := by
    rw [← List.forall₂_eq_eq_eq, List.forall₂_map_left_iff, List.forall₂_map_right_iff]
    refine h.cones.imp fun s s' hs => ?_
    show (_ ^^ _) = (_ ^^ _)
    rw [hs.1, hs.2.value_eq hnet hac hnet' hac' values]
  exact hvalues.symm

/-! ### From cones to digests -/

/-- The digest of a gate. -/
theorem HasDigest.of_hasGate (hinv : net.Inventory) {fanins : List Signal} {literal : Nat}
    {t : TruthTable} (hgate : net.HasGate n fanins literal)
    (ht : net.functions.get? literal = some t) (h : net.HasDigest scheme n d) :
    ∃ digest : NodeId → δ, (∀ s ∈ fanins, net.HasDigest scheme s.node (digest s.node)) ∧
      d = scheme.hash (gateMessage t
        (hashOrder net.basis scheme (fanins.map fun s => (digest s.node, s.negated)))) := by
  obtain ⟨fanout, hnode⟩ := id hgate
  cases h with
  | input hn =>
    have hinput := hinv.mem_cis.mp (List.mem_of_getElem? hn)
    rw [isInput, kindIs_eq hnode] at hinput
    cases hinput
  | constant hnode' hkind =>
    obtain rfl := Option.some.inj (hnode.symm.trans hnode')
    cases hkind
  | gate hgate' ht' hfanins =>
    obtain ⟨rfl, rfl⟩ := hgate.inj hgate'
    obtain rfl := Option.some.inj (ht.symm.trans ht')
    exact ⟨_, hfanins, rfl⟩

/-- Nodes of the same cone have the same digest. -/
theorem SameCone.digest_eq (h : net.SameCone net' n n') (hscheme : scheme.Ordered)
    (hinv : net.Inventory) (hinv' : net'.Inventory) (hbasis : net'.basis = net.basis)
    (hd : net.HasDigest scheme n d) (hd' : net'.HasDigest scheme n' d') : d = d' := by
  induction h generalizing d d' with
  | constant hnode hkind hnode' hkind' =>
    rw [hd.unique hinv (.constant hnode hkind), hd'.unique hinv' (.constant hnode' hkind')]
  | input hn hn' hclass =>
    rw [hd.unique hinv (.input hn), hd'.unique hinv' (.input hn')]
    simp only [← Nat.not_lt, hclass]
  | @gate n n' fanins fanins' literal literal' t pairs hgate hgate' ht ht' hfst hsnd hpolarity
      hcones ih =>
    obtain ⟨digest, hdigest, rfl⟩ := hd.of_hasGate hinv hgate ht
    obtain ⟨digest', hdigest', rfl⟩ := hd'.of_hasGate hinv' hgate' ht'
    have hpairs : fanins.map (fun s => (digest s.node, s.negated)) =
        (pairs.map Prod.snd).map fun s => (digest' s.node, s.negated) := by
      rw [← hfst, List.map_map, List.map_map]
      refine List.map_congr_left fun p hp => Prod.ext ?_ (hpolarity p hp)
      refine ih p hp (hdigest p.1 (hfst ▸ List.mem_map_of_mem hp)) (hdigest' p.2 ?_)
      exact hsnd.perm.mem_iff.mp (List.mem_map_of_mem hp)
    rw [hbasis, hpairs, (hashOrder_eq_iff hscheme).mpr (hsnd.map _)]

/-! ### From digests to cones -/

/-- The message is hashed for the node. -/
inductive HasMessage (net : Network) (scheme : HashScheme δ) :
    NodeId → List (MessagePiece δ) → Prop
  | input {i : Nat} {n : NodeId} (hn : net.cis[i]? = some n) :
      HasMessage net scheme n (inputMessage (net.pis.size ≤ i) i)
  | constant {n : NodeId} {node : Node} {v : Bool} (hnode : net.nodes[n]? = some node)
      (hkind : node.kind = .constant v) : HasMessage net scheme n (constantMessage v)
  | gate {n : NodeId} {fanins : List Signal} {literal : Nat} {t : TruthTable}
      {digest : NodeId → δ} (hgate : net.HasGate n fanins literal)
      (ht : net.functions.get? literal = some t)
      (hfanins : ∀ s ∈ fanins, net.HasDigest scheme s.node (digest s.node)) :
      HasMessage net scheme n (gateMessage t
        (hashOrder net.basis scheme (fanins.map fun s => (digest s.node, s.negated))))

/-- The byte strings that are hashed for the nodes of a network and for the network itself. -/
def Hashed (net : Network) (hash : List UInt8 → List UInt8) : Set (List UInt8) :=
  fun bytes => (∃ n message, net.HasMessage (.ofBytes hash) n message ∧ bytes = flatten message) ∨
    ∃ digest : NodeId → List UInt8,
      (∀ s ∈ net.cos, net.HasDigest (.ofBytes hash) s.node (digest s.node)) ∧
        bytes = flatten (net.networkMessage (net.cos.map fun s => (digest s.node, s.negated)))

theorem HasMessage.hashed {hash : List UInt8 → List UInt8}
    {message : List (MessagePiece (List UInt8))}
    (h : net.HasMessage (.ofBytes hash) n message) : flatten message ∈ net.Hashed hash :=
  .inl ⟨n, message, h, rfl⟩

section Decoding

variable {hash : List UInt8 → List UInt8}

/-! The messages of different kinds of nodes begin with different bytes. -/

theorem inputMessage_ne_constantMessage (isRegister : Bool) (i : Nat) (v : Bool) :
    flatten (inputMessage isRegister i) ≠ flatten (constantMessage v) := by
  intro h
  rw [flatten_inputMessage, flatten_constantMessage] at h
  exact absurd (List.cons.inj h).1 (by decide)

theorem inputMessage_ne_gateMessage (isRegister : Bool) (i : Nat) (t : TruthTable)
    (fanins : List (FaninDigest (List UInt8))) :
    flatten (inputMessage isRegister i) ≠ flatten (gateMessage t fanins) := by
  intro h
  rw [flatten_inputMessage, flatten_gateMessage] at h
  exact absurd (List.cons.inj h).1 (by decide)

theorem constantMessage_ne_gateMessage (v : Bool) (t : TruthTable)
    (fanins : List (FaninDigest (List UInt8))) :
    flatten (constantMessage v) ≠ flatten (gateMessage t fanins) := by
  intro h
  rw [flatten_constantMessage, flatten_gateMessage] at h
  exact absurd (List.cons.inj h).1 (by decide)

theorem CountsFit.position_lt (h : net.CountsFit) {i : Nat} (hn : net.cis[i]? = some n) :
    i < 2 ^ 64 := by
  have hi := (List.getElem?_eq_some_iff.mp hn).1
  rw [length_cis] at hi
  exact hi.trans h.1

/-- The number of fanins of a gate is told by its function. -/
theorem HasGate.numVars_eq_length_hashOrder (hwf : net.WellFormed) {fanins : List Signal}
    {literal : Nat} {t : TruthTable} (hgate : net.HasGate n fanins literal)
    (ht : net.functions.get? literal = some t) (digest : NodeId → δ) :
    t.numVars = (hashOrder net.basis scheme
      (fanins.map fun s => (digest s.node, s.negated))).length := by
  obtain ⟨u, hu, hnum⟩ := (hgate.fits hwf).function
  obtain rfl := Option.some.inj (ht.symm.trans hu)
  rw [(hashOrder_perm _ _ _).length_eq, List.length_map, hnum]

theorem HasDigest.length (hlen : ∀ bytes, (hash bytes).length = 32) {d : List UInt8}
    (h : net.HasDigest (.ofBytes hash) n d) : d.length = 32 := by
  cases h <;> exact hlen _

/-- The digests of fanins in the order in which they are hashed have the length of digests. -/
theorem length_hashOrder (hlen : ∀ bytes, (hash bytes).length = 32) {fanins : List Signal}
    {digest : NodeId → List UInt8}
    (hdigest : ∀ s ∈ fanins, net.HasDigest (.ofBytes hash) s.node (digest s.node)) :
    ∀ f ∈ hashOrder net.basis (.ofBytes hash) (fanins.map fun s => (digest s.node, s.negated)),
      f.1.length = 32 := by
  intro f hf
  obtain ⟨s, hs, rfl⟩ := List.mem_map.mp ((hashOrder_perm _ _ _).mem_iff.mp hf)
  exact (hdigest s hs).length hlen

/-- So have those of the outputs. -/
theorem length_outputs (hlen : ∀ bytes, (hash bytes).length = 32) {digest : NodeId → List UInt8}
    (hdigest : ∀ s ∈ net.cos, net.HasDigest (.ofBytes hash) s.node (digest s.node)) :
    ∀ f ∈ net.cos.map (fun s => (digest s.node, s.negated)), f.1.length = 32 := by
  intro f hf
  obtain ⟨s, hs, rfl⟩ := List.mem_map.mp hf
  exact (hdigest s hs).length hlen

/-- Fanins whose digests match belong together in pairs. -/
theorem exists_pairs {basis : Basis} {fanins fanins' : List Signal}
    {digest digest' : NodeId → δ}
    (h : basis.Matches (fanins.map fun s => (digest s.node, s.negated))
      (fanins'.map fun s => (digest' s.node, s.negated))) :
    ∃ pairs : List (Signal × Signal), pairs.map Prod.fst = fanins ∧
      basis.Matches (pairs.map Prod.snd) fanins' ∧
      ∀ p ∈ pairs, p.1.negated = p.2.negated ∧ digest p.1.node = digest' p.2.node := by
  obtain ⟨partners, hpartners, heq⟩ := h.exists_map
  have hforall : List.Forall₂ (fun s s' : Signal => s.negated = s'.negated ∧
      digest s.node = digest' s'.node) fanins partners := by
    have hmap : List.Forall₂ (· = ·) (fanins.map fun s => (digest s.node, s.negated))
        (partners.map fun s => (digest' s.node, s.negated)) := by
      rw [List.forall₂_eq_eq_eq]
      exact heq
    rw [List.forall₂_map_left_iff, List.forall₂_map_right_iff] at hmap
    exact hmap.imp fun s s' hs => ⟨congrArg Prod.snd hs, congrArg Prod.fst hs⟩
  obtain ⟨hlength, hzip⟩ := List.forall₂_iff_zip.mp hforall
  refine ⟨fanins.zip partners, List.map_fst_zip hlength.le, ?_, ?_⟩
  · rwa [List.map_snd_zip hlength.ge]
  · rintro ⟨s, s'⟩ hp
    exact hzip hp

variable (hnet : net.Built) (hnet' : net'.Built) (hbasis : net'.basis = net.basis)
  (hfit : net.CountsFit) (hfit' : net'.CountsFit) (hlen : ∀ bytes, (hash bytes).length = 32)
  (hinj : Set.InjOn hash (net.Hashed hash ∪ net'.Hashed hash))

include hnet hnet' hbasis hfit hfit' hlen hinj

/-- Nodes of the same digest have the same cone. -/
theorem HasDigest.sameCone {d d' : List UInt8} (hd : net.HasDigest (.ofBytes hash) n d)
    (hd' : net'.HasDigest (.ofBytes hash) n' d') (heq : d = d') : net.SameCone net' n n' := by
  have hread : ∀ {k k' : NodeId} {m m' : List (MessagePiece (List UInt8))},
      net.HasMessage (.ofBytes hash) k m → net'.HasMessage (.ofBytes hash) k' m' →
        hash (flatten m) = hash (flatten m') → flatten m = flatten m' :=
    fun hm hm' => hinj (.inl hm.hashed) (.inr hm'.hashed)
  -- The first bytes tell that both nodes are of one kind.
  induction hd generalizing n' d' with
  | input hn =>
    cases hd' with
    | input hn' =>
      obtain ⟨hclass, rfl⟩ := inputMessage_inj (hfit.position_lt hn) (hfit'.position_lt hn')
        (hread (.input hn) (.input hn') heq)
      rw [decide_eq_decide, ← Nat.not_lt, ← Nat.not_lt, not_iff_not] at hclass
      exact .input hn hn' hclass
    | constant hnode' hkind' =>
      exact absurd (hread (.input hn) (.constant hnode' hkind') heq)
        (inputMessage_ne_constantMessage _ _ _)
    | gate hgate' ht' hfanins' =>
      exact absurd (hread (.input hn) (.gate hgate' ht' hfanins') heq)
        (inputMessage_ne_gateMessage _ _ _ _)
  | constant hnode hkind =>
    cases hd' with
    | input hn' =>
      exact absurd (hread (.constant hnode hkind) (.input hn') heq)
        (inputMessage_ne_constantMessage _ _ _).symm
    | constant hnode' hkind' =>
      obtain rfl := constantMessage_inj
        (hread (.constant hnode hkind) (.constant hnode' hkind') heq)
      exact .constant hnode hkind hnode' hkind'
    | gate hgate' ht' hfanins' =>
      exact absurd (hread (.constant hnode hkind) (.gate hgate' ht' hfanins') heq)
        (constantMessage_ne_gateMessage _ _ _)
  | gate hgate ht hfanins ih =>
    cases hd' with
    | input hn' =>
      exact absurd (hread (.gate hgate ht hfanins) (.input hn') heq)
        (inputMessage_ne_gateMessage _ _ _ _).symm
    | constant hnode' hkind' =>
      exact absurd (hread (.gate hgate ht hfanins) (.constant hnode' hkind') heq)
        (constantMessage_ne_gateMessage _ _ _).symm
    | gate hgate' ht' hfanins' =>
      obtain ⟨rfl, horder⟩ := gateMessage_inj
        (hnet.wellFormed.functions.canonical_of_get? ht)
        (hnet'.wellFormed.functions.canonical_of_get? ht')
        (hgate.numVars_eq_length_hashOrder hnet.wellFormed ht _)
        (hgate'.numVars_eq_length_hashOrder hnet'.wellFormed ht' _)
        (length_hashOrder hlen hfanins) (length_hashOrder hlen hfanins')
        (hread (.gate hgate ht hfanins) (.gate hgate' ht' hfanins') heq)
      rw [hbasis, hashOrder_eq_iff (HashScheme.ordered_ofBytes hash)] at horder
      obtain ⟨pairs, hfst, hsnd, hpairs⟩ := exists_pairs horder
      refine .gate hgate hgate' ht ht' hfst hsnd (fun p hp => (hpairs p hp).1) fun p hp => ?_
      refine ih p.1 (hfst ▸ List.mem_map_of_mem hp) (hfanins' p.2 ?_) (hpairs p hp).2
      exact hsnd.perm.mem_iff.mp (List.mem_map_of_mem hp)

/-- Networks have the same digest just when their outputs have the same cones. -/
theorem hash_networkMessage_eq_iff {digest digest' : NodeId → List UInt8}
    (hdigest : ∀ s ∈ net.cos, net.HasDigest (.ofBytes hash) s.node (digest s.node))
    (hdigest' : ∀ s ∈ net'.cos, net'.HasDigest (.ofBytes hash) s.node (digest' s.node)) :
    hash (flatten (net.networkMessage (net.cos.map fun s => (digest s.node, s.negated)))) =
        hash (flatten (net'.networkMessage (net'.cos.map fun s => (digest' s.node, s.negated)))) ↔
      net.SameOutputs net' := by
  constructor
  · intro heq
    obtain ⟨⟨hpis, hpos, hris⟩, houtputs⟩ := networkMessage_inj hfit hfit'
      (length_outputs hlen hdigest) (length_outputs hlen hdigest')
      (hinj (.inl (.inr ⟨digest, hdigest, rfl⟩)) (.inr (.inr ⟨digest', hdigest', rfl⟩)) heq)
    refine ⟨hpis.symm, hpos.symm, hris.symm, ?_⟩
    rw [← List.forall₂_eq_eq_eq, List.forall₂_map_left_iff, List.forall₂_map_right_iff,
      List.forall₂_iff_zip] at houtputs
    refine List.forall₂_iff_zip.mpr ⟨houtputs.1, fun {s s'} hmem => ?_⟩
    have hsame := houtputs.2 hmem
    obtain ⟨hs, hs'⟩ := List.of_mem_zip hmem
    refine ⟨congrArg Prod.snd hsame, ?_⟩
    exact (hdigest s hs).sameCone hnet hnet' hbasis hfit hfit' hlen hinj (hdigest' s' hs')
      (congrArg Prod.fst hsame)
  · intro hsame
    have houtputs : net.cos.map (fun s => (digest s.node, s.negated)) =
        net'.cos.map fun s => (digest' s.node, s.negated) := by
      rw [← List.forall₂_eq_eq_eq, List.forall₂_map_left_iff, List.forall₂_map_right_iff,
        List.forall₂_iff_zip]
      obtain ⟨hcount, hcones⟩ := List.forall₂_iff_zip.mp hsame.cones
      refine ⟨hcount, fun {s s'} hmem => ?_⟩
      obtain ⟨hs, hs'⟩ := List.of_mem_zip hmem
      obtain ⟨hpolarity, hcone⟩ := hcones hmem
      refine Prod.ext ?_ hpolarity
      exact hcone.digest_eq (HashScheme.ordered_ofBytes hash) hnet.inventory hnet'.inventory hbasis
        (hdigest s hs) (hdigest' s' hs')
    rw [houtputs, networkMessage, networkMessage, hsame.pis, hsame.pos, hsame.ris]

end Decoding

/-! ### Networks -/

/-- `f` takes the logic that the outputs of `net` read to its numbers in `net'`, where there may be
more than that. -/
structure Embeds (net : Network) (f : NodeId → NodeId) (net' : Network) : Prop where
  pis : net'.pis.size = net.pis.size
  pos : net'.pos.size = net.pos.size
  ris : net'.ris.size = net.ris.size
  cis : ∀ (i : Nat) n, net.cis[i]? = some n → net'.cis[i]? = some (f n)
  cos : net'.cos = net.cos.map fun s => ⟨f s.node, s.negated⟩
  constant : ∀ n node v, net.Live n → net.nodes[n]? = some node → node.kind = .constant v →
    ∃ node', net'.nodes[f n]? = some node' ∧ node'.kind = .constant v
  gate : ∀ n fanins literal t, net.Live n → net.HasGate n fanins literal →
    net.functions.get? literal = some t → ∃ fanins' literal', net'.HasGate (f n) fanins' literal' ∧
      net'.functions.get? literal' = some t ∧
        net.basis.Matches (fanins.map fun s => ⟨f s.node, s.negated⟩) fanins'

theorem Embeds.sameOutputs {f : NodeId → NodeId} (h : net.Embeds f net') (hnet : net.Built)
    (hac : net.Acyclic) : net.SameOutputs net' := by
  have hwf := hnet.wellFormed
  have hcone : ∀ n, n < net.size → net.Live n → net.SameCone net' n (f n) := by
    intro n
    induction n using hac.induction with
    | _ n ih =>
      intro hn hlive
      obtain ⟨node, hnode⟩ := exists_node hn
      have hinput : node.kind.isInput = true → net.SameCone net' n (f n) := by
        intro hkind
        have hmem := hnet.inventory.mem_cis.mpr (kindIs_iff.mpr ⟨node, hnode, hkind⟩)
        obtain ⟨i, hi⟩ := List.getElem?_of_mem hmem
        exact .input hi (h.cis i n hi) (by rw [h.pis])
      cases hkind : node.kind with
      | constant v =>
        obtain ⟨node', hnode', hkind'⟩ := h.constant n node v hlive hnode hkind
        exact .constant hnode hkind hnode' hkind'
      | primaryInput => exact hinput (by rw [hkind]; rfl)
      | registerOutput => exact hinput (by rw [hkind]; rfl)
      | gate =>
        have hgate := hasGate_of_node hnode hkind
        obtain ⟨t, ht, -⟩ := (hgate.fits hwf).function
        obtain ⟨fanins', literal', hgate', ht', hmatches⟩ := h.gate n _ _ t hlive hgate ht
        let pairs : List (Signal × Signal) := node.fanins.map fun s => (s, ⟨f s.node, s.negated⟩)
        refine @SameCone.gate net net' n (f n) _ _ _ _ t pairs hgate hgate' ht ht' ?_ ?_ ?_ ?_
        · rw [List.map_map]
          exact List.map_id _
        · rwa [List.map_map]
        · intro p hp
          obtain ⟨s, -, rfl⟩ := List.mem_map.mp hp
          rfl
        · intro p hp
          obtain ⟨s, hs, rfl⟩ := List.mem_map.mp hp
          have hreads : net.Reads n s.node := hgate.reads_iff.mpr ⟨s, hs, rfl⟩
          obtain ⟨o, ho, hpath⟩ := hlive
          exact ih s.node hreads (hwf.reads_lt hreads) ⟨o, ho, hpath.tail hreads⟩
  refine ⟨h.pis, h.pos, h.ris, ?_⟩
  rw [h.cos, List.forall₂_map_right_iff, List.forall₂_same]
  exact fun s hs => ⟨rfl, hcone s.node (hwf.output_lt hs) ⟨s, hs, .refl⟩⟩

/-- Networks of one basis, under a hash function whose digests have 32 bytes and which has no
collision among the messages of the two. Their fingerprints are equal just when the numbers of
inputs and outputs are and the outputs have the same polarities and unrolled cones. Then the outputs
have the same functions. Node numbers, and what no output reads, do not matter. -/
theorem fingerprint_identifies_cones {hash : List UInt8 → List UInt8} (hnet : net.Built)
    (hac : net.Acyclic) (hnet' : net'.Built) (hac' : net'.Acyclic)
    (hbasis : net'.basis = net.basis) (hfit : net.CountsFit) (hfit' : net'.CountsFit)
    (hlen : ∀ bytes, (hash bytes).length = 32)
    (hinj : Set.InjOn hash (net.Hashed hash ∪ net'.Hashed hash)) :
    ∃ d d', net.fingerprintWith (.ofBytes hash) = .ok d ∧
      net'.fingerprintWith (.ofBytes hash) = .ok d' ∧ (d = d' ↔ net.SameOutputs net') ∧
      (d = d' → ∀ values, net'.response values = net.response values) ∧
      ∀ f, net.Embeds f net' → d = d' := by
  obtain ⟨digest, hdigest, hrun⟩ :=
    fingerprintWith_spec (.ofBytes hash) hnet.wellFormed hac hnet.inventory
  obtain ⟨digest', hdigest', hrun'⟩ :=
    fingerprintWith_spec (.ofBytes hash) hnet'.wellFormed hac' hnet'.inventory
  have hiff := hash_networkMessage_eq_iff hnet hnet' hbasis hfit hfit' hlen hinj hdigest hdigest'
  refine ⟨_, _, hrun, hrun', hiff, fun heq values => ?_, fun f hf => ?_⟩
  · exact (hiff.mp heq).response_eq hnet hac hnet' hac' values
  · exact hiff.mpr (hf.sameOutputs hnet hac)

/-- A gate that passes its one input on or complements it, as output. -/
def tableOutput (complement : Bool) : Network :=
  let inputs := (new .lookupTable).addPi.2
  let net := (inputs.appendGate [⟨2, false⟩] (FunctionCache.identityLiteral + complement.toNat)).2
  { net with
    nodes := countReader net.nodes 3
    pos := #[⟨3, false⟩] }

theorem get?_tableOutput (complement : Bool) : (tableOutput complement).functions.get?
    (FunctionCache.identityLiteral + complement.toNat) =
      some ((TruthTable.proj 1 0).withPolarity complement) := by
  have hfunctions : (tableOutput complement).functions = FunctionCache.base := rfl
  rw [hfunctions, FunctionCache.base_eq, FunctionCache.get?]
  cases complement <;> rfl

theorem built_tableOutput (complement : Bool) : (tableOutput complement).Built := by
  have hinputs : (new .lookupTable).addPi.2.Built := .addPi (.new _)
  refine .addPo (.gate hinputs ⟨List.cons_ne_nil _ _, fun h => absurd h (by decide), _,
    get?_tableOutput complement, ?_⟩ (createNode_eq_appendGate Std.HashMap.getElem?_empty ?_))
      (addPo_eq (s := ⟨3, false⟩) ?_)
  · cases complement <;> rfl
  · decide
  · show 3 < _
    cases complement <;> decide

theorem acyclic_tableOutput (complement : Bool) : (tableOutput complement).Acyclic :=
  acyclic_of_ordered (by cases complement <;> decide)

/-- The byte strings that are hashed for such networks. -/
def tableMessages (hash : List UInt8 → List UInt8) : List (List UInt8) :=
  [flatten (constantMessage false), flatten (constantMessage true), tableInput,
    tableGate hash false, tableGate hash true,
    flatten ((tableOutput false).networkMessage [(hash (tableGate hash false), false)]),
    flatten ((tableOutput true).networkMessage [(hash (tableGate hash true), false)])]
where
  tableInput := flatten (inputMessage false 0)
  tableGate (hash : List UInt8 → List UInt8) (complement : Bool) :=
    flatten (gateMessage ((TruthTable.proj 1 0).withPolarity complement)
      [(hash tableInput, false)])

theorem injOn_tableMessages : ∀ a ∈ tableMessages Blake3.hash, ∀ b ∈ tableMessages Blake3.hash,
    Blake3.hash a = Blake3.hash b → a = b := by decide +kernel

section TableOutput

variable (complement : Bool) {hash : List UInt8 → List UInt8} {n : NodeId}

theorem hasGate_tableOutput : (tableOutput complement).HasGate 3 [⟨2, false⟩]
    (FunctionCache.identityLiteral + complement.toNat) := ⟨1, by cases complement <;> rfl⟩

theorem eq_of_isGate_tableOutput (h : (tableOutput complement).isGate n = true) : n = 3 := by
  have hn : n < 4 := lt_size_of_kindIs h
  revert h
  revert n
  cases complement <;> decide

theorem hasDigest_tableOutput_input :
    (tableOutput complement).HasDigest (.ofBytes hash) 2 (hash tableMessages.tableInput) := by
  have hread : (tableOutput complement).cis[0]? = some 2 := by cases complement <;> rfl
  cases complement <;> exact .input hread

theorem hasDigest_tableOutput_gate : (tableOutput complement).HasDigest (.ofBytes hash) 3
    (hash (tableMessages.tableGate hash complement)) := by
  have hinput := @hasDigest_tableOutput_input complement hash
  have hgate := @HasDigest.gate _ _ _ 3 _ _ _ (fun _ => hash tableMessages.tableInput)
    (hasGate_tableOutput complement) (get?_tableOutput complement) (by simpa using hinput)
  cases complement <;> exact hgate

/-- Every message for such a network is listed. -/
theorem hashed_tableOutput {bytes : List UInt8} (h : bytes ∈ (tableOutput complement).Hashed hash) :
    bytes ∈ tableMessages hash := by
  have hinv := (built_tableOutput complement).inventory
  rcases h with ⟨n, message, hmessage, rfl⟩ | ⟨digest, hdigest, rfl⟩
  · cases hmessage with
    | @input i _ hn =>
      have hcis : (tableOutput complement).cis = [2] := by cases complement <;> rfl
      obtain rfl : i = 0 := by
        rw [hcis] at hn
        simpa using (List.getElem?_eq_some_iff.mp hn).1
      have hlisted : tableMessages.tableInput ∈ tableMessages hash := by simp [tableMessages]
      cases complement <;> exact hlisted
    | @constant _ _ v _ _ => cases v <;> simp [tableMessages]
    | gate hgate ht hfanins =>
      obtain rfl := eq_of_isGate_tableOutput complement hgate.isGate
      obtain ⟨rfl, rfl⟩ := hgate.inj (hasGate_tableOutput complement)
      obtain rfl := Option.some.inj (ht.symm.trans (get?_tableOutput complement))
      have hlisted : tableMessages.tableGate hash complement ∈ tableMessages hash := by
        cases complement <;> simp [tableMessages]
      have hinput := (hfanins _ List.mem_cons_self).unique hinv
        (hasDigest_tableOutput_input complement)
      rw [List.map_cons, List.map_nil, hinput]
      cases complement <;> exact hlisted
  · have hcos : (tableOutput complement).cos = [⟨3, false⟩] := by cases complement <;> rfl
    rw [hcos] at hdigest ⊢
    have hgate := (hdigest _ List.mem_cons_self).unique hinv (hasDigest_tableOutput_gate complement)
    rw [List.map_cons, List.map_nil, hgate]
    cases complement <;> simp [tableMessages]

end TableOutput

theorem fingerprint_identifies_cones_tableOutput : ∃ d d', (tableOutput false).fingerprint = .ok d ∧
    (tableOutput true).fingerprint = .ok d' ∧
      (d = d' ↔ (tableOutput false).SameOutputs (tableOutput true)) ∧
      (d = d' → ∀ values,
        (tableOutput true).response values = (tableOutput false).response values) ∧
      ∀ f, (tableOutput false).Embeds f (tableOutput true) → d = d' := by
  have hfits : ∀ complement, (tableOutput complement).CountsFit := by
    intro complement
    cases complement <;> exact ⟨by decide, by decide, by decide⟩
  exact fingerprint_identifies_cones (built_tableOutput false) (acyclic_tableOutput false)
    (built_tableOutput true) (acyclic_tableOutput true) rfl (hfits false) (hfits true)
    length_blake3 fun a ha b hb => injOn_tableMessages a
      (ha.elim (hashed_tableOutput false) (hashed_tableOutput true)) b
      (hb.elim (hashed_tableOutput false) (hashed_tableOutput true))

end Network

end LogicSynthesis
