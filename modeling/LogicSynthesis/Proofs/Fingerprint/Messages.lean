import LogicSynthesis.Proofs.Fingerprint

/-!
# Messages can be read back

The bytes that are hashed determine what they were made of. A message says by its first byte what
kind of node it belongs to. It does not say how many fanins a gate has. But the table of a gate of
more fanins is no shorter, so the length of the message tells their number, and with it where the
table ends and where each digest begins.

## Main definitions

- `HashScheme.ofBytes` — the scheme of a hash function on byte strings

## Main statements

- `littleEndian_injective`, `flatMap_inj` — words, and parts of one length
- `gateMessage_inj`, `inputMessage_inj`, `networkMessage_inj` — what messages are made of
-/

namespace LogicSynthesis

/-! ### Parts of one length -/

theorem length_littleEndian (w : UInt64) : (littleEndian w).length = 8 := by
  rw [littleEndian, List.length_map, List.length_range]

/-- The bytes of a word determine it. -/
theorem littleEndian_injective : Function.Injective littleEndian := by
  intro v w h
  apply UInt64.toNat_inj.mp
  have hbyte : ∀ i < 8, v.toNat / 2 ^ (8 * i) % 256 = w.toNat / 2 ^ (8 * i) % 256 := by
    intro i hi
    have hget := congrArg (fun bytes : List UInt8 => (bytes[i]?).map UInt8.toNat) h
    simpa [littleEndian, List.getElem?_range hi, Nat.shiftRight_eq_div_pow, UInt64.toNat_ofNat,
      Nat.mod_eq_of_lt (show 8 * i < 64 by omega),
      Nat.mod_eq_of_lt (show 8 * i < 2 ^ 64 by omega)] using hget
  have h0 := hbyte 0 (by omega)
  have h1 := hbyte 1 (by omega)
  have h2 := hbyte 2 (by omega)
  have h3 := hbyte 3 (by omega)
  have h4 := hbyte 4 (by omega)
  have h5 := hbyte 5 (by omega)
  have h6 := hbyte 6 (by omega)
  have h7 := hbyte 7 (by omega)
  have hv := v.toNat_lt
  have hw := w.toNat_lt
  norm_num at h0 h1 h2 h3 h4 h5 h6 h7 hv hw
  omega

/-- Numbers below the number of words have different words. -/
theorem ofNat_inj {a b : Nat} (ha : a < 2 ^ 64) (hb : b < 2 ^ 64)
    (h : UInt64.ofNat a = UInt64.ofNat b) : a = b := by
  have hnat := congrArg UInt64.toNat h
  rwa [UInt64.toNat_ofNat_of_lt' ha, UInt64.toNat_ofNat_of_lt' hb] at hnat

theorem length_flatMap_of_length {α β : Type} {f : α → List β} {k : Nat} {as : List α}
    (h : ∀ a ∈ as, (f a).length = k) : (as.flatMap f).length = as.length * k := by
  induction as with
  | nil => exact (Nat.zero_mul k).symm
  | cons a as ih =>
    rw [List.flatMap_cons, List.length_append, h a List.mem_cons_self,
      ih fun b hb => h b (List.mem_cons_of_mem _ hb), List.length_cons, Nat.succ_mul, Nat.add_comm]

/-- Parts of one length can be told apart in what they are joined to. -/
theorem flatMap_inj {α β : Type} {f : α → List β} {k : Nat} (hk : 0 < k) {as bs : List α}
    (has : ∀ a ∈ as, (f a).length = k) (hbs : ∀ b ∈ bs, (f b).length = k)
    (hf : ∀ a ∈ as, ∀ b ∈ bs, f a = f b → a = b) (h : as.flatMap f = bs.flatMap f) : as = bs := by
  have hlen := congrArg List.length h
  rw [length_flatMap_of_length has, length_flatMap_of_length hbs] at hlen
  have hlen : as.length = bs.length := Nat.eq_of_mul_eq_mul_right hk hlen
  induction as generalizing bs with
  | nil => exact (List.length_eq_zero_iff.mp hlen.symm).symm
  | cons a as ih =>
    cases bs with
    | nil => cases hlen
    | cons b bs =>
      obtain ⟨ha, has⟩ := List.forall_mem_cons.mp has
      obtain ⟨hb, hbs⟩ := List.forall_mem_cons.mp hbs
      rw [List.flatMap_cons, List.flatMap_cons] at h
      obtain ⟨hhead, htail⟩ := List.append_inj h (ha.trans hb.symm)
      rw [hf a List.mem_cons_self b List.mem_cons_self hhead]
      congr 1
      refine ih has hbs (fun a' ha' b' hb' => ?_) htail ?_ (Nat.succ.inj hlen)
      · exact hf a' (List.mem_cons_of_mem _ ha') b' (List.mem_cons_of_mem _ hb')
      · rw [Nat.succ.inj hlen]

theorem flatMap_littleEndian_injective :
    Function.Injective (List.flatMap littleEndian) := fun _ _ h =>
  flatMap_inj (by decide) (fun w _ => length_littleEndian w) (fun w _ => length_littleEndian w)
    (fun _ _ _ _ heq => littleEndian_injective heq) h

/-! ### Messages as bytes -/

namespace HashScheme

/-- The scheme of a hash function on byte strings, which are ordered byte by byte. -/
def ofBytes (hash : List UInt8 → List UInt8) : HashScheme (List UInt8) :=
  { hash := fun message => hash (flatten message)
    le := bytesLe }

theorem ordered_ofBytes (hash : List UInt8 → List UInt8) : (ofBytes hash).Ordered :=
  ordered_bytesLe _

end HashScheme

namespace Network

open HashScheme (flatten)

/-- Fingerprints are those of the BLAKE3 hash function. -/
theorem fingerprint_eq (net : Network) :
    net.fingerprint = net.fingerprintWith (.ofBytes Blake3.hash) := rfl

/-- BLAKE3 digests have 32 bytes. -/
theorem length_blake3 (message : List UInt8) : (Blake3.hash message).length = 32 := by
  have hsplit : ∀ xs : List UInt8, Blake3.splitEvery 1024 xs ≠ [] := by
    intro xs
    rw [Blake3.splitEvery]
    split <;> exact List.cons_ne_nil _ _
  rw [Blake3.hash]
  split
  · next hnil =>
    rw [List.map_eq_nil_iff, List.zipIdx_eq_nil_iff] at hnil
    exact absurd hnil (hsplit message)
  · rw [length_flatMap_of_length (k := 4) fun w _ => rfl, Array.length_toList, Blake3.compress,
      Array.size_ofFn]

theorem flagByte_injective : Function.Injective flagByte := by
  intro a b h
  cases a <;> cases b <;> first | rfl | cases h

/-- The bytes of a fanin. -/
def faninBytes (fanin : FaninDigest (List UInt8)) : List UInt8 := fanin.1 ++ [flagByte fanin.2]

theorem flatten_faninPieces (fanins : List (FaninDigest (List UInt8))) :
    flatten (fanins.flatMap faninPieces) = fanins.flatMap faninBytes := by
  rw [flatten, List.flatMap_assoc]
  rfl

theorem faninBytes_inj {fanins fanins' : List (FaninDigest (List UInt8))}
    (hlen : ∀ f ∈ fanins, f.1.length = 32) (hlen' : ∀ f ∈ fanins', f.1.length = 32)
    (h : fanins.flatMap faninBytes = fanins'.flatMap faninBytes) : fanins = fanins' := by
  have hbytes : ∀ f : FaninDigest (List UInt8), f.1.length = 32 → (faninBytes f).length = 33 := by
    intro f hf
    rw [faninBytes, List.length_append, hf, List.length_singleton]
  refine flatMap_inj (by decide) (fun f hf => hbytes f (hlen f hf))
    (fun f hf => hbytes f (hlen' f hf)) (fun f hf f' hf' heq => ?_) h
  obtain ⟨hdigest, hflag⟩ := List.append_inj heq ((hlen f hf).trans (hlen' f' hf').symm)
  exact Prod.ext hdigest (flagByte_injective (List.singleton_inj.mp hflag))

theorem flatten_constantMessage (v : Bool) : flatten (constantMessage v) = [2, flagByte v] := rfl

theorem flatten_inputMessage (isRegister : Bool) (i : Nat) : flatten (inputMessage isRegister i) =
    1 :: flagByte isRegister :: littleEndian (UInt64.ofNat i) := by
  rw [inputMessage, flatten, List.flatMap_cons, List.flatMap_singleton]
  rfl

theorem flatten_gateMessage (t : TruthTable) (fanins : List (FaninDigest (List UInt8))) :
    flatten (gateMessage t fanins) =
      0 :: (t.words.toList.flatMap littleEndian ++ fanins.flatMap faninBytes) := by
  rw [← flatten_faninPieces, gateMessage, flatten, List.flatMap_cons, List.flatMap_cons]
  rfl

theorem constantMessage_inj {v v' : Bool}
    (h : flatten (constantMessage v) = flatten (constantMessage v')) : v = v' := by
  rw [flatten_constantMessage, flatten_constantMessage, List.cons_eq_cons] at h
  exact flagByte_injective (List.singleton_inj.mp h.2)

theorem inputMessage_inj {isRegister isRegister' : Bool} {i j : Nat} (hi : i < 2 ^ 64)
    (hj : j < 2 ^ 64)
    (h : flatten (inputMessage isRegister i) = flatten (inputMessage isRegister' j)) :
    isRegister = isRegister' ∧ i = j := by
  rw [flatten_inputMessage, flatten_inputMessage, List.cons_eq_cons, List.cons_eq_cons] at h
  exact ⟨flagByte_injective h.2.1, ofNat_inj hi hj (littleEndian_injective h.2.2)⟩

theorem wordCount_le {k k' : Nat} (h : k ≤ k') :
    TruthTable.wordCount k ≤ TruthTable.wordCount k' := by
  unfold TruthTable.wordCount
  split <;> split
  · exact Nat.le_refl _
  · rw [Nat.one_shiftLeft]
    exact Nat.one_le_two_pow
  · omega
  · rw [Nat.one_shiftLeft, Nat.one_shiftLeft]
    exact Nat.pow_le_pow_right (by decide) (by omega)

/-- The bytes of a gate determine its table and its fanins, whatever their number. -/
theorem gateMessage_inj {t t' : TruthTable} {fanins fanins' : List (FaninDigest (List UInt8))}
    (ht : t.Canonical) (ht' : t'.Canonical) (hvars : t.numVars = fanins.length)
    (hvars' : t'.numVars = fanins'.length) (hlen : ∀ f ∈ fanins, f.1.length = 32)
    (hlen' : ∀ f ∈ fanins', f.1.length = 32)
    (h : flatten (gateMessage t fanins) = flatten (gateMessage t' fanins')) :
    t = t' ∧ fanins = fanins' := by
  have hsize : ∀ {t : TruthTable}, t.Canonical →
      (t.words.toList.flatMap littleEndian).length = TruthTable.wordCount t.numVars * 8 := by
    intro t ht
    rw [length_flatMap_of_length fun w _ => length_littleEndian w, Array.length_toList, ht.size_eq]
  have hfanins : ∀ {fanins : List (FaninDigest (List UInt8))}, (∀ f ∈ fanins, f.1.length = 32) →
      (fanins.flatMap faninBytes).length = fanins.length * 33 := by
    intro fanins hlen
    refine length_flatMap_of_length fun f hf => ?_
    rw [faninBytes, List.length_append, hlen f hf, List.length_singleton]
  rw [flatten_gateMessage, flatten_gateMessage, List.cons_eq_cons] at h
  -- More fanins make the message longer.
  have hnum : t.numVars = t'.numVars := by
    have hlength := congrArg List.length h.2
    rw [List.length_append, List.length_append, hsize ht, hsize ht', hfanins hlen, hfanins hlen',
      ← hvars, ← hvars'] at hlength
    rcases Nat.lt_trichotomy t.numVars t'.numVars with hlt | heq | hgt
    · have hle := wordCount_le hlt.le
      omega
    · exact heq
    · have hle := wordCount_le hgt.le
      omega
  obtain ⟨hwords, hrest⟩ := List.append_inj h.2 (by rw [hsize ht, hsize ht', hnum])
  have hwords := flatMap_littleEndian_injective hwords
  refine ⟨?_, faninBytes_inj hlen hlen' hrest⟩
  cases t
  cases t'
  simp only at hnum hwords
  rw [hnum, Array.toList_inj.mp hwords]

theorem flatten_networkMessage (net : Network) (outputs : List (FaninDigest (List UInt8))) :
    flatten (net.networkMessage outputs) =
      [net.pis.size, net.pos.size, net.ris.size].flatMap (fun n => littleEndian (UInt64.ofNat n)) ++
        outputs.flatMap faninBytes := by
  rw [← flatten_faninPieces, networkMessage, flatten, List.flatMap_cons]
  rfl

/-- The counts of a network fit into words. -/
def CountsFit (net : Network) : Prop :=
  net.numCis < 2 ^ 64 ∧ net.pos.size < 2 ^ 64 ∧ net.ris.size < 2 ^ 64

/-- The bytes of a network determine its counts and its outputs. -/
theorem networkMessage_inj {net net' : Network} {outputs outputs' : List (FaninDigest (List UInt8))}
    (hfit : net.CountsFit) (hfit' : net'.CountsFit) (hlen : ∀ f ∈ outputs, f.1.length = 32)
    (hlen' : ∀ f ∈ outputs', f.1.length = 32)
    (h : flatten (net.networkMessage outputs) = flatten (net'.networkMessage outputs')) :
    (net.pis.size = net'.pis.size ∧ net.pos.size = net'.pos.size ∧
      net.ris.size = net'.ris.size) ∧ outputs = outputs' := by
  have hword : ∀ n : Nat, (littleEndian (UInt64.ofNat n)).length = 8 :=
    fun n => length_littleEndian _
  rw [flatten_networkMessage, flatten_networkMessage] at h
  obtain ⟨hcounts, houtputs⟩ := List.append_inj h (by
    rw [length_flatMap_of_length fun n _ => hword n, length_flatMap_of_length fun n _ => hword n]
    rfl)
  refine ⟨?_, faninBytes_inj hlen hlen' houtputs⟩
  have hpis : ∀ {net : Network}, net.CountsFit → net.pis.size < 2 ^ 64 := by
    intro net hfit
    have hcis := hfit.1
    rw [numCis] at hcis
    omega
  have hlist := flatMap_inj (by decide) (fun n _ => hword n) (fun n _ => hword n)
    (fun a ha b hb heq => ofNat_inj ?_ ?_ (littleEndian_injective heq)) hcounts
  · simpa using hlist
  · rcases List.mem_cons.mp ha with rfl | ha
    · exact hpis hfit
    · rcases List.mem_pair.mp ha with rfl | rfl
      · exact hfit.2.1
      · exact hfit.2.2
  · rcases List.mem_cons.mp hb with rfl | hb
    · exact hpis hfit'
    · rcases List.mem_pair.mp hb with rfl | rfl
      · exact hfit'.2.1
      · exact hfit'.2.2

end Network

end LogicSynthesis
