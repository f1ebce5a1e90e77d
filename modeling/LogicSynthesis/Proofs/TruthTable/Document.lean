import LogicSynthesis.TruthTable.Document
import LogicSynthesis.TruthTable.Text
import LogicSynthesis.Proofs.Json
import LogicSynthesis.Proofs.TruthTable.Lanes
import LogicSynthesis.Proofs.TruthTable.Shrinking

/-!
# Tables from documents

A table is read back from its own text. A reader checks the form of a document and the range of its
numbers, and no more: the arity and the words are taken as they stand. So canonical tables are read
as canonical tables, but every other table whose arity fits a machine word is read from some text
too. The operations can be used on the canonical ones only. On any other table some operation
fails, or the table differs from one with the same values.

## Main definitions

- `TruthTable.Usable` — the operations work on a table, and its values determine it
- `TruthTable.RecordReader.Lawful` — what is relied on of a reader

## Main statements

- `canonical_iff` — whether a table is canonical can be seen from its arity and its words
- `usable_iff_canonical` — the canonical tables are the usable ones
- `RecordReader.lawful_standard` — the reader that goes by the grammar can be relied on
- `canonical_ofRecord` — the numbers that make a canonical table
- `ofJson?_toJson` — a text is read as the table that it was written for
- `documents_keep_tables` — what is read from texts
- `documents_uncanonical` — two texts whose tables are not usable
-/

namespace LogicSynthesis.TruthTable

variable {t : TruthTable} {n : Nat}

/-! ### Canonical tables -/

/-- A number in range has no bit beyond the last assignment. -/
theorem toNat_lt_iff {w : UInt64} :
    w.toNat < 2 ^ 2 ^ n ↔ ∀ i < 64, wordBit w i = true → i < 2 ^ n := by
  constructor
  · intro hlt i hi hbit
    rw [wordBit_eq hi] at hbit
    by_contra hout
    rw [Nat.testBit_lt_two_pow (hlt.trans_le (Nat.pow_le_pow_right (by decide) (by omega)))] at hbit
    cases hbit
  · intro hbits
    apply Nat.lt_pow_two_of_testBit
    intro i hi
    by_cases h64 : i < 64
    · rw [← wordBit_eq h64]
      exact Bool.eq_false_of_not_eq_true fun hbit => absurd (hbits i h64 hbit) (by omega)
    · exact Nat.testBit_lt_two_pow
        (w.toNat_lt.trans_le (Nat.pow_le_pow_right (by decide) (Nat.not_lt.mp h64)))

/-- The bits of a single word. -/
theorem bit_of_singleWord {w : UInt64} (hw : t.words = #[w]) (i : Nat) :
    t.bit i = true ↔ i < 64 ∧ wordBit w i = true := by
  by_cases hi : i < 64
  · rw [bit, hw, Nat.div_eq_of_lt hi, Nat.mod_eq_of_lt hi, and_iff_right hi]
    rfl
  · have hpast : 1 ≤ i / 64 := by omega
    rw [bit_of_le (by rwa [hw])]
    exact iff_of_false Bool.false_ne_true fun h => hi h.1

/-- The words of six or more variables have no room beyond the last assignment. -/
theorem lt_of_bit_of_size (hn : 6 ≤ t.numVars) (hsize : t.words.size = wordCount t.numVars)
    {i : Nat} (hbit : t.bit i = true) : i < 2 ^ t.numVars := by
  have hwords : 64 * t.words.size = 2 ^ t.numVars := by rw [hsize, mul_wordCount hn]
  by_contra hout
  rw [bit_of_le (by omega)] at hbit
  cases hbit

/-- A table is canonical when it has as many words as its arity needs and none has a bit beyond the
last assignment. -/
theorem canonical_iff : t.Canonical ↔ t.numVars ≤ maxVars ∧ t.words.size = wordCount t.numVars ∧
    ∀ w ∈ t.words, w.toNat < 2 ^ 2 ^ t.numVars := by
  refine and_congr_right fun _ => and_congr_right fun hsize => ?_
  rw [numBits_eq]
  by_cases hn : 6 ≤ t.numVars
  · refine iff_of_true (fun i => lt_of_bit_of_size hn hsize) fun w _ => ?_
    have hpow : 2 ^ 6 ≤ 2 ^ t.numVars := Nat.pow_le_pow_right (by decide) hn
    exact w.toNat_lt.trans_le (Nat.pow_le_pow_right (by decide) hpow)
  · obtain ⟨w, hw⟩ := Array.size_eq_one_iff.mp (hsize.trans (wordCount_of_le (by omega)))
    simp only [bit_of_singleWord hw, hw, List.mem_toArray, List.mem_singleton, forall_eq,
      toNat_lt_iff, and_imp]

/-! ### Usable tables -/

/-- The operations have the results that they should have on the function of the table, and the
table is equal to a canonical one when they have the same values. -/
structure Usable (t : TruthTable) : Prop where
  reads : ReadsBits t.numVars t
  digits : Checked.toHex t = .ok t.toHex
  acts : ∀ b c, OfArity t.numVars [b, c] → ActsPointwise t.numVars t b c
  shrinks : ∃ small vars, Shrinks t small vars
  expands : ∀ ps n, ps.length = t.numVars → (∀ p ∈ ps, p < n) → n ≤ max maxVars t.numVars →
    Tabulates (Checked.expand t ps n) n fun i => t.bit (codeOf (ps.map i.testBit))
  composes : ∀ inputs n, OfArity n inputs → inputs.length = t.numVars → 1 ≤ t.numVars →
    Tabulates (Checked.compose t inputs) n fun i => t.bit (codeOf (inputs.map (·.bit i)))
  composesWords : ∀ words, words.length = t.numVars → ∃ w, Checked.composeWord t words = .ok w ∧
    ∀ b < 64, wordBit w b = t.bit (codeOf (words.map (wordBit · b)))
  eq_iff : ∀ s : TruthTable, s.Canonical →
    (t = s ↔ t.numVars = s.numVars ∧ ∀ i < 2 ^ t.numVars, t.bit i = s.bit i)

/-- The digits of a canonical table are all stored. -/
theorem toHex_eq (h : t.Canonical) : Checked.toHex t = .ok t.toHex := by
  have hcount : t.digitCount ≤ 16 * t.words.size := by
    have hcomplete : t.numBits ≤ 64 * t.words.size := of_decide_eq_true h.complete
    have hpos : 0 < wordCount t.numVars := wordCount_eq t.numVars ▸ Nat.two_pow_pos _
    have hsize := h.size_eq
    rw [digitCount]
    omega
  rw [Checked.toHex, require_of (decide_eq_true h.numVars_lt), ok_bind,
    require_of (decide_eq_true hcount)]
  rfl

theorem Canonical.usable (h : t.Canonical) : t.Usable where
  reads := readsBits h
  digits := toHex_eq h
  acts b c hbc := by
    obtain ⟨hb, hbn⟩ := hbc b (by simp)
    obtain ⟨hc, hcn⟩ := hbc c (by simp)
    exact actsPointwise h hb hc hbn.symm hcn.symm
  shrinks := ⟨_, _, shrinks_minBase h⟩
  expands ps n hlen hps hn := by
    rw [max_eq_left h.numVars_le] at hn
    exact ⟨_, Checked.expand_eq h hlen hps hn, canonical_expand t ps hn, numVars_expand t ps n,
      fun i hi => bit_expand t ps hi⟩
  composes inputs n harity hlen hpos := tabulates_compose h harity hlen hpos
  composesWords words hwords :=
    ⟨_, Checked.composeWord_eq h hwords, fun b hb => wordBit_composeWord hwords hb⟩
  eq_iff s hs := eq_iff_bits h hs

/-- Moving no variable makes a canonical table of the same values, which is the table itself. -/
theorem Usable.canonical (h : t.Usable) : t.Canonical := by
  obtain ⟨s, -, hs, hn, hbits⟩ := h.expands (List.range t.numVars) t.numVars List.length_range
    (fun p hp => List.mem_range.mp hp) (le_max_right _ _)
  have heq : t = s := by
    refine (h.eq_iff s hs).mpr ⟨hn.symm, fun i hi => ?_⟩
    exact (congrArg t.bit (codeOf_map_testBit hi)).symm.trans (hbits i hi).symm
  exact heq ▸ hs

theorem usable_iff_canonical : t.Usable ↔ t.Canonical := ⟨Usable.canonical, Canonical.usable⟩

/-! ### Texts -/

/-- What is relied on of a reader: it reads records of numbers that were written without blanks,
finds the two fields of such a record when their numbers are in range, and gives no number out of
range. -/
structure RecordReader.Lawful (reader : RecordReader) : Prop where
  reads : Json.ReadsRecords reader.document?
  finds : ∀ n ws, n < 2 ^ 64 → (∀ w ∈ ws, w < 2 ^ 64) →
    reader.fields? (Json.recordValue [("num_vars", .number n), ("words", .numbers ws)]) =
      some (n, ws)
  range : ∀ document n ws, reader.fields? document = some (n, ws) →
    n < 2 ^ 64 ∧ ∀ w ∈ ws, w < 2 ^ 64

theorem toNat?_lt {value : Json} (h : value.toNat? = some n) : n < 2 ^ 64 := by
  unfold Json.toNat? at h
  split at h
  · split_ifs at h with hlt
    exact Option.some.inj h ▸ hlt
  · cases h

/-- Numbers in range are read as they are. -/
theorem mapM_toNat? {ws : List Nat} (h : ∀ w ∈ ws, w < 2 ^ 64) :
    (ws.map fun w => Json.number (some w)).mapM Json.toNat? = some ws := by
  induction ws with
  | nil => rfl
  | cons w ws ih =>
    obtain ⟨hw, hws⟩ := List.forall_mem_cons.mp h
    have hnumber : Json.toNat? (.number (some w)) = some w := if_pos hw
    rw [List.map_cons, List.mapM_cons, hnumber, ih hws]
    rfl

theorem lt_of_mapM_toNat? {items : List Json} {ws : List Nat}
    (h : items.mapM Json.toNat? = some ws) : ∀ w ∈ ws, w < 2 ^ 64 := by
  induction items generalizing ws with
  | nil =>
    rw [List.mapM_nil] at h
    exact Option.some.inj h ▸ List.forall_mem_nil _
  | cons item items ih =>
    rw [List.mapM_cons] at h
    obtain ⟨w, hw, h⟩ := Option.bind_eq_some_iff.mp h
    obtain ⟨rest, hrest, h⟩ := Option.bind_eq_some_iff.mp h
    obtain rfl := Option.some.inj h
    exact List.forall_mem_cons.mpr ⟨toNat?_lt hw, ih hrest⟩

theorem RecordReader.lawful_standard : standard.Lawful where
  reads := Json.readsRecords_read
  finds n ws hn hws := by
    have hvars : Json.toNat? (.number (some n)) = some n := if_pos hn
    have hfields : (Json.recordValue [("num_vars", .number n), ("words", .numbers ws)]).fields
        ["num_vars", "words"] = some [some (.number (some n)),
          some (.array (ws.map fun w => .number (some w)))] := by
      rfl
    show fieldsOf? _ = _
    rw [fieldsOf?, hfields, Option.bind_eq_bind, Option.bind_some]
    simp only [hvars, Json.toList?, Option.bind_eq_bind, Option.bind_some, mapM_toNat? hws]
    rfl
  range document n ws h := by
    obtain ⟨fields, -, h⟩ := Option.bind_eq_some_iff.mp h
    split at h
    · next numVars words =>
      obtain ⟨n, hn, h⟩ := Option.bind_eq_some_iff.mp h
      obtain ⟨items, -, h⟩ := Option.bind_eq_some_iff.mp h
      obtain ⟨ws, hws, h⟩ := Option.bind_eq_some_iff.mp h
      obtain ⟨rfl, rfl⟩ := Prod.mk.inj (Option.some.inj h)
      exact ⟨toNat?_lt hn, lt_of_mapM_toNat? hws⟩
    · cases h

/-- The text of a table is that of a record. -/
theorem toJson_eq (t : TruthTable) : t.toJson = String.ofList (Json.recordText
    [("num_vars", .number t.numVars), ("words", .numbers (t.words.toList.map UInt64.toNat))]) := by
  apply String.toList_injective
  rw [String.toList_ofList]
  show ("\x7b\"num_vars\":" ++ t.numVars.repr ++ ",\"words\":[" ++
    ",".intercalate (t.words.toList.map fun w => w.toNat.repr) ++ "]\x7d").toList = _
  simp [Json.recordText, Json.Field.text, Json.objectText, Json.memberText, Json.arrayText,
    String.toList_intercalate, Function.comp_def]

theorem ofRecord_eq (t : TruthTable) :
    ofRecord t.numVars (t.words.toList.map UInt64.toNat) = t := by
  have hback : (t.words.toList.map UInt64.toNat).map UInt64.ofNat = t.words.toList := by
    simp [Function.comp_def]
  rw [ofRecord, hback]

/-- The words are the given numbers when these are in range. -/
theorem map_toNat_ofRecord (n : Nat) {ws : List Nat} (h : ∀ w ∈ ws, w < 2 ^ 64) :
    (ofRecord n ws).words.toList.map UInt64.toNat = ws := by
  rw [ofRecord, List.map_map]
  refine (List.map_congr_left fun w hw => ?_).trans (List.map_id ws)
  exact UInt64.toNat_ofNat_of_lt' (h w hw)

/-- Numbers make a canonical table when there are as many as the arity needs and none has a bit
beyond the last assignment. -/
theorem canonical_ofRecord (n : Nat) {ws : List Nat} (h : ∀ w ∈ ws, w < 2 ^ 64) :
    (ofRecord n ws).Canonical ↔
      n ≤ maxVars ∧ ws.length = wordCount n ∧ ∀ w ∈ ws, w < 2 ^ 2 ^ n := by
  have hwords := map_toNat_ofRecord n h
  have hlen : (ofRecord n ws).words.size = ws.length := by
    rw [← congrArg List.length hwords, List.length_map, Array.length_toList]
  have hrange : (∀ w ∈ (ofRecord n ws).words, w.toNat < 2 ^ 2 ^ n) ↔ ∀ w ∈ ws, w < 2 ^ 2 ^ n := by
    rw [← hwords, List.forall_mem_map, hwords]
    simp only [Array.mem_def]
  rw [canonical_iff, hlen]
  exact and_congr_right fun _ => and_congr_right fun _ => hrange

section Read

variable {reader : RecordReader}

theorem record?_toJson (hreader : reader.Lawful) (h : t.numVars < 2 ^ 64) :
    reader.record? t.toJson = some (t.numVars, t.words.toList.map UInt64.toNat) := by
  have hplain : ∀ field ∈ [("num_vars", Json.Field.number t.numVars),
      ("words", .numbers (t.words.toList.map UInt64.toNat))],
      ∀ c ∈ field.1.toList, Json.Plain c := by
    simp [Json.Plain]
  rw [RecordReader.record?, toJson_eq, hreader.reads _ hplain, Option.bind_eq_bind,
    Option.bind_some]
  refine hreader.finds _ _ h ?_
  rw [List.forall_mem_map]
  exact fun w _ => w.toNat_lt

/-- A text is read as the table that it was written for. -/
theorem ofJson?_toJson (hreader : reader.Lawful) (h : t.numVars < 2 ^ 64) :
    ofJson? reader t.toJson = some t := by
  rw [ofJson?, record?_toJson hreader h]
  exact congrArg some (ofRecord_eq t)

/-- What a text gives is in range. -/
theorem range_of_record? (hreader : reader.Lawful) {text : String} {ws : List Nat}
    (h : reader.record? text = some (n, ws)) : n < 2 ^ 64 ∧ ∀ w ∈ ws, w < 2 ^ 64 := by
  obtain ⟨document, -, hfields⟩ := Option.bind_eq_some_iff.mp h
  exact hreader.range document n ws hfields

/-- A table whose arity fits a machine word is read back from its own text, by whatever reader. In
general a text is read as the table of the numbers that it gives. The table is canonical just when
the arity is not too large, there are as many words as it needs, and none has a bit beyond the last
assignment. The canonical tables are those that can be used. -/
theorem documents_keep_tables (hreader : reader.Lawful) :
    (∀ t : TruthTable, t.numVars < 2 ^ 64 → ofJson? reader t.toJson = some t) ∧
    ∀ text, (reader.record? text = none → ofJson? reader text = none) ∧
      ∀ n ws, reader.record? text = some (n, ws) → ∃ t, ofJson? reader text = some t ∧
        t.numVars = n ∧ n < 2 ^ 64 ∧ t.words.toList.map UInt64.toNat = ws ∧
        (t.Canonical ↔ n ≤ maxVars ∧ ws.length = wordCount n ∧ ∀ w ∈ ws, w < 2 ^ 2 ^ n) ∧
        (t.Usable ↔ t.Canonical) := by
  refine ⟨fun t => ofJson?_toJson hreader, fun text => ⟨fun h => ?_, fun n ws h => ?_⟩⟩
  · rw [ofJson?, h]
    rfl
  · obtain ⟨hn, hws⟩ := range_of_record? hreader h
    refine ⟨ofRecord n ws, ?_, rfl, hn, map_toNat_ofRecord n hws, canonical_ofRecord n hws,
      usable_iff_canonical⟩
    rw [ofJson?, h]
    rfl

end Read

/-- A projection that is false throughout its first word and true throughout its second. -/
theorem documents_keep_tables_twoWords :
    ofJson? .standard "\x7b\"num_vars\":7,\"words\":[0,18446744073709551615]\x7d" =
        some (proj 7 6) ∧ (proj 7 6).Usable := by
  have htext : "\x7b\"num_vars\":7,\"words\":[0,18446744073709551615]\x7d" =
      (proj 7 6).toJson := by decide
  have hlawful := RecordReader.lawful_standard
  obtain ⟨hback, hread⟩ := documents_keep_tables hlawful
  have hresult := hback (proj 7 6) (by decide)
  obtain ⟨t, ht, -, -, -, hcanonical, husable⟩ :=
    (hread (proj 7 6).toJson).2 7 [0, 18446744073709551615]
      (record?_toJson hlawful (by decide : (proj 7 6).numVars < 2 ^ 64))
  obtain rfl := Option.some.inj (hresult.symm.trans ht)
  exact ⟨htext ▸ hresult, husable.mpr (hcanonical.mpr ⟨by decide, by decide, by decide⟩)⟩

/-- A text without the word that its arity needs is read as a table whose digits are not all stored.
Two texts that differ in a bit beyond the last assignment are read as two tables of the same
values. -/
theorem documents_uncanonical :
    (∃ t, ofJson? .standard "\x7b\"num_vars\":1,\"words\":[]\x7d" = some t ∧ ¬ t.Canonical ∧
      Checked.toHex t = .error .missingEntry ∧ Checked.bit t 0 = .error .missingEntry) ∧
    ∃ s t, ofJson? .standard "\x7b\"num_vars\":2,\"words\":[16]\x7d" = some s ∧
      ofJson? .standard "\x7b\"num_vars\":2,\"words\":[0]\x7d" = some t ∧ ¬ s.Canonical ∧
      t.Canonical ∧ s ≠ t ∧ s.numVars = t.numVars ∧ ∀ i < 2 ^ s.numVars, s.bit i = t.bit i := by
  have hback : ∀ t : TruthTable, t.numVars < 2 ^ 64 → ofJson? .standard t.toJson = some t :=
    fun _ => ofJson?_toJson RecordReader.lawful_standard
  have hempty : ¬ (⟨1, #[]⟩ : TruthTable).Canonical := fun h => absurd h.size_eq (by decide)
  have hbeyond : ¬ (⟨2, #[16]⟩ : TruthTable).Canonical :=
    fun h => absurd (h.lt_of_bit (show bit _ 4 = true by decide)) (by decide)
  exact ⟨⟨⟨1, #[]⟩, hback ⟨1, #[]⟩ (by decide), hempty, by decide, by decide⟩,
    ⟨2, #[16]⟩, ⟨2, #[0]⟩, hback ⟨2, #[16]⟩ (by decide), hback ⟨2, #[0]⟩ (by decide), hbeyond,
    canonical_zero (by decide), by decide, rfl, by decide⟩

end LogicSynthesis.TruthTable
