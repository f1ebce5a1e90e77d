import LogicSynthesis.FunctionCache
import LogicSynthesis.Proofs.TruthTable.Composition

/-!
# The function cache

A cache is well formed when its entries are canonical and its index leads to the entries it is
for. A function that enters a well-formed cache is found under the literal it is given, and the
literals that were given before keep their functions.

## Main statements

- `get?_insert` — what is inserted is found
- `get?_insert_of_get?` — what was there stays
- `insert_again` — what is there is not inserted again
- `Indexed.get?_inj` — a function has one literal
-/

namespace LogicSynthesis.FunctionCache

/-- The entries are canonical, and the index finds them. -/
structure WellFormed (c : FunctionCache) : Prop where
  canonical : ∀ t ∈ c.entries, t.Canonical
  index : ∀ (t : TruthTable) (i : Nat), c.index[t]? = some i → c.entries[i]? = some t

variable {c : FunctionCache} {t : TruthTable} {literal : Nat}

theorem get?_eq (c : FunctionCache) (i : Nat) (negate : Bool) :
    c.get? (2 * i + negate.toNat) = (c.entries[i]?).map (·.withPolarity negate) := by
  have hle := negate.toNat_lt
  have hdiv : (2 * i + negate.toNat) / 2 = i := by omega
  have hmod : (2 * i + negate.toNat) % 2 = negate.toNat := by omega
  rw [get?, hdiv, hmod]
  cases negate <;> rfl

theorem get_eq_ok : c.get literal = .ok t ↔ c.get? literal = some t := by
  unfold get
  cases c.get? literal <;> simp

theorem WellFormed.canonical_of_get? (h : c.WellFormed) (hget : c.get? literal = some t) :
    t.Canonical := by
  obtain ⟨entry, hentry, rfl⟩ := Option.map_eq_some_iff.mp hget
  exact (h.canonical _ (Array.mem_of_getElem? hentry)).withPolarity _

/-- The entry of a function, with the polarity in which it is stored, gives the function back. -/
theorem withPolarity_withPolarity (ht : t.Canonical) (negate : Bool) :
    (t.withPolarity negate).withPolarity negate = t := by
  cases negate
  · rfl
  · exact TruthTable.not_not ht

theorem insert_of_found {i : Nat} (h : c.index[t.withPolarity (t.bit 0)]? = some i) :
    c.insert t = (2 * i + (t.bit 0).toNat, c) := by
  simp only [insert, h]

theorem insert_of_new (h : c.index[t.withPolarity (t.bit 0)]? = none) :
    c.insert t = (2 * c.entries.size + (t.bit 0).toNat,
      { entries := c.entries.push (t.withPolarity (t.bit 0))
        index := c.index.insert (t.withPolarity (t.bit 0)) c.entries.size }) := by
  simp only [insert, h]

theorem WellFormed.insert (h : c.WellFormed) (ht : t.Canonical) : (c.insert t).2.WellFormed := by
  cases hfound : c.index[t.withPolarity (t.bit 0)]? with
  | some i =>
    rw [insert_of_found hfound]
    exact h
  | none =>
    rw [insert_of_new hfound]
    refine ⟨?_, ?_⟩
    · intro other hmem
      rcases Array.mem_push.mp hmem with hmem | rfl
      · exact h.canonical other hmem
      · exact ht.withPolarity _
    · intro other i hi
      rw [Std.HashMap.getElem?_insert] at hi
      rw [Array.getElem?_push]
      by_cases heq : t.withPolarity (t.bit 0) = other
      · subst heq
        rw [beq_self_eq_true, if_pos rfl, Option.some.injEq] at hi
        rw [if_pos hi.symm]
      · rw [beq_eq_false_iff_ne.mpr heq, if_neg Bool.false_ne_true] at hi
        have hentry := h.index other i hi
        have hlt := (Array.getElem?_eq_some_iff.mp hentry).1
        rw [if_neg (by omega), hentry]

theorem get?_insert (h : c.WellFormed) (ht : t.Canonical) :
    (c.insert t).2.get? (c.insert t).1 = some t := by
  have hback := withPolarity_withPolarity ht (t.bit 0)
  cases hfound : c.index[t.withPolarity (t.bit 0)]? with
  | some i =>
    rw [insert_of_found hfound, get?_eq, h.index _ _ hfound, Option.map_some, hback]
  | none =>
    rw [insert_of_new hfound, get?_eq, Array.getElem?_push_size, Option.map_some, hback]

theorem get?_insert_of_get? {other : TruthTable} (hget : c.get? literal = some other) :
    (c.insert t).2.get? literal = some other := by
  cases hfound : c.index[t.withPolarity (t.bit 0)]? with
  | some i => rw [insert_of_found hfound, hget]
  | none =>
    rw [insert_of_new hfound]
    obtain ⟨entry, hentry, hother⟩ := Option.map_eq_some_iff.mp hget
    have hlt := (Array.getElem?_eq_some_iff.mp hentry).1
    rw [get?, Array.getElem?_push, if_neg (by omega), hentry, Option.map_some, hother]

/-! ### Functions that are inserted again -/

/-- The place of a function that was inserted. -/
theorem exists_index_insert (c : FunctionCache) (t : TruthTable) :
    ∃ i, (c.insert t).2.index[t.withPolarity (t.bit 0)]? = some i ∧
      (c.insert t).1 = 2 * i + (t.bit 0).toNat := by
  cases hfound : c.index[t.withPolarity (t.bit 0)]? with
  | some i => exact ⟨i, by rw [insert_of_found hfound, hfound], by rw [insert_of_found hfound]⟩
  | none =>
    rw [insert_of_new hfound]
    exact ⟨c.entries.size, Std.HashMap.getElem?_insert_self, rfl⟩

theorem index_insert_of_index {u : TruthTable} {i : Nat} (h : c.index[u]? = some i) :
    (c.insert t).2.index[u]? = some i := by
  cases hfound : c.index[t.withPolarity (t.bit 0)]? with
  | some j => rwa [insert_of_found hfound]
  | none =>
    rw [insert_of_new hfound, Std.HashMap.getElem?_insert, if_neg, h]
    intro heq
    rw [← eq_of_beq heq, hfound] at h
    cases h

/-- A function that is in the cache keeps its literal and changes nothing. -/
theorem insert_again {later : FunctionCache} (h : ∀ (u : TruthTable) (i : Nat),
    (c.insert t).2.index[u]? = some i → later.index[u]? = some i) :
    later.insert t = ((c.insert t).1, later) := by
  obtain ⟨i, hindex, hliteral⟩ := exists_index_insert c t
  rw [insert_of_found (h _ i hindex), hliteral]

/-! ### The cache of a new network -/

theorem wellFormed_empty : ({ entries := #[], index := ∅ } : FunctionCache).WellFormed := by
  refine ⟨?_, ?_⟩
  · intro t hmem
    exact absurd hmem (Array.not_mem_empty t)
  · intro t i hi
    simp at hi

theorem wellFormed_base : base.WellFormed :=
  (wellFormed_empty.insert (TruthTable.canonical_zero (by decide))).insert
    (TruthTable.canonical_proj (by decide) 0)

theorem base_eq : base =
    { entries := #[TruthTable.zero 0, TruthTable.proj 1 0]
      index := ((∅ : Std.HashMap TruthTable Nat).insert (TruthTable.zero 0) 0).insert
        (TruthTable.proj 1 0) 1 } := by
  have hzero : (TruthTable.zero 0).bit 0 = false := by decide
  have hproj : (TruthTable.proj 1 0).bit 0 = false := by decide
  have hne : (TruthTable.zero 0 == TruthTable.proj 1 0) = false := by decide
  simp [base, insert, hzero, hproj, hne, TruthTable.withPolarity]

/-- The first function of more than one variable that enters the base cache gets literal `4`, if
it is false on the assignment `0`. -/
theorem insert_base (hvars : 1 < t.numVars) (hbit : t.bit 0 = false) : (base.insert t).1 = 4 := by
  have hzero : (TruthTable.zero 0 == t) = false := by
    rw [beq_eq_false_iff_ne]
    rintro rfl
    simp at hvars
  have hproj : (TruthTable.proj 1 0 == t) = false := by
    rw [beq_eq_false_iff_ne]
    rintro rfl
    simp at hvars
  rw [base_eq, insert_of_new]
  · simp [hbit]
  · simp [hbit, TruthTable.withPolarity, hzero, hproj]

/-! ### Functions have one literal -/

/-- The index finds every entry at its place, and entries are false on the assignment `0`. -/
def Indexed (c : FunctionCache) : Prop :=
  ∀ (i : Nat) t, c.entries[i]? = some t → c.index[t]? = some i ∧ t.bit 0 = false

theorem indexed_empty : ({ entries := #[], index := ∅ } : FunctionCache).Indexed := by
  intro i t ht
  simp at ht

theorem Indexed.insert (h : c.Indexed) (ht : t.Canonical) : (c.insert t).2.Indexed := by
  cases hfound : c.index[t.withPolarity (t.bit 0)]? with
  | some i =>
    rw [insert_of_found hfound]
    exact h
  | none =>
    rw [insert_of_new hfound]
    intro i other hother
    rw [Array.getElem?_push] at hother
    rw [Std.HashMap.getElem?_insert]
    by_cases hi : i = c.entries.size
    · rw [if_pos hi, Option.some.injEq] at hother
      subst hother
      refine ⟨by rw [beq_self_eq_true, if_pos rfl, hi], ?_⟩
      rw [TruthTable.bit_withPolarity ht _ (Nat.two_pow_pos _), Bool.xor_self]
    · rw [if_neg hi] at hother
      obtain ⟨hindex, hbit⟩ := h i other hother
      have hne : t.withPolarity (t.bit 0) ≠ other := by
        rintro rfl
        rw [hfound] at hindex
        cases hindex
      rw [beq_eq_false_iff_ne.mpr hne, if_neg Bool.false_ne_true]
      exact ⟨hindex, hbit⟩

theorem indexed_base : base.Indexed :=
  (indexed_empty.insert (TruthTable.canonical_zero (by decide))).insert
    (TruthTable.canonical_proj (by decide) 0)

/-- A function of an indexed cache has one literal. -/
theorem Indexed.get?_inj (h : c.Indexed) (hwf : c.WellFormed) {literal' : Nat}
    (hget : c.get? literal = some t) (hget' : c.get? literal' = some t) : literal = literal' := by
  obtain ⟨entry, hentry, rfl⟩ := Option.map_eq_some_iff.mp hget
  obtain ⟨entry', hentry', heq⟩ := Option.map_eq_some_iff.mp hget'
  obtain ⟨hindex, hbit⟩ := h _ _ hentry
  obtain ⟨hindex', hbit'⟩ := h _ _ hentry'
  have hcan := hwf.canonical _ (Array.mem_of_getElem? hentry)
  have hcan' := hwf.canonical _ (Array.mem_of_getElem? hentry')
  -- The polarity is the value on the assignment `0`, which gives the entry its place.
  have hpolarity : (literal' % 2 == 1) = (literal % 2 == 1) := by
    have hbits := congrArg (TruthTable.bit · 0) heq
    simpa only [TruthTable.bit_withPolarity hcan _ (Nat.two_pow_pos _), hbit, hbit',
      TruthTable.bit_withPolarity hcan' _ (Nat.two_pow_pos _), Bool.false_xor] using hbits
  have hentries : entry' = entry := by
    rw [hpolarity] at heq
    rw [← withPolarity_withPolarity hcan' (literal % 2 == 1), heq,
      withPolarity_withPolarity hcan]
  rw [hentries, hindex, Option.some.injEq] at hindex'
  have hmod : literal' % 2 = literal % 2 := by
    rcases Nat.mod_two_eq_zero_or_one literal with h0 | h0 <;>
      rcases Nat.mod_two_eq_zero_or_one literal' with h1 | h1 <;> simp [h0, h1] at hpolarity ⊢
  omega

end LogicSynthesis.FunctionCache
