import LogicSynthesis.Proofs.FunctionCache

/-!
# Literals of functions

The literals that a cache gives out stand for the functions that were entered, whatever is entered
later. Two functions have one literal just when they are equal, and literals that differ in the
lowest bit just when one is the complement of the other.

## Main definitions

- `FunctionCache.insertAll` — functions entered in turn, with their literals
- `TruthTable.Complements` — functions with opposite values everywhere

## Main statements

- `WellFormed.insertAll`, `Indexed.insertAll` — what entering functions keeps
- `Indexed.get?_iff` — literals and the functions they stand for
- `get?_xor_one` — the lowest bit complements the function
- `literals_intern_functions` — the literals of functions that were entered in turn
-/

namespace LogicSynthesis

/-- The other function has as many variables and the opposite value on every assignment. -/
def TruthTable.Complements (t u : TruthTable) : Prop :=
  u.numVars = t.numVars ∧ ∀ i < 2 ^ t.numVars, u.bit i = !t.bit i

theorem TruthTable.complements_iff {t u : TruthTable} (ht : t.Canonical) (hu : u.Canonical) :
    t.Complements u ↔ t.not = u := by
  constructor
  · rintro ⟨hvars, hbits⟩
    refine ht.not.ext hu ((numVars_not t).trans hvars.symm) fun i hi => ?_
    rw [numVars_not] at hi
    rw [bit_not ht, decide_eq_true hi, Bool.true_and, hbits i hi]
  · rintro rfl
    refine ⟨numVars_not t, fun i hi => ?_⟩
    rw [bit_not ht, decide_eq_true hi, Bool.true_and]

namespace FunctionCache

variable {c : FunctionCache} {t u : TruthTable} {tables : List TruthTable} {literal : Nat}

/-- Enters functions in turn. Their literals come in the same order. -/
def insertAll (c : FunctionCache) : List TruthTable → List Nat × FunctionCache
  | [] => ([], c)
  | t :: tables =>
    let (literal, next) := c.insert t
    let (literals, last) := next.insertAll tables
    (literal :: literals, last)

theorem length_insertAll (c : FunctionCache) (tables : List TruthTable) :
    (c.insertAll tables).1.length = tables.length := by
  induction tables generalizing c with
  | nil => rfl
  | cons t tables ih => exact congrArg (· + 1) (ih _)

theorem WellFormed.insertAll (h : c.WellFormed) (htables : ∀ t ∈ tables, t.Canonical) :
    (c.insertAll tables).2.WellFormed := by
  induction tables generalizing c with
  | nil => exact h
  | cons t tables ih =>
    obtain ⟨ht, htables⟩ := List.forall_mem_cons.mp htables
    exact ih (h.insert ht) htables

theorem Indexed.insertAll (h : c.Indexed) (htables : ∀ t ∈ tables, t.Canonical) :
    (c.insertAll tables).2.Indexed := by
  induction tables generalizing c with
  | nil => exact h
  | cons t tables ih =>
    obtain ⟨ht, htables⟩ := List.forall_mem_cons.mp htables
    exact ih (h.insert ht) htables

/-- A literal stands for its function whatever is entered. -/
theorem get?_insertAll_of_get? (tables : List TruthTable) (hget : c.get? literal = some t) :
    (c.insertAll tables).2.get? literal = some t := by
  induction tables generalizing c with
  | nil => exact hget
  | cons u tables ih => exact ih (get?_insert_of_get? hget)

/-- Every function that was entered is found under its literal. -/
theorem get?_insertAll (h : c.WellFormed) (htables : ∀ t ∈ tables, t.Canonical) :
    ∀ entry ∈ tables.zip (c.insertAll tables).1,
      (c.insertAll tables).2.get? entry.2 = some entry.1 := by
  induction tables generalizing c with
  | nil => exact List.forall_mem_nil _
  | cons t tables ih =>
    obtain ⟨ht, htables⟩ := List.forall_mem_cons.mp htables
    refine List.forall_mem_cons.mpr ⟨?_, ih (h.insert ht) htables⟩
    exact get?_insertAll_of_get? tables (get?_insert h ht)

theorem lt_of_get? (hget : c.get? literal = some t) : literal < 2 * c.size := by
  obtain ⟨entry, hentry, -⟩ := Option.map_eq_some_iff.mp hget
  have hlt := (Array.getElem?_eq_some_iff.mp hentry).1
  rw [size]
  omega

/-- Literals stand for one function just when they are one literal. -/
theorem Indexed.get?_iff (h : c.Indexed) (hwf : c.WellFormed) {literal' : Nat}
    (hget : c.get? literal = some t) (hget' : c.get? literal' = some u) :
    literal = literal' ↔ t = u := by
  constructor
  · rintro rfl
    exact Option.some.inj (hget.symm.trans hget')
  · rintro rfl
    exact h.get?_inj hwf hget hget'

/-- The lowest bit of a literal complements its function. -/
theorem get?_xor_one (hwf : c.WellFormed) (hget : c.get? literal = some t) :
    c.get? (literal ^^^ 1) = some t.not := by
  have hdiv : (literal ^^^ 1) / 2 = literal / 2 := by
    rw [Nat.xor_div_two]
    exact Nat.xor_zero _
  have hmod : (literal ^^^ 1) % 2 = (literal + 1) % 2 := Nat.xor_mod_two_eq
  obtain ⟨entry, hentry, rfl⟩ := Option.map_eq_some_iff.mp hget
  have hcan := hwf.canonical _ (Array.mem_of_getElem? hentry)
  rw [get?, hdiv, hentry, Option.map_some, hmod]
  rcases Nat.mod_two_eq_zero_or_one literal with h | h
  · rw [h, show (literal + 1) % 2 = 1 by omega]
    rfl
  · rw [h, show (literal + 1) % 2 = 0 by omega]
    exact congrArg some (TruthTable.not_not hcan).symm

theorem Indexed.nodup_entries (h : c.Indexed) : c.entries.toList.Nodup := by
  refine List.nodup_iff_injective_get.mpr fun i j heq => Fin.ext ?_
  have hget : ∀ i : Fin c.entries.toList.length,
      c.index[c.entries.toList.get i]? = some i.val := fun i =>
    (h i.val _ (by rw [← Array.getElem?_toList, List.getElem?_eq_getElem i.isLt]; rfl)).1
  exact Option.some.inj ((hget i).symm.trans ((congrArg (c.index[·]?) heq).trans (hget j)))

theorem get?_base_falseLiteral : base.get? falseLiteral = some (TruthTable.zero 0) := by
  rw [base_eq]
  rfl

theorem get?_base_identityLiteral : base.get? identityLiteral = some (TruthTable.proj 1 0) := by
  rw [base_eq]
  rfl

/-- Functions that are entered in turn into a new cache have literals that stand for them, then and
whatever is entered later. Equal functions have one literal, complementary functions have literals
that differ in the lowest bit, and no others do. The entries are distinct, all of them are false on
assignment `0`, and the first two are the constant false and the identity throughout. -/
theorem literals_intern_functions (htables : ∀ t ∈ tables, t.Canonical) :
    (base.insertAll tables).1.length = tables.length ∧
    (∀ later : List TruthTable, ∀ entry ∈ tables.zip (base.insertAll tables).1,
      ((base.insertAll tables).2.insertAll later).2.get entry.2 = .ok entry.1) ∧
    (∀ entry ∈ tables.zip (base.insertAll tables).1,
      ∀ entry' ∈ tables.zip (base.insertAll tables).1,
        (entry.2 = entry'.2 ↔ entry.1 = entry'.1) ∧
        (entry.2 ^^^ 1 = entry'.2 ↔ entry.1.Complements entry'.1)) ∧
    (base.insertAll tables).2.entries.toList.Nodup ∧
    (∀ t ∈ (base.insertAll tables).2.entries, t.bit 0 = false) ∧
    (∀ literal ∈ (base.insertAll tables).1, literal < 2 * (base.insertAll tables).2.size) ∧
    (base.insertAll tables).2.get falseLiteral = .ok (TruthTable.zero 0) ∧
    (base.insertAll tables).2.get identityLiteral = .ok (TruthTable.proj 1 0) := by
  have hwf := wellFormed_base.insertAll htables
  have hindexed := indexed_base.insertAll htables
  have hget := get?_insertAll wellFormed_base htables
  have hlength := length_insertAll base tables
  refine ⟨hlength, ?_, ?_, hindexed.nodup_entries, ?_, ?_, ?_, ?_⟩
  · intro later entry hentry
    exact get_eq_ok.mpr (get?_insertAll_of_get? later (hget entry hentry))
  · intro entry hentry entry' hentry'
    have ht := hwf.canonical_of_get? (hget entry hentry)
    have hu := hwf.canonical_of_get? (hget entry' hentry')
    rw [TruthTable.complements_iff ht hu]
    exact ⟨hindexed.get?_iff hwf (hget entry hentry) (hget entry' hentry'),
      hindexed.get?_iff hwf (get?_xor_one hwf (hget entry hentry)) (hget entry' hentry')⟩
  · intro t ht
    obtain ⟨i, hi⟩ := Array.mem_iff_getElem?.mp ht
    exact (hindexed i t hi).2
  · intro literal hliteral
    have hsnd : (tables.zip (base.insertAll tables).1).map Prod.snd = (base.insertAll tables).1 :=
      List.map_snd_zip hlength.le
    obtain ⟨entry, hentry, rfl⟩ := List.mem_map.mp (hsnd ▸ hliteral)
    exact lt_of_get? (hget _ hentry)
  · exact get_eq_ok.mpr (get?_insertAll_of_get? tables get?_base_falseLiteral)
  · exact get_eq_ok.mpr (get?_insertAll_of_get? tables get?_base_identityLiteral)

/-- The conjunction of two variables. -/
def conjunctionOfTwo : TruthTable := (TruthTable.proj 2 0).and (TruthTable.proj 2 1)

/-- The conjunction is entered, then its complement, then the conjunction again. -/
theorem literals_intern_conjunctionOfTwo : ∃ a b c,
    (base.insertAll [conjunctionOfTwo, conjunctionOfTwo.not, conjunctionOfTwo]).1 = [a, b, c] ∧
      a = c ∧ a ^^^ 1 = b ∧
      (base.insertAll [conjunctionOfTwo, conjunctionOfTwo.not, conjunctionOfTwo]).2.get b =
        .ok conjunctionOfTwo.not := by
  have ht : conjunctionOfTwo.Canonical :=
    (TruthTable.canonical_proj (by decide) 0).and (TruthTable.canonical_proj (by decide) 1) rfl
  have htables : ∀ t ∈ [conjunctionOfTwo, conjunctionOfTwo.not, conjunctionOfTwo], t.Canonical :=
    List.forall_mem_cons.mpr ⟨ht, List.forall_mem_cons.mpr ⟨ht.not,
      List.forall_mem_singleton.mpr ht⟩⟩
  obtain ⟨hlength, hget, hliterals, -⟩ := literals_intern_functions htables
  obtain ⟨a, b, c, heq⟩ := List.length_eq_three.mp hlength
  rw [heq] at hget hliterals
  have ha : (conjunctionOfTwo, a) ∈ [conjunctionOfTwo, conjunctionOfTwo.not,
      conjunctionOfTwo].zip [a, b, c] := List.mem_cons_self
  have hb : (conjunctionOfTwo.not, b) ∈ [conjunctionOfTwo, conjunctionOfTwo.not,
      conjunctionOfTwo].zip [a, b, c] := List.mem_cons_of_mem _ List.mem_cons_self
  have hc : (conjunctionOfTwo, c) ∈ [conjunctionOfTwo, conjunctionOfTwo.not,
      conjunctionOfTwo].zip [a, b, c] :=
    List.mem_cons_of_mem _ (List.mem_cons_of_mem _ List.mem_cons_self)
  refine ⟨a, b, c, heq, (hliterals _ ha _ hc).1.mpr rfl, ?_, hget [] _ hb⟩
  exact (hliterals _ ha _ hb).2.mpr ((TruthTable.complements_iff ht ht.not).mpr rfl)

end FunctionCache

end LogicSynthesis
