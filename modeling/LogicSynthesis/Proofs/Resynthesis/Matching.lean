import LogicSynthesis.Proofs.TruthTable.Dependence
import LogicSynthesis.Proofs.Network.Gates
import LogicSynthesis.Resynthesis.Majority

/-!
# Matching of shapes

A function is matched against the shapes by a search over the polarities of its support. This finds
every function that is a shape over some literals with different variables: the function depends on
each of the variables, for a shape depends on each of its inputs, so the support consists of them,
and in which order they stand does not matter to a shape. A match that is found describes the
function, since equal tables have equal values.

## Main definitions

- `Shape.value`, `Match.value` — the value of a shape, and of a shape over literals
- `Match.Describes` — the match has the values of the function

## Main statements

- `Match.table_spec` — the table of a match has its values
- `Match.Describes.support_perm` — the support consists of the variables of the literals
- `findMatch_describes`, `exists_findMatch` — what is found describes the function, and what
  describes it is found
-/

namespace LogicSynthesis.Majority

open TruthTable

variable {t : TruthTable} {n : Nat} {m : Match} {shape : Shape} {bs bs' : List Bool}

/-- The number of inputs of a shape. -/
def Shape.arity : Shape → Nat
  | and2 => 2
  | and3 | maj3 => 3

/-- The value of a shape: whether all inputs are true, or two of them at least. -/
def Shape.value : Shape → List Bool → Bool
  | and2, bs | and3, bs => bs.all id
  | maj3, bs => 2 ≤ bs.countP id

/-- The value of a literal at an assignment code. -/
def literalValue (code : Nat) (l : Literal) : Bool := code.testBit l.1 ^^ l.2

/-- The value of a match at an assignment code. -/
def Match.value (m : Match) (code : Nat) : Bool :=
  m.shape.value (m.literals.map (literalValue code)) ^^ m.negated

/-- The literals are of different variables, and as many as the shape has inputs. -/
structure Match.Fits (m : Match) (n : Nat) : Prop where
  arity : m.literals.length = m.shape.arity
  nodup : (m.literals.map Prod.fst).Nodup
  lt : ∀ l ∈ m.literals, l.1 < n

/-- The match is the function. -/
structure Match.Describes (m : Match) (t : TruthTable) : Prop where
  fits : m.Fits t.numVars
  bit : ∀ i < 2 ^ t.numVars, t.bit i = m.value i

/-! ### Shapes -/

/-- The order of the inputs does not matter. -/
theorem Shape.value_perm (shape : Shape) (h : bs.Perm bs') : shape.value bs = shape.value bs' := by
  cases shape with
  | and2 => exact h.all_eq
  | and3 => exact h.all_eq
  | maj3 => rw [value, value, h.countP_eq]

/-- Each input matters, whatever it is, for some values of the others. -/
theorem Shape.exists_value_ne (shape : Shape) {k : Nat} (hk : k < shape.arity) :
    ∃ bs : List Bool, bs.length = shape.arity ∧
      shape.value (bs.set k false) ≠ shape.value (bs.set k true) := by
  cases shape with
  | and2 =>
    refine ⟨[true, true], rfl, ?_⟩
    revert k
    decide
  | and3 =>
    refine ⟨[true, true, true], rfl, ?_⟩
    revert k
    decide
  | maj3 =>
    refine ⟨if k = 2 then [true, false, true] else [true, true, false], ?_, ?_⟩
    all_goals
      revert k
      decide

theorem Shape.table_spec {ts : List TruthTable} (hlen : ts.length = shape.arity)
    (hts : ∀ t ∈ ts, t.Canonical ∧ t.numVars = n) :
    (shape.table ts).Canonical ∧ (shape.table ts).numVars = n ∧
      ∀ i, (shape.table ts).bit i = shape.value (ts.map fun t => t.bit i) := by
  cases shape with
  | and2 =>
    obtain ⟨a, b, rfl⟩ := List.length_eq_two.mp hlen
    obtain ⟨⟨ha, hna⟩, ⟨hb, hnb⟩, -⟩ := by simpa only [List.forall_mem_cons] using hts
    have hab := hna.trans hnb.symm
    refine ⟨ha.and hb hab, (numVars_and a b).trans hna, fun i => ?_⟩
    rw [table, bit_and ha hb hab]
    simp [value]
  | and3 =>
    obtain ⟨a, b, c, rfl⟩ := List.length_eq_three.mp hlen
    obtain ⟨⟨ha, hna⟩, ⟨hb, hnb⟩, ⟨hc, hnc⟩, -⟩ := by simpa only [List.forall_mem_cons] using hts
    have hab := hna.trans hnb.symm
    have habc : (a.and b).numVars = c.numVars := (numVars_and a b).trans (hna.trans hnc.symm)
    refine ⟨(ha.and hb hab).and hc habc, (numVars_and _ c).trans ((numVars_and a b).trans hna),
      fun i => ?_⟩
    rw [table, bit_and (ha.and hb hab) hc habc, bit_and ha hb hab]
    simp [value, Bool.and_assoc]
  | maj3 =>
    obtain ⟨a, b, c, rfl⟩ := List.length_eq_three.mp hlen
    obtain ⟨⟨ha, hna⟩, ⟨hb, hnb⟩, ⟨hc, hnc⟩, -⟩ := by simpa only [List.forall_mem_cons] using hts
    have hab := hna.trans hnb.symm
    have hac := hna.trans hnc.symm
    refine ⟨Canonical.maj ha hb hc hab hac, (numVars_maj a b c).trans hna, fun i => ?_⟩
    rw [table, bit_maj ha hb hc hab hac]
    exact Build.atLeastTwo_eq _ _ _

/-! ### Tables of matches -/

theorem literalTable_spec (hn : n ≤ maxVars) (l : Literal) : (literalTable n l).Canonical ∧
    (literalTable n l).numVars = n ∧
      ∀ i < 2 ^ n, (literalTable n l).bit i = literalValue i l := by
  have hproj := canonical_proj hn l.1
  refine ⟨hproj.withPolarity l.2, (numVars_withPolarity _ _).trans (numVars_proj n l.1), ?_⟩
  intro i hi
  rw [literalTable, bit_withPolarity hproj _ (by rwa [numVars_proj]), bit_proj, decide_eq_true hi,
    Bool.true_and, literalValue]

theorem Match.table_spec (hfits : m.Fits n) (hn : n ≤ maxVars) : (m.table n).Canonical ∧
    (m.table n).numVars = n ∧ ∀ i < 2 ^ n, (m.table n).bit i = m.value i := by
  have hlen : (m.literals.map (literalTable n)).length = m.shape.arity := by
    rw [List.length_map, hfits.arity]
  obtain ⟨hcanonical, hvars, hbit⟩ := Shape.table_spec hlen
    (List.forall_mem_map.mpr fun l _ => ⟨(literalTable_spec hn l).1, (literalTable_spec hn l).2.1⟩)
  refine ⟨hcanonical.withPolarity _, (numVars_withPolarity _ _).trans hvars, fun i hi => ?_⟩
  rw [table, bit_withPolarity hcanonical _ (by rwa [hvars]), hbit, List.map_map, value]
  congr 2
  exact List.map_congr_left fun l _ => (literalTable_spec hn l).2.2 i hi

/-- The table of a match is the function just when the match describes it. -/
theorem Match.Fits.table_eq_iff (hfits : m.Fits t.numVars) (ht : t.Canonical) :
    m.table t.numVars = t ↔ m.Describes t := by
  obtain ⟨hcanonical, hvars, hbit⟩ := Match.table_spec hfits ht.numVars_le
  constructor
  · intro heq
    refine ⟨hfits, fun i hi => ?_⟩
    rw [← hbit i hi, heq]
  · intro h
    refine hcanonical.ext ht hvars fun i hi => ?_
    rw [hvars] at hi
    rw [hbit i hi, h.bit i hi]

/-! ### The support of a match -/

/-- The literals take any values at some assignment. -/
theorem Match.Fits.exists_code (hfits : m.Fits n) (hlen : bs.length = m.shape.arity) :
    ∃ i < 2 ^ n, m.literals.map (literalValue i) = bs := by
  have hlt : ∀ v ∈ m.literals.map Prod.fst, v < n := List.forall_mem_map.mpr hfits.lt
  refine ⟨scatter (m.literals.map Prod.fst)
    (codeOf (List.zipWith (fun l b => b ^^ l.2) m.literals bs)), scatter_lt hlt _, ?_⟩
  apply List.ext_getElem
  · rw [List.length_map, hfits.arity, hlen]
  intro k hk hk'
  rw [List.length_map] at hk
  have hvar : (m.literals.map Prod.fst)[k]? = some m.literals[k].1 := by
    rw [List.getElem?_map, List.getElem?_eq_getElem hk, Option.map_some]
  have hbit : (List.zipWith (fun (l : Literal) b => b ^^ l.2) m.literals bs)[k]? =
      some (bs[k] ^^ m.literals[k].2) := by
    rw [List.getElem?_zipWith, List.getElem?_eq_getElem hk, List.getElem?_eq_getElem hk']
  rw [List.getElem_map, literalValue, testBit_scatter hfits.nodup hvar, testBit_codeOf, hbit,
    Option.getD_some, Bool.xor_assoc, Bool.xor_self, Bool.xor_false]

theorem Match.Describes.dependsOnlyOn (h : m.Describes t) :
    t.DependsOnlyOn (m.literals.map Prod.fst) := by
  intro i hi j hj hagree
  rw [h.bit i hi, h.bit j hj, value, value]
  congr 2
  refine List.map_congr_left fun l hl => ?_
  rw [literalValue, literalValue, hagree l.1 (List.mem_map_of_mem hl)]

/-- Where two assignments give the same value to all literals but one, they agree on the variables
of the others. -/
theorem Match.testBit_eq {i j k : Nat} {b b' : Bool}
    (hi : m.literals.map (literalValue i) = bs.set k b)
    (hj : m.literals.map (literalValue j) = bs.set k b') {l : Literal} {k' : Nat}
    (hl : m.literals[k']? = some l) (hne : k' ≠ k) : i.testBit l.1 = j.testBit l.1 := by
  have hvalues : (m.literals.map (literalValue i))[k']? =
      (m.literals.map (literalValue j))[k']? := by
    rw [hi, hj, List.getElem?_set_ne hne.symm, List.getElem?_set_ne hne.symm]
  rw [List.getElem?_map, List.getElem?_map, hl] at hvalues
  exact Bool.xor_left_inj.mp (Option.some.inj hvalues)

/-- The function depends on the variable of each literal: were it not so, two assignments that
differ there would have one value. -/
theorem Match.Describes.dependsOn (h : m.Describes t) (ht : t.Canonical) {v : Nat}
    (hv : v ∈ m.literals.map Prod.fst) : t.DependsOn v := by
  obtain ⟨l, hl, rfl⟩ := List.mem_map.mp hv
  obtain ⟨k, hk⟩ := List.mem_iff_getElem?.mp hl
  have harity : k < m.shape.arity := h.fits.arity ▸ (List.getElem?_eq_some_iff.mp hk).1
  obtain ⟨bs, hlen, hne⟩ := m.shape.exists_value_ne harity
  have hset : ∀ b, (bs.set k b).length = m.shape.arity := fun b => by rw [List.length_set, hlen]
  obtain ⟨i, hi, hmapi⟩ := h.fits.exists_code (hset false)
  obtain ⟨j, hj, hmapj⟩ := h.fits.exists_code (hset true)
  by_contra hnot
  have hbit : t.bit i = t.bit j := by
    refine dependsOnlyOn_support ht i hi j hj fun w hw => ?_
    have hdepends := (mem_support_iff ht).mp hw
    obtain ⟨l', hl', rfl⟩ := List.mem_map.mp (h.dependsOnlyOn.mem hdepends)
    obtain ⟨k', hfound⟩ := List.mem_iff_getElem?.mp hl'
    refine Match.testBit_eq hmapi hmapj hfound ?_
    rintro rfl
    obtain rfl := Option.some.inj (hk.symm.trans hfound)
    exact hnot hdepends
  rw [h.bit i hi, h.bit j hj, value, value, hmapi, hmapj] at hbit
  exact hne (Bool.xor_left_inj.mp hbit)

theorem Match.Describes.support_perm (h : m.Describes t) (ht : t.Canonical) :
    t.support.Perm (m.literals.map Prod.fst) :=
  TruthTable.support_perm ht h.fits.nodup h.dependsOnlyOn fun _ => h.dependsOn ht

/-! ### The search -/

theorem mem_shapes {k : Nat} : shape ∈ shapes k ↔ shape.arity = k := by
  match k with
  | 2 => cases shape <;> decide
  | 3 => cases shape <;> decide
  | 0 | 1 | k + 4 => cases shape <;> simp [shapes, Shape.arity]

/-- All polarities of so many literals are tried. -/
theorem mem_polarities {k : Nat} : bs ∈ polarities k ↔ bs.length = k := by
  rw [polarities, List.mem_map]
  constructor
  · rintro ⟨code, -, rfl⟩
    rw [List.length_map, List.length_range]
  · rintro rfl
    refine ⟨codeOf bs, ?_, ?_⟩
    · rw [List.mem_range, Nat.one_shiftLeft]
      exact codeOf_lt bs
    · apply List.ext_getElem
      · rw [List.length_map, List.length_range]
      intro k hk hk'
      rw [List.getElem_map, List.getElem_range, testBit_codeOf, List.getElem?_eq_getElem hk',
        Option.getD_some]

theorem mem_candidates {vars : List Nat} : m ∈ candidates vars ↔
    m.shape.arity = vars.length ∧ m.literals.map Prod.fst = vars := by
  simp only [candidates, List.mem_flatMap, List.mem_map, mem_shapes, mem_polarities]
  constructor
  · rintro ⟨shape, hshape, polarity, hlen, negated, -, rfl⟩
    exact ⟨hshape, List.map_fst_zip hlen.ge⟩
  · rintro ⟨hshape, hvars⟩
    refine ⟨m.shape, hshape, m.literals.map Prod.snd, ?_, m.negated, ?_, ?_⟩
    · rw [List.length_map, ← hvars, List.length_map]
    · cases m.negated <;> decide
    · rw [← List.zip_of_prod hvars rfl]

theorem fits_of_mem_candidates (h : m ∈ candidates t.support) : m.Fits t.numVars := by
  obtain ⟨harity, hvars⟩ := mem_candidates.mp h
  refine ⟨?_, hvars ▸ nodup_support t, fun l hl => ?_⟩
  · rw [harity, ← hvars, List.length_map]
  · exact (mem_support.mp (hvars ▸ List.mem_map_of_mem hl)).1

/-- A match that is found describes the function. -/
theorem findMatch_describes (ht : t.Canonical) (h : findMatch t = some m) : m.Describes t := by
  have hfound : (m.table t.numVars == t) = true :=
    List.find?_some (p := fun m : Match => m.table t.numVars == t) h
  have hfits := fits_of_mem_candidates (List.mem_of_find?_eq_some h)
  exact (hfits.table_eq_iff ht).mp (eq_of_beq hfound)

/-- The match with its literals in ascending order. -/
def Match.sorted (m : Match) : Match :=
  { m with literals := m.literals.mergeSort fun a b => a.1 ≤ b.1 }

theorem Match.literals_sorted_perm (m : Match) : m.sorted.literals.Perm m.literals :=
  List.mergeSort_perm _ _

theorem Match.Describes.sorted (h : m.Describes t) : m.sorted.Describes t := by
  have hperm := m.literals_sorted_perm
  refine ⟨⟨hperm.length_eq.trans h.fits.arity, ?_, ?_⟩, fun i hi => ?_⟩
  · exact (hperm.map _).nodup_iff.mpr h.fits.nodup
  · exact fun l hl => h.fits.lt l (hperm.mem_iff.mp hl)
  · rw [h.bit i hi, value, value]
    exact congrArg (· ^^ m.negated) (m.shape.value_perm (hperm.map _).symm)

/-- The variables of the sorted literals are the support in its order. -/
theorem Match.Describes.map_fst_sorted (h : m.Describes t) (ht : t.Canonical) :
    m.sorted.literals.map Prod.fst = t.support := by
  have hperm := h.sorted.support_perm ht
  have hsorted : m.sorted.literals.Pairwise fun a b => a.1 ≤ b.1 := by
    have hle := @List.pairwise_mergeSort Literal (fun a b => decide (a.1 ≤ b.1))
      (fun a b c => by simpa using Nat.le_trans) (fun a b => by simpa using Nat.le_total a.1 b.1)
      m.literals
    exact hle.imp fun hab => of_decide_eq_true hab
  exact hperm.symm.eq_of_pairwise (fun _ _ _ _ => Nat.le_antisymm)
    (List.pairwise_map.mpr hsorted) ((pairwise_support t).imp Nat.le_of_lt)

/-- What describes the function is found, with its literals in the order of the support. -/
theorem exists_findMatch (ht : t.Canonical) (h : m.Describes t) :
    ∃ m', findMatch t = some m' := by
  have hvars := h.map_fst_sorted ht
  have hmem : m.sorted ∈ candidates t.support := by
    refine mem_candidates.mpr ⟨?_, hvars⟩
    rw [← h.sorted.fits.arity, ← hvars, List.length_map]
  refine Option.isSome_iff_exists.mp (List.find?_isSome.mpr ⟨m.sorted, hmem, ?_⟩)
  exact beq_iff_eq.mpr ((h.sorted.fits.table_eq_iff ht).mpr h.sorted)

end LogicSynthesis.Majority
