import LogicSynthesis.Proofs.Resynthesis.Matching
import LogicSynthesis.Proofs.Resynthesis.ShannonOracle

/-!
# The proposal of majority matching

What majority matching recognises is the functions of at most one variable and the shapes over
literals of different variables: a constant, a leaf or a match is found for each of them and for
nothing else. What is found is built over the leaves, whatever signals they are, and has the value
of the function. When nothing is found the network stays as it is.

## Main definitions

- `Recognised` — the functions that are recognised
- `Implementation` — what may be found for a function

## Main statements

- `implementation_implement` — what is found
- `Implementation.recognised`, `Implementation.computes` — what is found for a function is right
- `Oracle.majority_answers` — the proposal of the oracle
-/

namespace LogicSynthesis

open Network TruthTable

namespace Majority

variable {t : TruthTable} {n : Nat} {m : Match} {shape : Shape} {net : Network}
  {leaves : List Signal} {p : Assignment → Nat} {build : Build Signal}

/-- The function depends on at most one variable, or it is a shape over literals. -/
def Recognised (t : TruthTable) : Prop :=
  (∀ v w, t.DependsOn v → t.DependsOn w → v = w) ∨ ∃ m : Match, m.Describes t

/-- What may be found for a function over the leaves. -/
inductive Implementation (t : TruthTable) (leaves : List Signal) : Option (Build Signal) → Prop
  | constant {b : Bool} (hbit : ∀ i < 2 ^ t.numVars, t.bit i = b) :
      Implementation t leaves (some (Build.constant b))
  | literal {l : Literal} {leaf : Signal} (hleaf : leaves[l.1]? = some leaf)
      (hbit : ∀ i < 2 ^ t.numVars, t.bit i = literalValue i l) :
      Implementation t leaves (some (Build.withPolarity leaf l.2))
  | shape {m : Match} (h : m.Describes t) : Implementation t leaves (some (m.build leaves))
  | none (h : ¬ Recognised t) : Implementation t leaves none

/-! ### What is found -/

theorem recognised_of_dependsOnlyOn {v : Nat} (h : t.DependsOnlyOn [v]) : Recognised t :=
  .inl fun _ _ hw hw' =>
    (List.mem_singleton.mp (h.mem hw)).trans (List.mem_singleton.mp (h.mem hw')).symm

theorem Implementation.recognised (h : Implementation t leaves (some build)) : Recognised t := by
  cases h with
  | constant hbit =>
    exact recognised_of_dependsOnlyOn (v := 0) fun i hi j hj _ => (hbit i hi).trans (hbit j hj).symm
  | @literal l _ _ hbit =>
    refine recognised_of_dependsOnlyOn (v := l.1) fun i hi j hj hagree => ?_
    rw [hbit i hi, hbit j hj, literalValue, literalValue, hagree l.1 (List.mem_singleton_self _)]
  | shape h => exact .inr ⟨_, h⟩

/-- A function of at most one variable is a constant or a literal. -/
theorem constant_or_literal (ht : t.Canonical)
    (h : ∀ v w, t.DependsOn v → t.DependsOn w → v = w) :
    (∃ b, ∀ i < 2 ^ t.numVars, t.bit i = b) ∨
      ∃ l : Literal, l.1 < t.numVars ∧ ∀ i < 2 ^ t.numVars, t.bit i = literalValue i l := by
  have hdepends : ∀ v ∈ t.support, t.DependsOn v := fun v => (mem_support_iff ht).mp
  match hsupport : t.support with
  | [] => exact .inl (exists_constant ht hsupport)
  | [v] =>
    obtain ⟨negated, hbit⟩ := exists_literal ht hsupport
    exact .inr ⟨(v, negated), (hdepends v (by simp [hsupport])).1, hbit⟩
  | v :: w :: vars =>
    have hne : v ≠ w := by
      have hnodup := nodup_support t
      rw [hsupport] at hnodup
      exact List.ne_of_not_mem_cons (List.nodup_cons.mp hnodup).1
    exact absurd (h v w (hdepends v (by simp [hsupport])) (hdepends w (by simp [hsupport]))) hne

theorem isConst_of_bit (ht : t.Canonical) {b : Bool} (hbit : ∀ i < 2 ^ t.numVars, t.bit i = b) :
    (t.isConst0 || t.isConst1) = true := by
  cases b with
  | true => rw [(isConst1_iff ht).mpr hbit, Bool.or_true]
  | false => rw [(isConst0_iff_of_canonical ht).mpr hbit, Bool.true_or]

theorem bit_eq_isConst1 (ht : t.Canonical) (h : (t.isConst0 || t.isConst1) = true) {i : Nat}
    (hi : i < 2 ^ t.numVars) : t.bit i = t.isConst1 := by
  cases hone : t.isConst1 with
  | true => exact (isConst1_iff ht).mp hone i hi
  | false =>
    rw [hone, Bool.or_false] at h
    exact isConst0_iff.mp h i

theorem eq_literalTable_iff (ht : t.Canonical) (l : Literal) :
    t = literalTable t.numVars l ↔ ∀ i < 2 ^ t.numVars, t.bit i = literalValue i l := by
  obtain ⟨hcanonical, hvars, hbit⟩ := literalTable_spec ht.numVars_le l
  constructor
  · intro heq i hi
    rw [← hbit i hi, ← heq]
  · intro h
    exact ht.ext hcanonical hvars.symm fun i hi => (h i hi).trans (hbit i hi).symm

theorem matchLeaf_cons (t : TruthTable) (leaf : Signal) (i : Nat) (pairs : List (Signal × Nat)) :
    matchLeaf t ((leaf, i) :: pairs) =
      if t = literalTable t.numVars (i, false) then some (Build.withPolarity leaf false)
      else if t = literalTable t.numVars (i, true) then some (Build.withPolarity leaf true)
      else matchLeaf t pairs := rfl

/-- The literal of a leaf is found, or the function is none of them. -/
theorem matchLeaf_cases (t : TruthTable) (pairs : List (Signal × Nat)) :
    (∃ leaf i negated, (leaf, i) ∈ pairs ∧ t = literalTable t.numVars (i, negated) ∧
      matchLeaf t pairs = some (Build.withPolarity leaf negated)) ∨
    matchLeaf t pairs = none ∧
      ∀ leaf i negated, (leaf, i) ∈ pairs → t ≠ literalTable t.numVars (i, negated) := by
  induction pairs with
  | nil => exact .inr ⟨rfl, nofun⟩
  | cons pair pairs ih =>
    obtain ⟨leaf, i⟩ := pair
    rw [matchLeaf_cons]
    by_cases hplain : t = literalTable t.numVars (i, false)
    · exact .inl ⟨leaf, i, false, List.mem_cons_self, hplain, if_pos hplain⟩
    rw [if_neg hplain]
    by_cases hnegated : t = literalTable t.numVars (i, true)
    · exact .inl ⟨leaf, i, true, List.mem_cons_self, hnegated, if_pos hnegated⟩
    rw [if_neg hnegated]
    rcases ih with ⟨leaf', i', negated, hmem, hfound⟩ | ⟨hnone, hne⟩
    · exact .inl ⟨leaf', i', negated, List.mem_cons_of_mem _ hmem, hfound⟩
    · refine .inr ⟨hnone, fun leaf' i' negated hmem => ?_⟩
      rcases List.mem_cons.mp hmem with heq | hmem
      · obtain ⟨rfl, rfl⟩ := Prod.mk.inj heq
        cases negated
        · exact hplain
        · exact hnegated
      · exact hne leaf' i' negated hmem

theorem implementation_implement (ht : t.Canonical) (hlen : t.numVars = leaves.length) :
    Implementation t leaves (implement t leaves) := by
  unfold implement
  by_cases hconst : (t.isConst0 || t.isConst1) = true
  · rw [if_pos hconst]
    exact .constant fun i hi => bit_eq_isConst1 ht hconst hi
  rw [if_neg hconst]
  rcases matchLeaf_cases t leaves.zipIdx with ⟨leaf, i, negated, hmem, heq, hfound⟩ | ⟨hnone, hne⟩
  · rw [hfound]
    exact .literal (l := (i, negated)) (List.mem_zipIdx_iff_getElem?.mp hmem)
      ((eq_literalTable_iff ht _).mp heq)
  rw [hnone]
  cases hmatch : findMatch t with
  | some m => exact .shape (findMatch_describes ht hmatch)
  | none =>
    -- All three searches would have found the function, had it been recognised.
    refine .none ?_
    rintro (hone | ⟨m, hm⟩)
    · rcases constant_or_literal ht hone with ⟨b, hbit⟩ | ⟨l, hl, hbit⟩
      · exact hconst (isConst_of_bit ht hbit)
      · rw [hlen] at hl
        refine hne leaves[l.1] l.1 l.2 ?_ ((eq_literalTable_iff ht l).mpr hbit)
        exact List.mem_zipIdx_iff_getElem?.mpr (List.getElem?_eq_getElem hl)
    · obtain ⟨m', hfound⟩ := exists_findMatch ht hm
      exact Option.some_ne_none m' (hfound.symm.trans hmatch)

/-! ### What is built -/

theorem computes_literalSignal (hnet : net.Proper) (hdriven : Shannon.Driven net leaves n p)
    {l : Literal} (hl : l.1 < n) :
    (literalSignal leaves l).Computes net fun inputs => literalValue (p inputs) l := by
  have hleaf := List.getElem?_eq_getElem (hdriven.length.symm ▸ hl)
  rw [literalSignal, hleaf]
  exact Build.computes_withPolarity hnet (hdriven.leaf l.1 _ hleaf) l.2

/-- The signals of literals, one after the other. -/
theorem literals_grows (hnet : net.Proper) (hdriven : Shannon.Driven net leaves n p)
    {literals : List Literal} (hlt : ∀ l ∈ literals, l.1 < n) :
    Build.Grows (literals.mapM (literalSignal leaves)) net fun signals net' =>
      List.Forall₂ net'.Drives signals
        (literals.map fun l inputs => literalValue (p inputs) l) := by
  refine Build.mapM_run (fun done signals net' => net.GrowsTo net' ∧
    List.Forall₂ net'.Drives signals (done.map fun l inputs => literalValue (p inputs) l))
    ⟨.refl, .nil⟩ ?_
  -- The signals that are there keep their values while the network grows.
  rintro l hl done signals mid ⟨hgrow, hsignals⟩
  have hmid := hgrow.proper hnet
  obtain ⟨s, net', hrun, hgrow', hs⟩ :=
    computes_literalSignal hmid (hdriven.grow hnet hgrow) (hlt l hl)
  refine ⟨s, net', hrun, hgrow.trans hgrow', ?_⟩
  rw [List.map_append, List.map_singleton]
  exact List.rel_append (hsignals.imp fun _ _ h => h.grow hmid hgrow') (.cons hs .nil)

theorem Shape.computes_build (hnet : net.Proper) {signals : List Signal}
    {values : List (Assignment → Bool)} (hlen : values.length = shape.arity)
    (h : List.Forall₂ net.Drives signals values) :
    (shape.build signals).Computes net fun inputs => shape.value (values.map (· inputs)) := by
  cases shape with
  | and2 =>
    obtain ⟨x, y, rfl⟩ := List.length_eq_two.mp hlen
    obtain _ | ⟨ha, _ | ⟨hb, _ | _⟩⟩ := h
    exact (Build.computes_and hnet ha hb).of_eq fun inputs => by simp [value]
  | and3 =>
    obtain ⟨x, y, z, rfl⟩ := List.length_eq_three.mp hlen
    obtain _ | ⟨ha, _ | ⟨hb, _ | ⟨hc, _ | _⟩⟩⟩ := h
    apply (Build.computes_and hnet ha hb).bind
    intro s net' hgrow hs
    exact (Build.computes_and (hgrow.proper hnet) hs (hc.grow hnet hgrow)).of_eq fun inputs => by
      simp [value, Bool.and_assoc]
  | maj3 =>
    obtain ⟨x, y, z, rfl⟩ := List.length_eq_three.mp hlen
    obtain _ | ⟨ha, _ | ⟨hb, _ | ⟨hc, _ | _⟩⟩⟩ := h
    exact (Build.computes_maj hnet ha hb hc).of_eq fun inputs => Build.atLeastTwo_eq _ _ _

theorem Match.Fits.computes_build (hfits : m.Fits n) (hnet : net.Proper)
    (hdriven : Shannon.Driven net leaves n p) :
    (m.build leaves).Computes net fun inputs => m.value (p inputs) := by
  apply (literals_grows hnet hdriven hfits.lt).bind
  intro signals net₁ hgrow₁ hsignals
  have hnet₁ := hgrow₁.proper hnet
  apply (Shape.computes_build hnet₁ (by rw [List.length_map, hfits.arity]) hsignals).bind
  intro s net₂ hgrow₂ hs
  refine (Build.computes_withPolarity (hgrow₂.proper hnet₁) hs m.negated).of_eq fun inputs => ?_
  rw [List.map_map]
  rfl

/-- What is found has the value of the function at the pattern of the leaves. -/
theorem Implementation.computes (h : Implementation t leaves (some build)) (hnet : net.Proper)
    (hdriven : Shannon.Driven net leaves t.numVars p) :
    build.Computes net fun inputs => t.bit (p inputs) := by
  cases h with
  | constant hbit =>
    exact (Build.computes_constant hnet _).of_eq fun inputs => (hbit _ (hdriven.lt inputs)).symm
  | literal hleaf hbit =>
    exact (Build.computes_withPolarity hnet (hdriven.leaf _ _ hleaf) _).of_eq fun inputs =>
      (hbit _ (hdriven.lt inputs)).symm
  | shape h =>
    exact (h.fits.computes_build hnet hdriven).of_eq fun inputs =>
      (h.bit _ (hdriven.lt inputs)).symm

end Majority

namespace Oracle

variable {net : Network} {q : Query}

/-- One signal is proposed for a function that is recognised, and it has the value of the function
whatever the leaves are. For any other function nothing is proposed and the network stays as it
is. -/
theorem majority_answers (hbuilt : net.Built) (hac : net.Acyclic) (hq : q.Valid maxVars net)
    (more : List Signal → Signal → Network → Bool) :
    (Majority.Recognised q.function →
      ∃ s net', (majority.answer () q net).listen (Dialogue.recording more) [] =
          .ok ((), [s], net') ∧ net.GrowsTo net' ∧ s.node < net'.size ∧
        ∀ inputs, net'.signalValue inputs s = q.function.bit (q.pattern net' inputs)) ∧
    (¬ Majority.Recognised q.function →
      (majority.answer () q net).listen (Dialogue.recording more) [] = .ok ((), [], net)) := by
  have hnet : net.Proper := ⟨hbuilt.wellFormed, hac⟩
  have hanswer : majority.answer () q net =
      (Majority.implement q.function q.leaves).elim (.finish () net) (.single · () net) := by
    refine (if_neg (not_not_intro hq.arity)).trans ?_
    cases Majority.implement q.function q.leaves <;> rfl
  have himplement := Majority.implementation_implement hq.canonical hq.arity
  rw [hanswer]
  cases hfound : Majority.implement q.function q.leaves with
  | some build =>
    rw [hfound] at himplement
    refine ⟨fun _ => ?_, fun hnot => absurd himplement.recognised hnot⟩
    obtain ⟨s, net', hrun, hgrow, hs⟩ := himplement.computes hnet (hq.arity.symm ▸ hq.driven)
    refine ⟨s, net', Dialogue.listen_single hrun more, hgrow, hs.lt, fun inputs => ?_⟩
    rw [hs.value, hq.pattern_eq hnet hgrow]
  | none =>
    rw [hfound] at himplement
    obtain - | - | - | hnot := himplement
    exact ⟨fun h => absurd h hnot, fun _ => rfl⟩

/-- A majority of leaves that repeat, one of them complemented. -/
def complementedMajority : Query :=
  { function := .ofWord 3 0xB2
    leaves := [⟨1, false⟩, ⟨5, true⟩, ⟨1, true⟩] }

/-- The parity of two leaves. -/
def parityOfTwo : Query :=
  { function := .ofWord 2 0x6
    leaves := [⟨1, false⟩, ⟨2, false⟩] }

theorem majority_answers_conjunctionOfThree :
    (∃ s net', (majority.answer () complementedMajority conjunctionOfThree).listen
        (Dialogue.recording fun _ _ _ => true) [] = .ok ((), [s], net') ∧
      conjunctionOfThree.GrowsTo net' ∧ s.node < net'.size ∧
      ∀ inputs, net'.signalValue inputs s =
        complementedMajority.function.bit (complementedMajority.pattern net' inputs)) ∧
    (majority.answer () parityOfTwo conjunctionOfThree).listen
      (Dialogue.recording fun _ _ _ => true) [] = .ok ((), [], conjunctionOfThree) := by
  have hmajority : complementedMajority.Valid maxVars conjunctionOfThree :=
    ⟨canonical_ofWord (by decide) _, numVars_ofWord _ _, by decide, by decide, nofun⟩
  have hparity : parityOfTwo.Valid maxVars conjunctionOfThree :=
    ⟨canonical_ofWord (by decide) _, numVars_ofWord _ _, by decide, by decide, nofun⟩
  refine ⟨(majority_answers built_conjunctionOfThree acyclic_conjunctionOfThree hmajority _).1 ?_,
    (majority_answers built_conjunctionOfThree acyclic_conjunctionOfThree hparity _).2 ?_⟩
  · refine .inr ⟨⟨.maj3, [(0, false), (1, true), (2, false)], false⟩, ?_, ?_⟩
    · exact ⟨rfl, by decide, by decide⟩
    · decide +kernel
  · rintro (hone | ⟨m, hm⟩)
    · have hsupport : parityOfTwo.function.support = [0, 1] := by decide +kernel
      have hdepends : ∀ v ∈ [0, 1], parityOfTwo.function.DependsOn v := fun v hv =>
        (mem_support_iff hparity.canonical).mp (hsupport ▸ hv)
      exact absurd (hone 0 1 (hdepends 0 (by decide)) (hdepends 1 (by decide))) (by decide)
    · obtain ⟨m', hfound⟩ := Majority.exists_findMatch hparity.canonical hm
      have hnone : Majority.findMatch parityOfTwo.function = none := by decide +kernel
      exact Option.some_ne_none m' (hfound.symm.trans hnone)

end Oracle

end LogicSynthesis
