import LogicSynthesis.Proofs.Network.Assembly

/-!
# Sharing of gates

A gate constructor that is called again finds what it made. The second call returns the same signal
and leaves the network as it is, for as long as no substitution edits the network. Conjunctions and
majorities are found in any order of their operands, and the majority of the complements is the
complement of the majority, in one gate.

## Main definitions

- `Network.Remembers` — a later network finds all gates and functions of an earlier one
- `Build.Repeatable` — a computation that, run again, has the same result and changes nothing
- `Network.Continues` — a network that constructions, annotations and watchers make of another

## Main statements

- `Operator.repeatable` — every operator is repeatable
- `majority_congr`, `majority_negate` — the symmetries of a majority
- `gates_found_again` — gates are found again, up to their symmetries
-/

namespace LogicSynthesis

namespace Network

variable {net mid later net' : Network}

/-- All gates and functions that `net` finds, `later` finds too. -/
structure Remembers (net later : Network) : Prop where
  basis : later.basis = net.basis
  index : ∀ (key : List Signal × Nat) (n : NodeId), net.index[key]? = some n →
    later.index[key]? = some n
  functions : ∀ (t : TruthTable) (i : Nat), net.functions.index[t]? = some i →
    later.functions.index[t]? = some i

namespace Remembers

theorem refl (net : Network) : net.Remembers net := ⟨rfl, fun _ _ h => h, fun _ _ h => h⟩

theorem trans (h : net.Remembers mid) (h' : mid.Remembers later) : net.Remembers later :=
  ⟨h'.basis.trans h.basis, fun key n hn => h'.index key n (h.index key n hn),
    fun t i hi => h'.functions t i (h.functions t i hi)⟩

end Remembers

/-- The gate that was created is in the index, and so is all that was in it before. -/
theorem index_createNode {fanins : List Signal} {literal : Nat} {n : NodeId}
    (h : net.createNode fanins literal = .ok (n, net')) :
    net'.index[(fanins, literal)]? = some n ∧ net.Remembers net' := by
  cases hfound : net.index[(fanins, literal)]? with
  | some m =>
    rw [createNode, hfound] at h
    obtain ⟨rfl, rfl⟩ := Prod.mk.inj (Except.ok.inj h)
    exact ⟨hfound, .refl _⟩
  | none =>
    rcases createNode_eq_ok h with ⟨hsome, -⟩ | ⟨rfl, rfl, -⟩
    · cases hfound.symm.trans hsome
    · have hindex : (net.appendGate fanins literal).2.index =
          net.index.insert (fanins, literal) net.size :=
        congrArg (net.index.insert (fanins, literal)) (appendGate_fst net fanins literal)
      rw [hindex]
      refine ⟨Std.HashMap.getElem?_insert_self, rfl, ?_, fun _ _ hi => hi⟩
      intro key m hm
      rw [hindex, Std.HashMap.getElem?_insert, if_neg, hm]
      intro heq
      rw [← eq_of_beq heq, hfound] at hm
      cases hm

end Network

namespace Build

open Network

variable {α β : Type} {net : Network}

/-- What the computation ends in is remembered. Whenever it is run again on a network that
remembers, it has the same result and leaves that network as it is. -/
def Repeatable (b : Build α) : Prop :=
  ∀ net a net', b net = .ok (a, net') →
    net.Remembers net' ∧ ∀ later, net'.Remembers later → b later = .ok (a, later)

theorem repeatable_pure (a : α) : Repeatable (pure a) := by
  intro net a' net' h
  obtain ⟨rfl, rfl⟩ := Prod.mk.inj (Except.ok.inj h)
  exact ⟨.refl _, fun _ _ => rfl⟩

theorem Repeatable.bind {b : Build α} {f : α → Build β} (hb : b.Repeatable)
    (hf : ∀ a, (f a).Repeatable) : (b >>= f).Repeatable := by
  intro net c net' h
  obtain ⟨⟨a, mid⟩, hrun, h⟩ := bind_eq_ok h
  obtain ⟨hmid, hagain⟩ := hb net a mid hrun
  obtain ⟨hnet', hagain'⟩ := hf a mid c net' h
  refine ⟨hmid.trans hnet', ?_⟩
  intro later hlater
  rw [bind_run (hagain later (hnet'.trans hlater)), hagain' later hlater]

theorem Repeatable.map {b : Build α} (hb : b.Repeatable) (f : α → β) : (f <$> b).Repeatable := by
  intro net c net' h
  obtain ⟨⟨a, mid⟩, hrun, h⟩ := bind_eq_ok h
  obtain ⟨rfl, rfl⟩ := Prod.mk.inj (Except.ok.inj h)
  obtain ⟨hmid, hagain⟩ := hb net a mid hrun
  exact ⟨hmid, fun later hlater => map_run (hagain later hlater)⟩

/-- A computation may depend on the basis. -/
theorem repeatable_get {f : Network → Build α} (hf : ∀ net, (f net).Repeatable)
    (hbasis : ∀ net later, later.basis = net.basis → f later = f net) :
    Repeatable (get >>= f) := by
  intro net a net' h
  obtain ⟨hnet', hagain⟩ := hf net net a net' h
  refine ⟨hnet', ?_⟩
  intro later hlater
  rw [get_run, hbasis net later (hlater.basis.trans hnet'.basis)]
  exact hagain later hlater

theorem repeatable_constant (v : Bool) : (constant v).Repeatable := by
  intro net a net' h
  obtain ⟨rfl, rfl⟩ := Prod.mk.inj (Except.ok.inj h)
  refine ⟨.refl _, ?_⟩
  intro later hlater
  rw [constant, hlater.basis]

theorem repeatable_function (t : TruthTable) : (function t).Repeatable := by
  intro net literal net' h
  have hrun : net.insertFunction t = (literal, net') := Except.ok.inj h
  obtain rfl : (net.functions.insert t).1 = literal := congrArg Prod.fst hrun
  obtain rfl : (net.insertFunction t).2 = net' := congrArg Prod.snd hrun
  refine ⟨⟨rfl, fun _ _ h => h, fun _ _ => FunctionCache.index_insert_of_index⟩, ?_⟩
  intro later hlater
  have hagain := FunctionCache.insert_again hlater.functions
  show Except.ok (later.insertFunction t) = _
  rw [insertFunction, hagain]

theorem repeatable_node (fanins : List Signal) (literal : Nat) :
    (node fanins literal).Repeatable := by
  intro net n net' h
  obtain ⟨hfound, hnet'⟩ := index_createNode h
  exact ⟨hnet', fun later hlater => createNode_of_index (hlater.index _ n hfound)⟩

theorem Repeatable.ite {c : Prop} [Decidable c] {b b' : Build α} (hb : b.Repeatable)
    (hb' : b'.Repeatable) : (if c then b else b').Repeatable := by
  split
  · exact hb
  · exact hb'

theorem repeatable_conjunction (a b : Signal) : (conjunction a b).Repeatable := by
  have hsorted : ∀ {a b : Signal}, a.le b = true → (conjunction a b).Repeatable := by
    intro a b hle
    rw [conjunction_of_le hle]
    refine .ite (.ite (repeatable_pure a) (repeatable_constant false)) (.ite ?_ ?_)
    · exact .ite (repeatable_pure b) (repeatable_constant false)
    · exact (repeatable_node _ _).map _
  by_cases hle : a.le b = true
  · exact hsorted hle
  · rw [conjunction_comm]
    exact hsorted (Signal.le_of_not_le hle)

theorem repeatable_distinctMajority (signals : List Signal) :
    (distinctMajority signals).Repeatable :=
  .ite ((repeatable_node _ _).bind fun _ => repeatable_pure _) ((repeatable_node _ _).map _)

theorem repeatable_majority (a b c : Signal) : (majority a b c).Repeatable := by
  obtain ⟨a', b', c', hsort⟩ := List.length_eq_three.mp (Signal.sort_perm [a, b, c]).length_eq
  unfold majority
  simp only [hsort]
  exact .ite (repeatable_pure _) (.ite (repeatable_pure _) (.ite (repeatable_pure _)
    (repeatable_distinctMajority _)))

theorem repeatable_lut (fanins : List Signal) (t : TruthTable) : (lut fanins t).Repeatable := by
  intro net s net' h
  have hlen := (lut_eq_ok h).1
  have hgate : Repeatable (if fanins.isEmpty then
        constant (t.bit 0)
      else do
        let literal ← function t
        Signal.ofNode <$> node fanins literal : Build Signal) :=
    .ite (repeatable_constant _)
      ((repeatable_function t).bind fun _ => (repeatable_node _ _).map _)
  rw [lut_of_length hlen] at h
  obtain ⟨hnet', hagain⟩ := hgate net s net' h
  refine ⟨hnet', ?_⟩
  intro later hlater
  rw [lut_of_length hlen]
  exact hagain later hlater

/-! ### Operators -/

theorem repeatable_not (a : Signal) : (Build.not a).Repeatable := by
  refine repeatable_get (fun net => ?_) fun net later hbasis => by simp only [hbasis]
  cases net.basis
  · exact repeatable_pure _
  · exact repeatable_pure _
  · exact repeatable_lut _ _

theorem repeatable_and (a b : Signal) : (Build.and a b).Repeatable := by
  refine repeatable_get (fun net => ?_) fun net later hbasis => by simp only [hbasis]
  cases net.basis
  · exact repeatable_conjunction a b
  · exact (repeatable_constant false).bind fun zero => repeatable_majority zero a b
  · exact repeatable_lut _ _

theorem repeatable_or (a b : Signal) : (Build.or a b).Repeatable := by
  refine repeatable_get (fun net => ?_) fun net later hbasis => by simp only [hbasis]
  cases net.basis
  · exact (repeatable_not a).bind fun na => (repeatable_not b).bind fun nb =>
      (repeatable_and na nb).bind repeatable_not
  · exact (repeatable_constant true).bind fun one => repeatable_majority one a b
  · exact repeatable_lut _ _

theorem repeatable_xor (a b : Signal) : (Build.xor a b).Repeatable := by
  have hgates : Repeatable (do
      let nb ← Build.not b
      let na ← Build.not a
      let left ← Build.and a nb
      let right ← Build.and na b
      Build.or left right) :=
    (repeatable_not b).bind fun nb => (repeatable_not a).bind fun na =>
      (repeatable_and a nb).bind fun left => (repeatable_and na b).bind (repeatable_or left)
  refine repeatable_get (fun net => ?_) fun net later hbasis => by simp only [hbasis]
  cases net.basis
  · exact hgates
  · exact hgates
  · exact repeatable_lut _ _

theorem repeatable_ite (a b c : Signal) : (Build.ite a b c).Repeatable := by
  have hgates : Repeatable (do
      let otherwise ← Build.not a
      let left ← Build.and a b
      let right ← Build.and otherwise c
      Build.or left right) :=
    (repeatable_not a).bind fun otherwise => (repeatable_and a b).bind fun left =>
      (repeatable_and otherwise c).bind (repeatable_or left)
  refine repeatable_get (fun net => ?_) fun net later hbasis => by simp only [hbasis]
  cases net.basis
  · exact hgates
  · exact hgates
  · exact repeatable_lut _ _

theorem repeatable_maj (a b c : Signal) : (maj a b c).Repeatable := by
  refine repeatable_get (fun net => ?_) fun net later hbasis => by simp only [hbasis]
  cases net.basis
  · exact (repeatable_and a b).bind fun both => (repeatable_or a b).bind fun either =>
      (repeatable_and c either).bind (repeatable_or both)
  · exact repeatable_majority a b c
  · exact repeatable_lut _ _

end Build

theorem Operator.repeatable (op : Operator) : op.build.Repeatable := by
  cases op with
  | not a => exact Build.repeatable_not a
  | and a b => exact Build.repeatable_and a b
  | or a b => exact Build.repeatable_or a b
  | xor a b => exact Build.repeatable_xor a b
  | ite a b c => exact Build.repeatable_ite a b c
  | maj a b c => exact Build.repeatable_maj a b c
  | lut fanins t => exact Build.repeatable_lut fanins t

/-! ### Symmetries of a majority -/

namespace Build

open Network

variable {a b c : Signal}

/-- The order of the operands does not matter to a majority. -/
theorem majority_congr {x y z : Signal} (h : [x, y, z].Perm [a, b, c]) :
    majority x y z = majority a b c := by
  unfold majority
  rw [Signal.sort_congr h]

theorem majority_of_le (hab : a.le b = true) (hbc : b.le c = true) : majority a b c =
    if a.node = b.node then return if a.negated = b.negated then a else c
    else if b.node = c.node then return if b.negated = c.negated then b else a
    else if a.node = c.node then return if a.negated = c.negated then a else b
    else distinctMajority [a, b, c] := by
  unfold majority
  rw [Signal.sort_of_le hab hbc]

theorem majority_of_lt (hab : a.node < b.node) (hbc : b.node < c.node) :
    majority a b c = distinctMajority [a, b, c] := by
  rw [majority_of_le (Signal.le_iff.mpr (.inl hab)) (Signal.le_iff.mpr (.inl hbc)), if_neg hab.ne,
    if_neg hbc.ne, if_neg (hab.trans hbc).ne]

/-- Two equal operands decide a majority. -/
theorem majority_self (a c : Signal) : majority a a c = pure a := by
  rcases (Bool.or_eq_true _ _).mp (Signal.le_total a c) with hle | hle
  · rw [majority_of_le (Signal.le_refl a) hle, if_pos rfl, if_pos rfl]
  · rw [majority_congr (List.perm_append_comm : ([a, a] ++ [c]).Perm ([c] ++ [a, a])),
      majority_of_le hle (Signal.le_refl a)]
    by_cases hnode : c.node = a.node
    · rw [if_pos hnode]
      rcases Signal.eq_or_eq_negate hnode with rfl | rfl
      · rw [if_pos rfl]
      · rw [if_neg (by simp [Signal.negate])]
    · rw [if_neg hnode, if_pos rfl, if_pos rfl]

/-- Two complementary operands leave a majority to the third. -/
theorem majority_self_negate (a c : Signal) : majority a a.negate c = pure c := by
  have hplain : ∀ a : Signal, a.negated = false → majority a a.negate c = pure c := by
    intro a hplain
    have hnode : a.node = a.negate.node := rfl
    have hpolarity : ¬ a.negated = a.negate.negated := by simp [Signal.negate]
    have hle : a.le a.negate = true :=
      Signal.le_iff.mpr (.inr ⟨rfl, fun h => absurd (hplain.symm.trans h) Bool.false_ne_true⟩)
    by_cases hfirst : c.le a = true
    · have hrotate : [a, a.negate, c].Perm [c, a, a.negate] :=
        (List.perm_append_comm : ([a, a.negate] ++ [c]).Perm ([c] ++ [a, a.negate]))
      rw [majority_congr hrotate, majority_of_le hfirst hle]
      by_cases hsame : c.node = a.node
      · rw [if_pos hsame]
        rcases Signal.eq_or_eq_negate hsame with rfl | rfl
        · rw [if_pos rfl]
        · rw [if_neg (by simp [Signal.negate]), Signal.negate_negate]
      · rw [if_neg hsame, if_pos hnode, if_neg hpolarity]
    · have hac := Signal.le_of_not_le hfirst
      by_cases hlast : a.negate.le c = true
      · rw [majority_of_le hle hlast, if_pos hnode, if_neg hpolarity]
      · -- No third signal stands between the two polarities.
        have hle' : c.node ≤ a.negate.node :=
          Signal.node_le_of_le (Signal.le_of_not_le hlast)
        have hsame := Nat.le_antisymm (Signal.node_le_of_le hac) hle'
        rcases Signal.eq_or_eq_negate hsame with rfl | rfl
        · exact absurd (Signal.le_refl c) hfirst
        · exact absurd (Signal.le_refl _) hlast
  cases hnegated : a.negated with
  | false => exact hplain a hnegated
  | true =>
    have hswap := hplain a.negate (by simp [Signal.negate, hnegated])
    rwa [Signal.negate_negate, majority_congr (.swap a a.negate [c])] at hswap

/-- The complements of three signals have the complementary majority. -/
theorem distinctMajority_negate (a b c : Signal) :
    distinctMajority [a.negate, b.negate, c.negate] =
      Signal.negate <$> distinctMajority [a, b, c] := by
  have hcount : [a.negate, b.negate, c.negate].countP Signal.negated +
      [a, b, c].countP Signal.negated = 3 := by
    obtain ⟨-, p⟩ := a
    obtain ⟨-, q⟩ := b
    obtain ⟨-, r⟩ := c
    cases p <;> cases q <;> cases r <;> rfl
  unfold distinctMajority
  by_cases hmany : 2 ≤ [a, b, c].countP Signal.negated
  · rw [if_pos hmany, if_neg (by omega), map_bind]
    simp only [map_pure, bind_pure_comp]
    rfl
  · rw [if_neg hmany, if_pos (by omega)]
    simp only [List.map_cons, List.map_nil, Signal.negate_negate, Functor.map_map, bind_pure_comp]
    rfl

/-- A majority is self-dual: the complements of its operands have the complementary majority. -/
theorem majority_negate (a b c : Signal) :
    majority a.negate b.negate c.negate = Signal.negate <$> majority a b c := by
  -- Two operands with one driver decide both majorities, in whatever order the operands stand.
  have hpair : ∀ a b c : Signal, a.node = b.node →
      majority a.negate b.negate c.negate = Signal.negate <$> majority a b c := by
    intro a b c hnode
    rcases Signal.eq_or_eq_negate hnode with rfl | rfl
    · rw [majority_self, majority_self, map_pure]
    · rw [majority_self_negate, majority_self_negate, map_pure]
  have hordered : ∀ a b c : Signal, a.le b = true → b.le c = true →
      majority a.negate b.negate c.negate = Signal.negate <$> majority a b c := by
    intro a b c hab hbc
    by_cases hnab : a.node = b.node
    · exact hpair a b c hnab
    by_cases hnbc : b.node = c.node
    · have hrotate : [b, c, a].Perm [a, b, c] :=
        (List.perm_append_comm : ([b, c] ++ [a]).Perm ([a] ++ [b, c]))
      have hpair := hpair b c a hnbc
      rwa [majority_congr hrotate, majority_congr (hrotate.map Signal.negate)] at hpair
    have hlt : a.node < b.node := lt_of_le_of_ne (Signal.node_le_of_le hab) hnab
    have hlt' : b.node < c.node := lt_of_le_of_ne (Signal.node_le_of_le hbc) hnbc
    have hneg : majority a.negate b.negate c.negate =
        distinctMajority [a.negate, b.negate, c.negate] := majority_of_lt hlt hlt'
    rw [hneg, majority_of_lt hlt hlt', distinctMajority_negate]
  have hperm := Signal.sort_perm [a, b, c]
  have hsorted := Signal.pairwise_sort [a, b, c]
  obtain ⟨x, y, z, hsort⟩ := List.length_eq_three.mp hperm.length_eq
  rw [hsort] at hperm hsorted
  simp only [List.pairwise_cons, List.forall_mem_cons] at hsorted
  obtain ⟨⟨hxy, -⟩, ⟨hyz, -⟩, -⟩ := hsorted
  rw [← majority_congr hperm, ← majority_congr (hperm.map Signal.negate)]
  exact hordered x y z hxy hyz

/-! ### Gates over existing signals -/

section Existing

variable {net : Network}

theorem exists_node_run {fanins : List Signal} (hlt : ∀ s ∈ fanins, s.node < net.size)
    (literal : Nat) (f : NodeId → Signal) :
    ∃ s net', (f <$> node fanins literal) net = .ok (s, net') := by
  obtain ⟨n, net', hcreate⟩ := exists_createNode hlt literal
  exact ⟨f n, net', map_run hcreate⟩

theorem exists_conjunction (hlt : ∀ s ∈ [a, b], s.node < net.size) :
    ∃ s net', conjunction a b net = .ok (s, net') := by
  have hsorted : ∀ {a b : Signal}, a.le b = true → (∀ s ∈ [a, b], s.node < net.size) →
      ∃ s net', conjunction a b net = .ok (s, net') := by
    intro a b hle hlt
    rw [conjunction_of_le hle]
    split_ifs
    · exact ⟨_, _, rfl⟩
    · exact ⟨_, _, rfl⟩
    · exact ⟨_, _, rfl⟩
    · exact ⟨_, _, rfl⟩
    · exact exists_node_run hlt _ _
  by_cases hle : a.le b = true
  · exact hsorted hle hlt
  · rw [conjunction_comm]
    refine hsorted (Signal.le_of_not_le hle) fun s hs => ?_
    exact hlt s ((List.Perm.swap a b []).mem_iff.mp hs)

theorem exists_distinctMajority {signals : List Signal}
    (hlt : ∀ s ∈ signals, s.node < net.size) :
    ∃ s net', distinctMajority signals net = .ok (s, net') := by
  unfold distinctMajority
  split_ifs
  · rw [bind_pure_comp]
    refine exists_node_run ?_ _ _
    intro s hs
    obtain ⟨s', hs', rfl⟩ := List.mem_map.mp hs
    exact hlt s' hs'
  · exact exists_node_run hlt _ _

theorem exists_majority (hlt : ∀ s ∈ [a, b, c], s.node < net.size) :
    ∃ s net', majority a b c net = .ok (s, net') := by
  have hperm := Signal.sort_perm [a, b, c]
  obtain ⟨x, y, z, hsort⟩ := List.length_eq_three.mp hperm.length_eq
  rw [hsort] at hperm
  unfold majority
  simp only [hsort]
  split
  · exact ⟨_, _, rfl⟩
  split
  · exact ⟨_, _, rfl⟩
  split
  · exact ⟨_, _, rfl⟩
  · exact exists_distinctMajority fun s hs => hlt s (hperm.mem_iff.mp hs)

theorem exists_lut_run {fanins : List Signal} {t : TruthTable} (hlen : fanins.length = t.numVars)
    (hlt : ∀ s ∈ fanins, s.node < net.size) : ∃ s net', lut fanins t net = .ok (s, net') := by
  rw [lut_of_length hlen]
  split
  · exact ⟨_, _, rfl⟩
  · have hrun : function t net = .ok (net.insertFunction t) := rfl
    have hlt' : ∀ s ∈ fanins, s.node < (net.insertFunction t).2.size := hlt
    rw [bind_run hrun]
    exact exists_node_run hlt' (net.insertFunction t).1 _

end Existing

end Build

namespace Network

variable {net later : Network}

/-! ### Later networks -/

/-- Constructions, annotations and watchers make `later` of `net`. -/
inductive Continues (net : Network) : Network → Prop
  | refl : Continues net net
  | construct {mid later : Network} (former : Continues net mid) (h : mid.Constructs later) :
      Continues net later
  | annotate {mid : Network} (former : Continues net mid) (scratch : Scratch) :
      Continues net (mid.withScratch scratch)
  | watch {mid : Network} (former : Continues net mid) (events : Events) :
      Continues net { mid with events }

theorem Constructs.remembers (h : net.Constructs later) : net.Remembers later := by
  cases h with
  | pi => exact ⟨rfl, fun _ _ h => h, fun _ _ h => h⟩
  | ro => exact ⟨rfl, fun _ _ h => h, fun _ _ h => h⟩
  | po _ hadd =>
    have hadded := addsOutput_of_addPo hadd
    exact ⟨hadded.basis, fun _ _ h => hadded.index ▸ h, fun _ _ h => hadded.functions ▸ h⟩
  | ri _ hadd =>
    have hadded := addsOutput_of_addRi hadd
    exact ⟨hadded.basis, fun _ _ h => hadded.index ▸ h, fun _ _ h => hadded.functions ▸ h⟩
  | @operator op _ _ _ hrun => exact (op.repeatable _ _ _ hrun).1
  | clone _ _ _ hrun =>
    cases hbasis : net.basis with
    | andInverter =>
      obtain ⟨a, b, -, hrun⟩ := Build.cloneNode_andInverter hbasis hrun
      exact (Build.repeatable_conjunction a b _ _ _ hrun).1
    | majorityInverter =>
      obtain ⟨a, b, c, -, hrun⟩ := Build.cloneNode_majorityInverter hbasis hrun
      exact (Build.repeatable_majority a b c _ _ _ hrun).1
    | lookupTable =>
      obtain ⟨t, -, hrun⟩ := Build.cloneNode_lookupTable hbasis hrun
      exact (Build.repeatable_lut _ t _ _ _ hrun).1

theorem Continues.remembers (h : net.Continues later) : net.Remembers later := by
  induction h with
  | refl => exact .refl net
  | construct _ h ih => exact ih.trans h.remembers
  | annotate _ _ ih => exact ⟨ih.basis, ih.index, ih.functions⟩
  | watch _ _ ih => exact ⟨ih.basis, ih.index, ih.functions⟩

/-- Gates are found again, whatever substitutions came before, and for as long as none follows: a
conjunction in both orders of its operands, a majority in all six orders and, as its complement,
over the complements in all six orders, and a lookup table over its fanins. The later calls change
nothing in the network. -/
theorem gates_found_again (net : Network) :
    (net.basis = .andInverter → ∀ a b : Signal, (∀ s ∈ [a, b], s.node < net.size) →
      ∃ s net', Build.and a b net = .ok (s, net') ∧
        ∀ later, net'.Continues later → Build.and b a later = .ok (s, later)) ∧
    (net.basis = .majorityInverter → ∀ a b c : Signal, (∀ s ∈ [a, b, c], s.node < net.size) →
      ∃ s net', Build.maj a b c net = .ok (s, net') ∧
        ∀ later, net'.Continues later → ∀ x y z : Signal, [x, y, z].Perm [a, b, c] →
          Build.maj x y z later = .ok (s, later) ∧
          Build.maj x.negate y.negate z.negate later = .ok (s.negate, later)) ∧
    (net.basis = .lookupTable → ∀ (fanins : List Signal) (t : TruthTable),
      fanins.length = t.numVars → (∀ s ∈ fanins, s.node < net.size) →
        ∃ s net', Build.lut fanins t net = .ok (s, net') ∧
          ∀ later, net'.Continues later → Build.lut fanins t later = .ok (s, later)) := by
  refine ⟨?_, ?_, ?_⟩
  · intro hbasis a b hlt
    have hand : ∀ (net : Network) (a b : Signal), net.basis = .andInverter →
        Build.and a b net = Build.conjunction a b net := by
      intro net a b hbasis
      rw [Build.and, Build.get_run]
      simp only [hbasis]
    obtain ⟨s, net', hrun⟩ := Build.exists_conjunction hlt
    obtain ⟨hnet', hagain⟩ := Build.repeatable_conjunction a b net s net' hrun
    refine ⟨s, net', (hand net a b hbasis).trans hrun, ?_⟩
    intro later hlater
    have hbasis' := hlater.remembers.basis.trans (hnet'.basis.trans hbasis)
    rw [hand later b a hbasis', Build.conjunction_comm]
    exact hagain later hlater.remembers
  · intro hbasis a b c hlt
    have hmaj : ∀ (net : Network) (a b c : Signal), net.basis = .majorityInverter →
        Build.maj a b c net = Build.majority a b c net := by
      intro net a b c hbasis
      rw [Build.maj, Build.get_run]
      simp only [hbasis]
    obtain ⟨s, net', hrun⟩ := Build.exists_majority hlt
    obtain ⟨hnet', hagain⟩ := Build.repeatable_majority a b c net s net' hrun
    refine ⟨s, net', (hmaj net a b c hbasis).trans hrun, ?_⟩
    intro later hlater x y z hperm
    have hbasis' := hlater.remembers.basis.trans (hnet'.basis.trans hbasis)
    have hlater' := hagain later hlater.remembers
    rw [← Build.majority_congr hperm] at hlater'
    rw [hmaj later _ _ _ hbasis', hmaj later _ _ _ hbasis', Build.majority_negate]
    exact ⟨hlater', Build.map_run hlater'⟩
  · intro _ fanins t hlen hlt
    obtain ⟨s, net', hrun⟩ := Build.exists_lut_run hlen hlt
    obtain ⟨-, hagain⟩ := Build.repeatable_lut fanins t net s net' hrun
    exact ⟨s, net', hrun, fun later hlater => hagain later hlater.remembers⟩

/-- The majority of the complements of three inputs, in another order. -/
theorem gates_found_again_threeInputs : ∃ s net',
    Build.maj ⟨1, false⟩ ⟨2, true⟩ ⟨3, true⟩
        (Network.new .majorityInverter).addPi.2.addPi.2.addPi.2 = .ok (s, net') ∧
      Build.maj ⟨3, false⟩ ⟨1, true⟩ ⟨2, false⟩ net' = .ok (s.negate, net') := by
  obtain ⟨-, hmajority, -⟩ :=
    gates_found_again (Network.new .majorityInverter).addPi.2.addPi.2.addPi.2
  obtain ⟨s, net', hrun, hagain⟩ :=
    hmajority rfl ⟨1, false⟩ ⟨2, true⟩ ⟨3, true⟩ (by decide)
  exact ⟨s, net', hrun,
    (hagain net' .refl ⟨3, true⟩ ⟨1, false⟩ ⟨2, true⟩ (by decide)).2⟩

end Network

end LogicSynthesis
