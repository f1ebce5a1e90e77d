import LogicSynthesis.Proofs.Network.Gates
import LogicSynthesis.Proofs.Resynthesis.FreeVariables

/-!
# The construction by Shannon decomposition

The leaves form a pattern under every assignment of the inputs. A signal realizes a function on a
care set when it has the value of the function on every pattern that matters. The construction ends
in such a signal, for it is deep enough: each split takes a variable away from the two tables, and
dropping variables brings none back. What the memo holds are such signals too, so the constructions
for one variable after the other may share it.

## Main definitions

- `Shannon.Driven` — leaves that form the variables of a pattern
- `Shannon.Realizes` — a signal that has the value of the function where it matters
- `Shannon.Remembers` — a memo of such signals

## Main statements

- `terminal_grows`, `join_grows` — functions that need no split, and the join of the cofactors
- `build_grows` — the construction
-/

namespace LogicSynthesis.Shannon

open Network TruthTable

variable {n v depth : Nat} {net net' : Network} {leaves : List Signal}
  {p : Assignment → Nat} {on care on' care' function : TruthTable} {s : Signal} {memo : Memo}

/-- There are leaves for `n` variables, and each has the value of its variable in the pattern. -/
structure Driven (net : Network) (leaves : List Signal) (n : Nat) (p : Assignment → Nat) :
    Prop where
  length : leaves.length = n
  lt : ∀ inputs, p inputs < 2 ^ n
  leaf : ∀ (i : Nat) (s : Signal), leaves[i]? = some s →
    net.Drives s fun inputs => (p inputs).testBit i

theorem Driven.grow (h : Driven net leaves n p) (hnet : net.Proper) (hgrow : net.GrowsTo net') :
    Driven net' leaves n p :=
  ⟨h.length, h.lt, fun i s hs => (h.leaf i s hs).grow hnet hgrow⟩

/-- The signal exists and has the value of `on` on the patterns of `care`. -/
structure Realizes (net : Network) (p : Assignment → Nat) (on care : TruthTable) (s : Signal) :
    Prop where
  lt : s.node < net.size
  value : ∀ inputs, care.bit (p inputs) = true → net.signalValue inputs s = on.bit (p inputs)

theorem Realizes.grow (h : Realizes net p on care s) (hnet : net.Proper)
    (hgrow : net.GrowsTo net') : Realizes net' p on care s := by
  have hext := hgrow.extends hnet.wellFormed
  refine ⟨lt_of_lt_of_le h.lt hext.size_le, ?_⟩
  intro inputs hcare
  rw [hext.signalValue_eq hnet.wellFormed hnet.acyclic inputs h.lt]
  exact h.value inputs hcare

/-- What is realized where more matters is realized where less does. -/
theorem Realizes.of_refines (h : Realizes net p on' care' s)
    (hrefines : Refines on care on' care') : Realizes net p on care s := by
  refine ⟨h.lt, ?_⟩
  intro inputs hcare
  obtain ⟨hcare', hon⟩ := hrefines _ hcare
  exact (h.value inputs hcare').trans hon

theorem realizes_of_drives {x : Assignment → Bool} (h : net.Drives s x)
    (hvalue : ∀ inputs, care.bit (p inputs) = true → x inputs = on.bit (p inputs)) :
    Realizes net p on care s :=
  ⟨h.lt, fun inputs hcare => (h.value inputs).trans (hvalue inputs hcare)⟩

/-- Every signal in the memo realizes what it is kept for. -/
def Remembers (net : Network) (p : Assignment → Nat) (memo : Memo) : Prop :=
  ∀ on care s, memo[(on, care)]? = some s → Realizes net p on care s

theorem remembers_empty (net : Network) (p : Assignment → Nat) : Remembers net p ∅ := by
  intro on care s hs
  rw [Std.HashMap.getElem?_empty] at hs
  cases hs

theorem Remembers.grow (h : Remembers net p memo) (hnet : net.Proper)
    (hgrow : net.GrowsTo net') : Remembers net' p memo :=
  fun on care s hs => (h on care s hs).grow hnet hgrow

theorem Remembers.insert (h : Remembers net p memo) (hs : Realizes net p on care s) :
    Remembers net p (memo.insert (on, care) s) := by
  intro on' care' s' hs'
  rw [Std.HashMap.getElem?_insert] at hs'
  split at hs'
  · next heq =>
    obtain ⟨rfl, rfl⟩ := Prod.mk.inj (beq_iff_eq.mp heq)
    obtain rfl := Option.some.inj hs'
    exact hs
  · exact h on' care' s' hs'

/-! ### Functions that need no split -/

theorem bit_xor_and (h : Within n on care) {t : TruthTable} (ht : t.Canonical)
    (hn : t.numVars = n) (i : Nat) :
    ((on.xor t).and care).bit i = ((on.bit i ^^ t.bit i) && care.bit i) := by
  have hvars : on.numVars = t.numVars := h.on_vars.trans hn.symm
  have hvars' : (on.xor t).numVars = care.numVars := by
    rw [h.care_vars]
    simpa using h.on_vars
  rw [bit_and (h.on_canonical.xor ht hvars) h.care_canonical hvars',
    bit_xor h.on_canonical ht hvars]

/-- A table that agrees with the function wherever it matters. -/
theorem agrees_of_isConst0 (h : Within n on care) {t : TruthTable} (ht : t.Canonical)
    (hn : t.numVars = n) (hconst : ((on.xor t).and care).isConst0 = true) {i : Nat}
    (hi : care.bit i = true) : t.bit i = on.bit i := by
  have hbit := isConst0_iff.mp hconst i
  rw [bit_xor_and h ht hn, hi, Bool.and_true] at hbit
  revert hbit
  cases on.bit i <;> cases t.bit i <;> simp

theorem matchLeaf_grows (hnet : net.Proper) (h : Within n on care)
    (hlt : ∀ inputs, p inputs < 2 ^ n) {pairs : List (Signal × Nat)}
    (hpairs : ∀ q ∈ pairs, net.Drives q.1 fun inputs => (p inputs).testBit q.2) :
    (matchLeaf on care pairs).Grows net fun r net' =>
      ∀ s, r = some s → Realizes net' p on care s := by
  have hproj : ∀ i, (proj n i).Canonical :=
    canonical_proj (h.on_vars ▸ h.on_canonical.numVars_le)
  induction pairs with
  | nil =>
    apply Build.grows_pure
    rintro s ⟨⟩
  | cons q pairs ih =>
    obtain ⟨leaf, i⟩ := q
    have hleaf := hpairs _ List.mem_cons_self
    have hbit : ∀ inputs, (proj n i).bit (p inputs) = (p inputs).testBit i := by
      intro inputs
      rw [bit_proj, decide_eq_true (hlt inputs), Bool.true_and]
    have hvars : (proj n i).numVars = n := numVars_proj n i
    rw [matchLeaf, h.on_vars]
    by_cases hsame : ((on.xor (proj n i)).and care).isConst0 = true
    · rw [if_pos hsame]
      apply Build.grows_pure
      rintro s ⟨⟩
      apply realizes_of_drives hleaf
      intro inputs hcare
      rw [← agrees_of_isConst0 h (hproj i) hvars hsame hcare, hbit]
    rw [if_neg hsame]
    by_cases hopposite : ((on.xor (proj n i).not).and care).isConst0 = true
    · rw [if_pos hopposite]
      apply (Build.computes_not hnet hleaf).bind
      intro s net' _ hs
      apply Build.grows_pure
      rintro _ ⟨⟩
      apply realizes_of_drives hs
      intro inputs hcare
      rw [← agrees_of_isConst0 h (hproj i).not ((numVars_not _).trans hvars) hopposite hcare,
        bit_not (hproj i), hbit, hvars, decide_eq_true (hlt inputs), Bool.true_and]
    · rw [if_neg hopposite]
      exact ih fun q hq => hpairs q (List.mem_cons_of_mem _ hq)

theorem terminal_grows (hnet : net.Proper) (hdriven : Driven net leaves n p)
    (h : Within n on care) : (terminal leaves on care).Grows net fun r net' =>
      (∀ s, r = some s → Realizes net' p on care s) ∧
        (r = none → on.isConst0 = false ∧ on ≠ care) := by
  unfold terminal
  by_cases hzero : on.isConst0 = true
  · rw [if_pos hzero]
    apply (Build.computes_constant hnet false).map
    intro s net' _ hs
    refine ⟨?_, nofun⟩
    rintro _ ⟨⟩
    exact realizes_of_drives hs fun inputs _ => (isConst0_iff.mp hzero _).symm
  rw [if_neg hzero]
  by_cases hone : on = care
  · rw [if_pos hone]
    apply (Build.computes_constant hnet true).map
    intro s net' _ hs
    refine ⟨?_, nofun⟩
    rintro _ ⟨⟩
    apply realizes_of_drives hs
    intro inputs hcare
    rw [hone, hcare]
  rw [if_neg hone]
  have hpairs : ∀ q ∈ leaves.zipIdx, net.Drives q.1 fun inputs => (p inputs).testBit q.2 := by
    rintro ⟨leaf, i⟩ hq
    exact hdriven.leaf i leaf (List.mem_zipIdx_iff_getElem?.mp hq)
  apply (matchLeaf_grows hnet h hdriven.lt hpairs).mono
  intro r net' _ hr
  exact ⟨hr, fun _ => ⟨Bool.not_eq_true _ ▸ hzero, hone⟩⟩

/-! ### The variable to split on -/

/-- A function without support is constant, so a function that is neither constant has support. -/
theorem exists_hasVar (h : Within n on care) (hzero : on.isConst0 = false) (hone : on ≠ care) :
    ∃ v < n, on.hasVar v = true := by
  by_contra hnone
  push Not at hnone
  have hsame : ∀ i < 2 ^ n, ∀ j < 2 ^ n, on.bit i = on.bit j := by
    intro i hi j hj
    rw [← h.on_vars] at hi hj
    apply bit_eq_of_support h.on_canonical hi hj
    intro w hw
    obtain ⟨hw, hvar⟩ := mem_support.mp hw
    exact absurd hvar (hnone w (hw.trans_eq h.on_vars))
  obtain ⟨i, hi⟩ : ∃ i, on.bit i = true := by
    by_contra hfalse
    push Not at hfalse
    rw [isConst0_iff.mpr fun i => Bool.eq_false_iff.mpr (hfalse i)] at hzero
    cases hzero
  have hi' : i < 2 ^ n := h.on_vars ▸ h.on_canonical.lt_of_bit hi
  apply hone
  apply h.on_canonical.ext h.care_canonical (h.on_vars.trans h.care_vars.symm)
  intro j hj
  have hj' : on.bit j = true := (hsame j (h.on_vars ▸ hj) i hi').trans hi
  rw [hj', h.within j hj']

theorem splitVar_spec (h : Within n on care) (hzero : on.isConst0 = false) (hone : on ≠ care)
    {preferred : Option Nat} (hpreferred : ∀ v, preferred = some v → v < n) :
    ∃ v, splitVar on preferred = some v ∧ v < n ∧ on.hasVar v = true := by
  unfold splitVar
  cases hfilter : preferred.filter on.hasVar with
  | some v =>
    obtain ⟨hv, hvar⟩ := Option.filter_eq_some_iff.mp hfilter
    exact ⟨v, rfl, hpreferred v hv, hvar⟩
  | none =>
    obtain ⟨w, hw, hvar⟩ := exists_hasVar h hzero hone
    cases hfind : (List.range on.numVars).reverse.find? on.hasVar with
    | none =>
      have hmem : w ∈ (List.range on.numVars).reverse :=
        List.mem_reverse.mpr (List.mem_range.mpr (hw.trans_eq h.on_vars.symm))
      exact absurd hvar (List.find?_eq_none.mp hfind w hmem)
    | some v =>
      have hmem := List.mem_range.mp (List.mem_reverse.mp (List.mem_of_find?_eq_some hfind))
      exact ⟨v, rfl, hmem.trans_eq h.on_vars, List.find?_some hfind⟩

/-! ### Joining the cofactors -/

theorem constantOf_run (hac : net.Acyclic) (hs : s.node < net.size) :
    ∃ c, constantOf s net = .ok (c, net) ∧
      ∀ value, c = some value → ∀ inputs, net.signalValue inputs s = value := by
  obtain ⟨node, hnode⟩ := exists_node hs
  unfold constantOf Build.ask
  simp only [node_eq hnode, ok_bind]
  cases hkind : node.kind with
  | constant constant =>
    refine ⟨some (constant ^^ s.negated), rfl, ?_⟩
    intro value hvalue inputs
    obtain rfl := Option.some.inj hvalue
    rw [signalValue, edgeValue, value_of_constant hac hnode hkind]
  | _ =>
    refine ⟨none, rfl, ?_⟩
    intro value hvalue
    cases hvalue

section Join

variable {s0 s1 x : Signal}

/-- Choosing between the cofactors gives the function. -/
theorem select_cofactor (h : Within n on care) (hv : v < n)
    (h0 : Realizes net p (on.cofactor0 v) (care.cofactor0 v) s0)
    (h1 : Realizes net p (on.cofactor1 v) (care.cofactor1 v) s1) (inputs : Assignment)
    (hcare : care.bit (p inputs) = true) :
    (bif (p inputs).testBit v then net.signalValue inputs s1 else net.signalValue inputs s0) =
      on.bit (p inputs) := by
  have hon : v < on.numVars := hv.trans_eq h.on_vars.symm
  have hcare' : v < care.numVars := hv.trans_eq h.care_vars.symm
  cases hbit : (p inputs).testBit v with
  | false =>
    have hself : setVar (p inputs) v false = p inputs := setVar_of_eq hbit
    have hvalue := h0.value inputs
    rw [bit_cofactor0 h.on_canonical hon, bit_cofactor0 h.care_canonical hcare', hself] at hvalue
    exact hvalue hcare
  | true =>
    have hself : setVar (p inputs) v true = p inputs := setVar_of_eq hbit
    have hvalue := h1.value inputs
    rw [bit_cofactor1 h.on_canonical hon, bit_cofactor1 h.care_canonical hcare', hself] at hvalue
    exact hvalue hcare

/-- Complementary cofactors have complementary values on every pattern that matters. -/
theorem opposite_of_areComplementary (h : Within n on care) (hv : v < n)
    (h0 : Realizes net p (on.cofactor0 v) (care.cofactor0 v) s0)
    (h1 : Realizes net p (on.cofactor1 v) (care.cofactor1 v) s1)
    (hcomplementary : areComplementary (on.cofactor0 v) (care.cofactor0 v) (on.cofactor1 v)
      (care.cofactor1 v) = true) (inputs : Assignment) (hcare : care.bit (p inputs) = true) :
    net.signalValue inputs s1 = !net.signalValue inputs s0 := by
  obtain ⟨hsame, hopposite⟩ := Bool.and_eq_true_iff.mp hcomplementary
  have hsame := beq_iff_eq.mp hsame
  have hopposite := beq_iff_eq.mp hopposite
  have hcare' : v < care.numVars := hv.trans_eq h.care_vars.symm
  have hmatters : (care.cofactor0 v).bit (p inputs) = true := by
    rcases setVar_self (p inputs) v with hself | hself
    · rwa [bit_cofactor0 h.care_canonical hcare', hself]
    · rwa [hsame, bit_cofactor1 h.care_canonical hcare', hself]
  have hbit := congrArg (TruthTable.bit · (p inputs)) hopposite
  have hwithin := (isCofactor_cofactor0 h.on_canonical (hv.trans_eq h.on_vars.symm)).within
    (isCofactor_cofactor0 h.care_canonical hcare') h
  rw [bit_xor_and hwithin (h.on_canonical.cofactor1 v) (by simpa using h.on_vars),
    hmatters, Bool.and_true] at hbit
  rw [h0.value inputs hmatters, h1.value inputs (hsame ▸ hmatters)]
  revert hbit
  cases (on.cofactor0 v).bit (p inputs) <;> cases (on.cofactor1 v).bit (p inputs) <;> simp

theorem join_grows (hnet : net.Proper) (h : Within n on care) (hv : v < n)
    (hx : net.Drives x fun inputs => (p inputs).testBit v)
    (h0 : Realizes net p (on.cofactor0 v) (care.cofactor0 v) s0)
    (h1 : Realizes net p (on.cofactor1 v) (care.cofactor1 v) s1) :
    (join x s0 s1 (areComplementary (on.cofactor0 v) (care.cofactor0 v) (on.cofactor1 v)
      (care.cofactor1 v))).Grows net fun s net' => Realizes net' p on care s := by
  have hs0 := drives_self h0.lt
  have hs1 := drives_self h1.lt
  -- It is enough that the operator chooses between the cofactors where it matters.
  have hjoin : ∀ {b : Build Signal} {z : Assignment → Bool}, b.Computes net z →
      (∀ inputs, care.bit (p inputs) = true → z inputs =
        bif (p inputs).testBit v then net.signalValue inputs s1
          else net.signalValue inputs s0) →
        b.Grows net fun s net' => Realizes net' p on care s := by
    intro b z hb hz
    apply hb.mono
    intro s net' _ hs
    apply realizes_of_drives hs
    intro inputs hcare
    rw [hz inputs hcare, select_cofactor h hv h0 h1 inputs hcare]
  have hnx := Build.computes_not hnet hx
  obtain ⟨c0, hrun0, hc0⟩ := constantOf_run hnet.acyclic h0.lt
  obtain ⟨c1, hrun1, hc1⟩ := constantOf_run hnet.acyclic h1.lt
  unfold join
  by_cases heq : s0 = s1
  · rw [if_pos heq]
    apply hjoin (Build.computes_pure hs0)
    intro inputs _
    rw [heq, Bool.cond_self]
  rw [if_neg heq, Build.Grows, Build.bind_run hrun0, Build.bind_run hrun1]
  cases c0 with
  | some value0 =>
    cases value0 with
    | false =>
      apply hjoin (Build.computes_and hnet hx hs1)
      intro inputs _
      rw [hc0 _ rfl]
      cases (p inputs).testBit v <;> rfl
    | true =>
      apply hjoin (hnx.bind fun nx net' hgrow hnx' =>
        Build.computes_or (hgrow.proper hnet) hnx' (hs1.grow hnet hgrow))
      intro inputs _
      rw [hc0 _ rfl]
      cases (p inputs).testBit v <;> simp
  | none =>
    cases c1 with
    | some value1 =>
      cases value1 with
      | false =>
        apply hjoin (hnx.bind fun nx net' hgrow hnx' =>
          Build.computes_and (hgrow.proper hnet) hnx' (hs0.grow hnet hgrow))
        intro inputs _
        rw [hc1 _ rfl]
        cases (p inputs).testBit v <;> simp
      | true =>
        apply hjoin (Build.computes_or hnet hx hs0)
        intro inputs _
        rw [hc1 _ rfl]
        cases (p inputs).testBit v <;> simp
    | none =>
      dsimp only
      split
      · next hcomplementary =>
        apply hjoin (Build.computes_xor hnet hx hs0)
        intro inputs hcare
        rw [opposite_of_areComplementary h hv h0 h1 hcomplementary inputs hcare]
        cases (p inputs).testBit v <;> simp
      · exact hjoin (Build.computes_ite hnet hx hs1 hs0) fun inputs _ => rfl

end Join

/-! ### The construction -/

/-- Whatever the memo holds, as long as it is right, the computation ends with a memo that is right
and with an outcome that satisfies `post`, and the network only grows. -/
def Yields {α : Type} (b : Builder α) (net : Network) (p : Assignment → Nat)
    (post : α → Network → Prop) : Prop :=
  ∀ memo, Remembers net p memo →
    Build.Grows (b.run memo) net fun r net' => Remembers net' p r.2 ∧ post r.1 net'

section Rules

variable {α β : Type} {post : α → Network → Prop} {goal : β → Network → Prop}

theorem yields_pure {a : α} (h : post a net) : Yields (pure a) net p post :=
  fun _ hmemo => Build.grows_pure ⟨hmemo, h⟩

theorem yields_lift (hnet : net.Proper) {b : Build α} (h : b.Grows net post) :
    Yields (liftM b) net p post := by
  intro memo hmemo
  show Build.Grows (b >>= fun a => pure (a, memo)) net _
  apply h.bind
  intro a net' hgrow hpost
  exact Build.grows_pure ⟨hmemo.grow hnet hgrow, hpost⟩

theorem Yields.bind {b : Builder α} {f : α → Builder β} (h : Yields b net p post)
    (hf : ∀ a net', net.GrowsTo net' → post a net' → Yields (f a) net' p goal) :
    Yields (b >>= f) net p goal := by
  intro memo hmemo
  rw [StateT.run_bind]
  apply (h memo hmemo).bind
  rintro ⟨a, memo'⟩ net' hgrow ⟨hmemo', hpost⟩
  exact hf a net' hgrow hpost memo' hmemo'

theorem Yields.mono {post' : α → Network → Prop} {b : Builder α} (h : Yields b net p post)
    (himp : ∀ a net', net.GrowsTo net' → post a net' → post' a net') : Yields b net p post' := by
  intro memo hmemo
  apply (h memo hmemo).mono
  rintro r net' hgrow ⟨hmemo', hpost⟩
  exact ⟨hmemo', himp _ _ hgrow hpost⟩

/-- What is read from the memo is right. -/
theorem yields_get_bind {f : Memo → Builder β}
    (hf : ∀ memo, Remembers net p memo → Yields (f memo) net p goal) :
    Yields (get >>= f) net p goal := fun memo hmemo => hf memo hmemo memo hmemo

theorem yields_insert (hs : Realizes net p on care s) :
    Yields (modify (·.insert (on, care) s)) net p fun _ net' => Realizes net' p on care s :=
  fun _ hmemo => ⟨_, net, rfl, .refl, hmemo.insert hs, hs⟩

end Rules

/-- Both cofactors are built, one after the other, and joined. -/
theorem split_yields (hnet : net.Proper) (hdriven : Driven net leaves n p) (h : Within n on care)
    (hv : v < n) {x : Signal} (hx : leaves[v]? = some x) {b0 b1 : Builder Signal}
    {f : Signal → Builder Signal} {goal : Signal → Network → Prop}
    (h0 : ∀ net', net.GrowsTo net' → Yields b0 net' p fun s net' =>
      Realizes net' p (on.cofactor0 v) (care.cofactor0 v) s)
    (h1 : ∀ net', net.GrowsTo net' → Yields b1 net' p fun s net' =>
      Realizes net' p (on.cofactor1 v) (care.cofactor1 v) s)
    (hf : ∀ s net', net.GrowsTo net' → Realizes net' p on care s → Yields (f s) net' p goal) :
    Yields (do
      let s0 ← b0
      let s1 ← b1
      let s ← join x s0 s1 (areComplementary (on.cofactor0 v) (care.cofactor0 v) (on.cofactor1 v)
        (care.cofactor1 v))
      f s) net p goal := by
  apply (h0 net .refl).bind
  intro s0 net₁ hgrow₁ hs0
  have hnet₁ := hgrow₁.proper hnet
  apply (h1 net₁ hgrow₁).bind
  intro s1 net₂ hgrow₂ hs1
  have hnet₂ := hgrow₂.proper hnet₁
  have hx₂ := (hdriven.leaf v x hx).grow hnet (hgrow₁.trans hgrow₂)
  apply (yields_lift hnet₂ (join_grows hnet₂ h hv hx₂ (hs0.grow hnet₁ hgrow₂) hs1)).bind
  intro s net₃ hgrow₃ hs
  exact hf s net₃ ((hgrow₁.trans hgrow₂).trans hgrow₃) hs

/-- The construction ends for every depth above the number of variables in use. -/
theorem build_yields (hnet : net.Proper) (hdriven : Driven net leaves n p)
    (h : OverVars n function care) (hdepth : weight n (function.and care) care < depth)
    {preferred : Option Nat} (hpreferred : ∀ v, preferred = some v → v < n) :
    Yields (build leaves depth function care preferred) net p fun s net' =>
      Realizes net' p function care s := by
  induction depth generalizing function care preferred net with
  | zero => exact absurd hdepth (Nat.not_lt_zero _)
  | succ depth ih =>
    rw [build]
    by_cases hconst : care.isConst0 = true
    · rw [if_pos hconst]
      apply (yields_lift hnet (Build.computes_constant hnet false)).mono
      intro s net' _ hs
      apply realizes_of_drives hs
      intro inputs hmatters
      rw [isConst0_iff.mp hconst] at hmatters
      cases hmatters
    rw [if_neg hconst]
    have hdropped := dropFreeVars_spec (within_and h)
    generalize dropFreeVars (function.and care) care = dropped at hdropped ⊢
    obtain ⟨on', care'⟩ := dropped
    have hdropped' : Within n on' care' := hdropped.within
    -- It is enough to realize what is left of the function.
    have hrefines : Refines function care on' care' := by
      intro i hi
      obtain ⟨hcare', hon'⟩ := hdropped.refines i hi
      refine ⟨hcare', hon'.trans ?_⟩
      rw [h.bit_and, hi, Bool.and_true]
    have hlighter : weight n on' care' ≤ depth :=
      Nat.le_of_lt_succ (lt_of_le_of_lt hdropped.weight_le hdepth)
    apply Yields.mono _ fun s net' _ hs => Realizes.of_refines hs hrefines
    dsimp only
    apply (yields_lift hnet (terminal_grows hnet hdriven hdropped')).bind
    intro r net₁ hgrow₁ ⟨hsome, hnone⟩
    have hnet₁ := hgrow₁.proper hnet
    have hdriven₁ := hdriven.grow hnet hgrow₁
    -- A function that is no terminal has a variable to split on.
    cases r with
    | some s => exact yields_pure (hsome s rfl)
    | none =>
      obtain ⟨hzero, hone⟩ := hnone rfl
      obtain ⟨v, hsplit, hv, hvar⟩ := splitVar_spec hdropped' hzero hone hpreferred
      obtain ⟨x, hx⟩ : ∃ x, leaves[v]? = some x :=
        ⟨_, List.getElem?_eq_getElem (hv.trans_eq hdriven.length.symm)⟩
      have hon : v < on'.numVars := hv.trans_eq hdropped'.on_vars.symm
      have hcare : v < care'.numVars := hv.trans_eq hdropped'.care_vars.symm
      -- The cofactors are lighter, so the hypothesis of the induction is about them.
      have hhalf : ∀ {value : Bool} {on₁ care₁ : TruthTable}, IsCofactor on' v value on₁ →
          IsCofactor care' v value care₁ → ∀ net', net₁.GrowsTo net' →
            Yields (build leaves depth on₁ care₁ none) net' p
              fun s net' => Realizes net' p on₁ care₁ s := by
        intro value on₁ care₁ hon₁ hcare₁ net' hgrow
        have hcofactor := hon₁.within hcare₁ hdropped'
        refine ih (hgrow.proper hnet₁) (hdriven₁.grow hnet₁ hgrow) hcofactor.toOverVars ?_ nofun
        rw [hcofactor.and_eq]
        exact lt_of_lt_of_le (hon₁.weight_lt hcare₁ hdropped' hv (.inl hvar)) hlighter
      have h0 := hhalf (isCofactor_cofactor0 hdropped'.on_canonical hon)
        (isCofactor_cofactor0 hdropped'.care_canonical hcare)
      have h1 := hhalf (isCofactor_cofactor1 hdropped'.on_canonical hon)
        (isCofactor_cofactor1 hdropped'.care_canonical hcare)
      simp only [hsplit, hx]
      by_cases hfree : preferred.isNone = true
      · simp only [if_pos hfree]
        apply yields_get_bind
        intro memo hmemo
        cases hfound : memo[(on', care')]? with
        | some s => exact yields_pure (hmemo _ _ _ hfound)
        | none =>
          apply split_yields hnet₁ hdriven₁ hdropped' hv hx h0 h1
          intro s net' _ hs
          exact (yields_insert hs).bind fun _ _ _ hs' => yields_pure hs'
      · simp only [if_neg hfree]
        apply split_yields hnet₁ hdriven₁ hdropped' hv hx h0 h1
        exact fun s net' _ hs => yields_pure hs

/-- The construction, deep enough for every function of its variables. -/
theorem build_grows (hnet : net.Proper) (hdriven : Driven net leaves n p)
    (h : OverVars n function care) (preferred : Option Nat)
    (hpreferred : ∀ v, preferred = some v → v < n) (hmemo : Remembers net p memo) :
    ∃ s memo' net', build leaves (function.numVars + 1) function care preferred memo net =
      .ok ((s, memo'), net') ∧ net.GrowsTo net' ∧ Realizes net' p function care s ∧
        Remembers net' p memo' := by
  have hdepth : weight n (function.and care) care < function.numVars + 1 :=
    Nat.lt_succ_of_le (h.on_vars ▸ weight_le _ _ _)
  obtain ⟨⟨s, memo'⟩, net', hrun, hgrow, hmemo', hs⟩ :=
    build_yields hnet hdriven h hdepth hpreferred memo hmemo
  exact ⟨s, memo', net', hrun, hgrow, hs, hmemo'⟩

end LogicSynthesis.Shannon
