import LogicSynthesis.Network.Gates
import LogicSynthesis.Proofs.Network.Growth

/-!
# The values of gates

Every gate constructor ends in a signal that has the value of its operator, over every basis, and
does no more to the network than to let it grow.

## Main definitions

- `Network.Proper` — well formed and acyclic
- `Network.Drives` — an existing signal that has a given value under every assignment
- `Build.Grows` — a computation ends, and the network only grows
- `Build.Computes` — a computation ends in a signal of a given value

## Main statements

- `Signal.pairwise_sort`, `Signal.sort_congr` — signals in order
- `computes_conjunction`, `computes_majority`, `computes_lut` — the gates of the three bases
- `computes_not`, `computes_and`, `computes_or`, `computes_xor`, `computes_ite`, `computes_maj` —
  the operators
-/

namespace LogicSynthesis

namespace Signal

/-! ### The order of signals -/

variable {a b c : Signal}

theorem le_iff : a.le b = true ↔
    a.node < b.node ∨ a.node = b.node ∧ (a.negated = true → b.negated = true) := by
  rw [le, Bool.or_eq_true, decide_eq_true_eq, Bool.and_eq_true, beq_iff_eq]
  cases a.negated <;> simp

theorem node_le_of_le (h : a.le b = true) : a.node ≤ b.node := by
  rcases le_iff.mp h with hlt | ⟨heq, -⟩
  · exact hlt.le
  · exact heq.le

theorem le_total (a b : Signal) : (a.le b || b.le a) = true := by
  rw [Bool.or_eq_true, le_iff, le_iff]
  rcases Nat.lt_trichotomy a.node b.node with hlt | heq | hlt
  · exact .inl (.inl hlt)
  · cases hb : b.negated
    · exact .inr (.inr ⟨heq.symm, fun h => Bool.noConfusion h⟩)
    · exact .inl (.inr ⟨heq, fun _ => rfl⟩)
  · exact .inr (.inl hlt)

theorem le_of_not_le (h : ¬ a.le b = true) : b.le a = true :=
  ((Bool.or_eq_true _ _).mp (le_total a b)).resolve_left h

theorem le_trans (hab : a.le b = true) (hbc : b.le c = true) : a.le c = true := by
  rw [le_iff] at hab hbc ⊢
  rcases hab with hab | ⟨hab, hab'⟩
  · rcases hbc with hbc | ⟨hbc, -⟩
    · exact .inl (hab.trans hbc)
    · exact .inl (hbc ▸ hab)
  · rcases hbc with hbc | ⟨hbc, hbc'⟩
    · exact .inl (hab ▸ hbc)
    · exact .inr ⟨hab.trans hbc, fun h => hbc' (hab' h)⟩

theorem le_refl (a : Signal) : a.le a = true := by
  rw [le_iff]
  exact .inr ⟨rfl, id⟩

theorem le_antisymm (hab : a.le b = true) (hba : b.le a = true) : a = b := by
  have hnode := Nat.le_antisymm (node_le_of_le hab) (node_le_of_le hba)
  rw [le_iff] at hab hba
  have hnegated : a.negated = b.negated := by
    have hab' := (hab.resolve_left hnode.not_lt).2
    have hba' := (hba.resolve_left hnode.not_gt).2
    exact Bool.eq_iff_iff.mpr ⟨hab', hba'⟩
  cases a
  cases b
  simp_all

theorem sort_perm (signals : List Signal) : (sort signals).Perm signals := List.mergeSort_perm _ _

theorem pairwise_sort (signals : List Signal) : (sort signals).Pairwise (·.le ·) :=
  @List.pairwise_mergeSort _ le (fun _ _ _ => le_trans) le_total signals

/-- Sorting forgets the order. -/
theorem sort_congr {signals signals' : List Signal} (h : signals.Perm signals') :
    sort signals = sort signals' :=
  ((sort_perm signals).trans (h.trans (sort_perm signals').symm)).eq_of_pairwise
    (fun _ _ _ _ => le_antisymm) (pairwise_sort signals) (pairwise_sort signals')

theorem sort_pair (a b : Signal) : sort [a, b] = if a.le b then [a, b] else [b, a] := by
  split
  · next hle => exact List.mergeSort_of_pairwise (List.pairwise_pair.mpr hle)
  · next hle =>
    rw [sort_congr (.swap b a [])]
    exact List.mergeSort_of_pairwise (List.pairwise_pair.mpr (le_of_not_le hle))

theorem sort_of_le (hab : a.le b = true) (hbc : b.le c = true) : sort [a, b, c] = [a, b, c] := by
  apply List.mergeSort_of_pairwise
  simp [hab, hbc, le_trans hab hbc]

/-- Two edges of one driver are equal or complementary. -/
theorem eq_or_eq_negate (h : a.node = b.node) : b = a ∨ b = a.negate := by
  obtain ⟨n, p⟩ := a
  obtain ⟨m, q⟩ := b
  obtain rfl : n = m := h
  cases p <;> cases q <;> simp [negate]

theorem negate_negate (a : Signal) : a.negate.negate = a := by
  cases a
  simp [negate]

end Signal

namespace Network

/-- A well-formed network in which every node has a value. -/
structure Proper (net : Network) : Prop where
  wellFormed : net.WellFormed
  acyclic : net.Acyclic

theorem GrowsTo.proper {net net' : Network} (h : net.GrowsTo net') (hnet : net.Proper) :
    net'.Proper := ⟨h.wellFormed hnet.wellFormed, h.acyclic hnet.wellFormed hnet.acyclic⟩

theorem Proper.withScratch {net : Network} (h : net.Proper) {scratch : Scratch}
    (hvalues : scratch.values.size = net.size) (hmarks : scratch.marks.size = net.size) :
    (net.withScratch scratch).Proper :=
  ⟨h.wellFormed.withScratch hvalues hmarks, h.acyclic⟩

/-- The signal `s` exists and has the value `x`. -/
structure Drives (net : Network) (s : Signal) (x : Assignment → Bool) : Prop where
  lt : s.node < net.size
  value : ∀ inputs, net.signalValue inputs s = x inputs

variable {net net' : Network} {s : Signal} {x : Assignment → Bool}

theorem Drives.grow (h : net.Drives s x) (hnet : net.Proper) (hgrow : net.GrowsTo net') :
    net'.Drives s x := by
  have hext := hgrow.extends hnet.wellFormed
  refine ⟨lt_of_lt_of_le h.lt hext.size_le, ?_⟩
  intro inputs
  rw [hext.signalValue_eq hnet.wellFormed hnet.acyclic inputs h.lt]
  exact h.value inputs

theorem Drives.negate (h : net.Drives s x) : net.Drives s.negate fun inputs => !x inputs := by
  refine ⟨h.lt, ?_⟩
  intro inputs
  rw [signalValue_negate, h.value]

theorem Drives.of_eq {y : Assignment → Bool} (h : net.Drives s x)
    (heq : ∀ inputs, x inputs = y inputs) : net.Drives s y :=
  ⟨h.lt, fun inputs => (h.value inputs).trans (heq inputs)⟩

theorem drives_self (h : s.node < net.size) :
    net.Drives s fun inputs => net.signalValue inputs s := ⟨h, fun _ => rfl⟩

theorem Proper.drives_constant (h : net.Proper) (v : Bool) :
    net.Drives (net.basis.constant v) fun _ => v :=
  ⟨h.wellFormed.constant_lt v, fun inputs =>
    h.wellFormed.signalValue_constant h.acyclic inputs v⟩

end Network

namespace Build

open Network

variable {α β : Type} {net : Network}

/-- The computation ends, the network only grows, and the outcome satisfies `post`. -/
def Grows (b : Build α) (net : Network) (post : α → Network → Prop) : Prop :=
  ∃ a net', b net = .ok (a, net') ∧ net.GrowsTo net' ∧ post a net'

/-- The computation ends in a signal of value `x`. -/
def Computes (b : Build Signal) (net : Network) (x : Assignment → Bool) : Prop :=
  b.Grows net fun s net' => net'.Drives s x

theorem grows_pure {a : α} {post : α → Network → Prop} (h : post a net) :
    Grows (pure a) net post := ⟨a, net, rfl, .refl, h⟩

theorem Grows.mono {b : Build α} {post post' : α → Network → Prop} (h : b.Grows net post)
    (himp : ∀ a net', net.GrowsTo net' → post a net' → post' a net') : b.Grows net post' := by
  obtain ⟨a, net', hrun, hgrow, hpost⟩ := h
  exact ⟨a, net', hrun, hgrow, himp a net' hgrow hpost⟩

theorem bind_run {b : Build α} {f : α → Build β} {a : α} {net' : Network}
    (h : b net = .ok (a, net')) : (b >>= f) net = f a net' := by
  show (b net >>= fun r => f r.1 r.2) = _
  rw [h]
  rfl

/-- A question to another network, or to none. -/
theorem ask_run {answer : Except Fault α} {a : α} (h : answer = .ok a) :
    ask (fun _ => answer) net = .ok (a, net) := by
  rw [ask, h, map_ok]

/-- A computation may look at the network that it starts from. -/
theorem get_run (f : Network → Build α) : (get >>= f) net = f net net := rfl

theorem map_run {b : Build α} {f : α → β} {a : α} {net' : Network}
    (h : b net = .ok (a, net')) : (f <$> b) net = .ok (f a, net') := by
  show (b net >>= fun r => pure (f r.1, r.2)) = _
  rw [h]
  rfl

theorem Grows.bind {b : Build α} {f : α → Build β} {post : α → Network → Prop}
    {goal : β → Network → Prop} (h : b.Grows net post)
    (hf : ∀ a net', net.GrowsTo net' → post a net' → (f a).Grows net' goal) :
    (b >>= f).Grows net goal := by
  obtain ⟨a, mid, hrun, hgrow, hpost⟩ := h
  obtain ⟨b', net', hrun', hgrow', hgoal⟩ := hf a mid hgrow hpost
  exact ⟨b', net', (bind_run hrun).trans hrun', hgrow.trans hgrow', hgoal⟩

theorem Grows.map {b : Build α} {f : α → β} {post : α → Network → Prop}
    {goal : β → Network → Prop} (h : b.Grows net post)
    (hf : ∀ a net', net.GrowsTo net' → post a net' → goal (f a) net') :
    Grows (f <$> b) net goal := by
  obtain ⟨a, net', hrun, hgrow, hpost⟩ := h
  exact ⟨f a, net', map_run hrun, hgrow, hf a net' hgrow hpost⟩

/-- A loop keeps what its body keeps, where the body may know which elements come before. -/
theorem Grows.foldlM_prefix {body : β → α → Build β} (inv : List α → β → Network → Prop)
    {as : List α} {b : β} (hinit : inv [] b net)
    (hstep : ∀ before a after b net', as = before ++ a :: after → net.GrowsTo net' →
      inv before b net' → (body b a).Grows net' (inv (before ++ [a]))) :
    Grows (as.foldlM body b) net (inv as) := by
  have hgen : ∀ after before b net', as = before ++ after → net.GrowsTo net' →
      inv before b net' → Grows (after.foldlM body b) net' (inv as) := by
    intro after
    induction after with
    | nil =>
      intro before b net' heq _ hinv
      rw [List.append_nil] at heq
      exact grows_pure (heq ▸ hinv)
    | cons a after ih =>
      intro before b net' heq hgrow hinv
      rw [List.foldlM_cons]
      apply (hstep before a after b net' heq hgrow hinv).bind
      intro b' net'' hgrow' hinv'
      apply ih (before ++ [a]) b' net'' _ (hgrow.trans hgrow') hinv'
      rw [heq, List.append_assoc, List.singleton_append]
  exact hgen as [] b net rfl .refl hinit

/-- A list of computations that all end. The invariant relates the elements that are done to their
results. -/
theorem mapM_run {f : α → Build β} (inv : List α → List β → Network → Prop) {as : List α}
    (hinit : inv [] [] net) (hstep : ∀ a ∈ as, ∀ done bs net, inv done bs net →
      ∃ b net', f a net = .ok (b, net') ∧ inv (done ++ [a]) (bs ++ [b]) net') :
    ∃ bs net', as.mapM f net = .ok (bs, net') ∧ inv as bs net' := by
  have hgen : ∀ rest done bs net, (∀ a ∈ rest, a ∈ as) → inv done bs net →
      ∃ bs' net', rest.mapM f net = .ok (bs', net') ∧ inv (done ++ rest) (bs ++ bs') net' := by
    intro rest
    induction rest with
    | nil =>
      intro done bs net _ hinv
      refine ⟨[], net, rfl, ?_⟩
      rwa [List.append_nil, List.append_nil]
    | cons a rest ih =>
      intro done bs net hmem hinv
      obtain ⟨b, mid, hrun, hinv⟩ := hstep a (hmem a List.mem_cons_self) done bs net hinv
      obtain ⟨bs', net', hrest, hinv⟩ :=
        ih _ _ mid (fun c hc => hmem c (List.mem_cons_of_mem a hc)) hinv
      refine ⟨b :: bs', net', ?_, ?_⟩
      · rw [List.mapM_cons, bind_run hrun, bind_run hrest]
        rfl
      · rwa [List.append_assoc, List.append_assoc] at hinv
  exact hgen as [] [] net (fun _ ha => ha) hinit

/-- A loop runs as the list of its computations does. -/
theorem forM_run {f : α → Build β} {as : List α} {bs : List β} {net' : Network}
    (h : as.mapM f net = .ok (bs, net')) :
    (as.forM fun a => discard (f a)) net = .ok ((), net') := by
  induction as generalizing bs net with
  | nil =>
    obtain ⟨-, rfl⟩ := Prod.mk.inj (Except.ok.inj h)
    rfl
  | cons a as ih =>
    rw [List.mapM_cons] at h
    obtain ⟨⟨b, mid⟩, hrun, h⟩ := bind_eq_ok h
    obtain ⟨⟨bs', last⟩, hrest, h⟩ := bind_eq_ok h
    obtain ⟨-, rfl⟩ := Prod.mk.inj (Except.ok.inj h)
    have hdiscard : discard (f a) net = .ok ((), mid) := map_run hrun
    exact (bind_run hdiscard).trans (ih hrest)

theorem Computes.of_eq {b : Build Signal} {x y : Assignment → Bool} (h : b.Computes net x)
    (heq : ∀ inputs, x inputs = y inputs) : b.Computes net y :=
  Grows.mono h fun _ _ _ hs => hs.of_eq heq

theorem computes_pure {s : Signal} {x : Assignment → Bool} (h : net.Drives s x) :
    Computes (pure s) net x := grows_pure h

theorem computes_constant (h : net.Proper) (v : Bool) : (constant v).Computes net fun _ => v :=
  ⟨_, net, rfl, .refl, h.drives_constant v⟩

/-- The gate of given fanins and function has the value of its function. -/
theorem computes_node (h : net.Proper) {fanins : List Signal} {literal : Nat} {t : TruthTable}
    (hne : fanins ≠ [])
    (hsymmetric : net.basis.isSymmetric = true → literal = Basis.gateLiteral)
    (ht : net.functions.get? literal = some t) (hvars : t.numVars = fanins.length)
    (hlt : ∀ s ∈ fanins, s.node < net.size) :
    Computes (Signal.ofNode <$> node fanins literal) net fun inputs =>
      t.bit (codeOf (fanins.map (net.signalValue inputs))) := by
  obtain ⟨n, net', hcreate⟩ := exists_createNode hlt literal
  have hgrow : net.GrowsTo net' := .gate .refl ⟨hne, hsymmetric, t, ht, hvars⟩ hcreate
  have hext := hgrow.extends h.wellFormed
  have hnet' := hgrow.proper h
  obtain ⟨-, node, hnode, hkind, hfanins, hfunction⟩ := createNode_spec h.wellFormed hcreate
  refine ⟨.ofNode n, net', map_run hcreate, hgrow, lt_size_of_getElem? hnode, ?_⟩
  intro inputs
  have hvalues : fanins.map (net'.signalValue inputs) = fanins.map (net.signalValue inputs) :=
    List.map_congr_left fun s hs =>
      hext.signalValue_eq h.wellFormed h.acyclic inputs (hlt s hs)
  rw [signalValue_ofNode, value_of_gate hnet'.acyclic hnode hkind, functionOf, hfunction, hfanins,
    hext.functions _ _ ht, hvalues]
  rfl

/-! ### Conjunctions -/

theorem bit_andTable (x y : Bool) :
    ((TruthTable.proj 2 0).and (TruthTable.proj 2 1)).bit (codeOf [x, y]) = (x && y) := by
  have hproj : ∀ v, (TruthTable.proj 2 v).Canonical := TruthTable.canonical_proj (by decide)
  rw [TruthTable.bit_and (hproj 0) (hproj 1) rfl, TruthTable.bit_proj, TruthTable.bit_proj]
  cases x <;> cases y <;> decide

theorem computes_andNode (h : net.Proper) (hbasis : net.basis = .andInverter) {a b : Signal}
    {x y : Assignment → Bool} (ha : net.Drives a x) (hb : net.Drives b y) :
    Computes (Signal.ofNode <$> node [a, b] Basis.gateLiteral) net fun inputs =>
      x inputs && y inputs := by
  have hfunction := h.wellFormed.basisFunction
    ((TruthTable.proj 2 0).and (TruthTable.proj 2 1)) (by rw [hbasis]; rfl)
  apply (computes_node h (by simp) (fun _ => rfl) hfunction rfl _).of_eq
  · intro inputs
    simp only [List.map_cons, List.map_nil, ha.value, hb.value, bit_andTable]
  · intro s hs
    rcases List.mem_cons.mp hs with rfl | hs
    · exact ha.lt
    · rw [List.mem_singleton.mp hs]
      exact hb.lt

/-- A signal that node `0` drives is constant. -/
theorem eq_negated_of_node_zero (h : net.Proper) (hbasis : net.basis = .andInverter) {a : Signal}
    {x : Assignment → Bool} (ha : net.Drives a x) (hzero : a.node = 0) (inputs : Assignment) :
    x inputs = a.negated := by
  obtain ⟨node, hnode, hkind⟩ := h.wellFormed.constants 0 false (by rw [hbasis]; rfl)
  rw [← ha.value, signalValue, edgeValue, hzero, value_of_constant h.acyclic hnode hkind,
    Bool.false_xor]

theorem conjunction_of_le {a b : Signal} (h : a.le b = true) : conjunction a b =
    if a.node = b.node then
      if a.negated = b.negated then return a else constant false
    else if a.node = 0 then
      if a.negated then return b else constant false
    else
      Signal.ofNode <$> node [a, b] Basis.gateLiteral := by
  unfold conjunction
  simp only [h, if_true]

/-- The order of the operands does not matter to a conjunction. -/
theorem conjunction_comm (a b : Signal) : conjunction a b = conjunction b a := by
  by_cases hab : a.le b = true
  · by_cases hba : b.le a = true
    · rw [Signal.le_antisymm hab hba]
    · unfold conjunction
      simp only [hab, hba]
      rfl
  · unfold conjunction
    simp only [hab, Signal.le_of_not_le hab]
    rfl

/-- The conjunction of two signals that stand in their order. -/
theorem computes_conjunction_of_le (h : net.Proper) (hbasis : net.basis = .andInverter)
    {a b : Signal} {x y : Assignment → Bool} (ha : net.Drives a x) (hb : net.Drives b y)
    (hle : a.le b = true) : (conjunction a b).Computes net fun inputs => x inputs && y inputs := by
  rw [conjunction_of_le hle]
  -- Two edges of one driver are equal or complementary, and no gate is needed.
  by_cases hnode : a.node = b.node
  · rw [if_pos hnode]
    by_cases hnegated : a.negated = b.negated
    · rw [if_pos hnegated]
      apply computes_pure
      apply ha.of_eq
      intro inputs
      have heq : x inputs = y inputs := by
        rw [← ha.value, ← hb.value, signalValue, signalValue, edgeValue, edgeValue, hnode, hnegated]
      rw [← heq, Bool.and_self]
    · rw [if_neg hnegated]
      apply (computes_constant h false).of_eq
      intro inputs
      rw [← ha.value, ← hb.value, signalValue, signalValue, edgeValue, edgeValue, hnode]
      revert hnegated
      cases a.negated <;> cases b.negated <;> simp
  · rw [if_neg hnode]
    by_cases hzero : a.node = 0
    · rw [if_pos hzero]
      have hvalue := eq_negated_of_node_zero h hbasis ha hzero
      cases hnegated : a.negated with
      | true =>
        rw [if_pos rfl]
        apply computes_pure
        apply hb.of_eq
        intro inputs
        rw [hvalue, hnegated, Bool.true_and]
      | false =>
        rw [if_neg Bool.false_ne_true]
        apply (computes_constant h false).of_eq
        intro inputs
        rw [hvalue, hnegated, Bool.false_and]
    · rw [if_neg hzero]
      exact computes_andNode h hbasis ha hb

theorem computes_conjunction (h : net.Proper) (hbasis : net.basis = .andInverter) {a b : Signal}
    {x y : Assignment → Bool} (ha : net.Drives a x) (hb : net.Drives b y) :
    (conjunction a b).Computes net fun inputs => x inputs && y inputs := by
  by_cases hle : a.le b = true
  · exact computes_conjunction_of_le h hbasis ha hb hle
  · rw [conjunction_comm]
    apply (computes_conjunction_of_le h hbasis hb ha (Signal.le_of_not_le hle)).of_eq
    exact fun inputs => Bool.and_comm _ _

/-! ### Majorities -/

/-- The value that at least two of three values are. -/
def atLeastTwo (x y z : Bool) : Bool := x && y || x && z || y && z

theorem atLeastTwo_eq (x y z : Bool) :
    atLeastTwo x y z = decide (2 ≤ [x, y, z].countP id) := by
  cases x <;> cases y <;> cases z <;> rfl

theorem bit_majTable (x y z : Bool) :
    (TruthTable.maj (TruthTable.proj 3 0) (TruthTable.proj 3 1) (TruthTable.proj 3 2)).bit
      (codeOf [x, y, z]) = atLeastTwo x y z := by
  have hproj : ∀ v, (TruthTable.proj 3 v).Canonical := TruthTable.canonical_proj (by decide)
  rw [TruthTable.bit_maj (hproj 0) (hproj 1) (hproj 2) rfl rfl, TruthTable.bit_proj,
    TruthTable.bit_proj, TruthTable.bit_proj]
  cases x <;> cases y <;> cases z <;> decide

theorem computes_majNode (h : net.Proper) (hbasis : net.basis = .majorityInverter)
    {a b c : Signal} {x y z : Assignment → Bool} (ha : net.Drives a x) (hb : net.Drives b y)
    (hc : net.Drives c z) :
    Computes (Signal.ofNode <$> node [a, b, c] Basis.gateLiteral) net fun inputs =>
      atLeastTwo (x inputs) (y inputs) (z inputs) := by
  have hfunction := h.wellFormed.basisFunction
    (TruthTable.maj (TruthTable.proj 3 0) (TruthTable.proj 3 1) (TruthTable.proj 3 2))
    (by rw [hbasis]; rfl)
  apply (computes_node h (by simp) (fun _ => rfl) hfunction rfl _).of_eq
  · intro inputs
    simp only [List.map_cons, List.map_nil, ha.value, hb.value, hc.value, bit_majTable]
  · intro s hs
    simp only [List.mem_cons, List.not_mem_nil, or_false] at hs
    rcases hs with rfl | rfl | rfl
    · exact ha.lt
    · exact hb.lt
    · exact hc.lt

theorem computes_distinctMajority (h : net.Proper) (hbasis : net.basis = .majorityInverter)
    {a b c : Signal} {x y z : Assignment → Bool} (ha : net.Drives a x) (hb : net.Drives b y)
    (hc : net.Drives c z) : (distinctMajority [a, b, c]).Computes net fun inputs =>
      atLeastTwo (x inputs) (y inputs) (z inputs) := by
  unfold distinctMajority
  split
  · -- The majority of the complements is the complement of the majority.
    obtain ⟨s, net', hrun, hgrow, hs⟩ :=
      computes_majNode h hbasis ha.negate hb.negate hc.negate
    obtain ⟨⟨n, net''⟩, hnode, hpair⟩ := bind_eq_ok hrun
    obtain ⟨rfl, rfl⟩ := Prod.mk.inj (Except.ok.inj hpair)
    refine ⟨⟨n, true⟩, net'', bind_run hnode, hgrow, ?_⟩
    apply hs.negate.of_eq
    intro inputs
    cases x inputs <;> cases y inputs <;> cases z inputs <;> rfl
  · exact computes_majNode h hbasis ha hb hc

/-- Two edges of one driver agree or are complementary. -/
theorem value_of_same_node {a b : Signal} {x y : Assignment → Bool} (ha : net.Drives a x)
    (hb : net.Drives b y) (hnode : a.node = b.node) (inputs : Assignment) :
    y inputs = (x inputs ^^ (a.negated ^^ b.negated)) := by
  rw [← ha.value, ← hb.value, signalValue, signalValue, edgeValue, edgeValue, hnode]
  cases net.value inputs b.node <;> cases a.negated <;> cases b.negated <;> rfl

theorem atLeastTwo_rotate (x y z : Bool) : atLeastTwo x y z = atLeastTwo y z x := by
  cases x <;> cases y <;> cases z <;> rfl

theorem atLeastTwo_swap (x y z : Bool) : atLeastTwo x y z = atLeastTwo x z y := by
  cases x <;> cases y <;> cases z <;> rfl

/-- Two edges of one driver decide a majority if they agree, and leave it to the third if not. -/
theorem drives_of_same_node {a b c : Signal} {x y z : Assignment → Bool} (ha : net.Drives a x)
    (hb : net.Drives b y) (hc : net.Drives c z) (hnode : a.node = b.node) :
    net.Drives (if a.negated = b.negated then a else c) fun inputs =>
      atLeastTwo (x inputs) (y inputs) (z inputs) := by
  have hvalue := value_of_same_node ha hb hnode
  by_cases hneg : a.negated = b.negated
  · rw [if_pos hneg]
    apply ha.of_eq
    intro inputs
    rw [hvalue, hneg, Bool.xor_self, Bool.xor_false]
    cases x inputs <;> cases z inputs <;> rfl
  · rw [if_neg hneg]
    apply hc.of_eq
    intro inputs
    rw [hvalue, Bool.eq_not_of_ne hneg, Bool.not_xor_self, Bool.xor_true]
    cases x inputs <;> cases z inputs <;> rfl

theorem computes_sortedMajority (h : net.Proper) (hbasis : net.basis = .majorityInverter)
    {a b c : Signal} {x y z : Assignment → Bool} (ha : net.Drives a x) (hb : net.Drives b y)
    (hc : net.Drives c z) :
    Computes (if a.node = b.node then return if a.negated = b.negated then a else c
      else if b.node = c.node then return if b.negated = c.negated then b else a
      else if a.node = c.node then return if a.negated = c.negated then a else b
      else distinctMajority [a, b, c]) net fun inputs =>
        atLeastTwo (x inputs) (y inputs) (z inputs) := by
  split
  · next hnode => exact computes_pure (drives_of_same_node ha hb hc hnode)
  split
  · next hnode =>
    apply computes_pure
    apply (drives_of_same_node hb hc ha hnode).of_eq
    exact fun inputs => (atLeastTwo_rotate _ _ _).symm
  split
  · next hnode =>
    apply computes_pure
    apply (drives_of_same_node ha hc hb hnode).of_eq
    exact fun inputs => atLeastTwo_swap _ _ _
  · exact computes_distinctMajority h hbasis ha hb hc

theorem computes_majority (h : net.Proper) (hbasis : net.basis = .majorityInverter)
    {a b c : Signal} {x y z : Assignment → Bool} (ha : net.Drives a x) (hb : net.Drives b y)
    (hc : net.Drives c z) : (majority a b c).Computes net fun inputs =>
      atLeastTwo (x inputs) (y inputs) (z inputs) := by
  -- Sorting does not change how many of the three values are true.
  have hperm : (Signal.sort [a, b, c]).Perm [a, b, c] := List.mergeSort_perm _ _
  obtain ⟨a', b', c', hsort⟩ := List.length_eq_three.mp hperm.length_eq
  rw [hsort] at hperm
  have hlt : ∀ s ∈ [a', b', c'], s.node < net.size := by
    intro s hs
    rw [hperm.mem_iff] at hs
    simp only [List.mem_cons, List.not_mem_nil, or_false] at hs
    rcases hs with rfl | rfl | rfl
    · exact ha.lt
    · exact hb.lt
    · exact hc.lt
  have ha' := drives_self (hlt a' (by simp))
  have hb' := drives_self (hlt b' (by simp))
  have hc' := drives_self (hlt c' (by simp))
  unfold majority
  simp only [hsort]
  apply (computes_sortedMajority h hbasis ha' hb' hc').of_eq
  intro inputs
  have hcount := (hperm.map (net.signalValue inputs)).countP_eq id
  simp only [List.map_cons, List.map_nil] at hcount
  rw [atLeastTwo_eq, hcount, ha.value, hb.value, hc.value, ← atLeastTwo_eq]

/-! ### Lookup tables -/

/-- A lookup table with a fanin for each variable is a constant or a gate. -/
theorem lut_of_length {fanins : List Signal} {t : TruthTable} (hlen : fanins.length = t.numVars) :
    lut fanins t net = (if fanins.isEmpty then
        constant (t.bit 0)
      else do
        let literal ← function t
        Signal.ofNode <$> node fanins literal : Build Signal) net := by
  rw [lut, bind_run (ask_run (require_of (beq_iff_eq.mpr hlen) _))]

theorem computes_lut (h : net.Proper) (hbasis : net.basis = .lookupTable) {fanins : List Signal}
    {t : TruthTable} (ht : t.Canonical) (hlen : fanins.length = t.numVars)
    (hlt : ∀ s ∈ fanins, s.node < net.size) : (lut fanins t).Computes net fun inputs =>
      t.bit (codeOf (fanins.map (net.signalValue inputs))) := by
  rw [Computes, Grows, lut_of_length hlen]
  cases fanins with
  | nil => exact computes_constant h (t.bit 0)
  | cons s fanins =>
    have hgrow : net.GrowsTo (net.insertFunction t).2 := .function .refl ht
    have hext := hgrow.extends h.wellFormed
    have hget := FunctionCache.get?_insert h.wellFormed.functions ht
    have hfree : (net.insertFunction t).2.basis.isSymmetric = true →
        (net.insertFunction t).1 = Basis.gateLiteral := by
      rw [hext.basis, hbasis]
      exact fun hsymmetric => absurd hsymmetric Bool.false_ne_true
    have hnode := computes_node (hgrow.proper h) (by simp) hfree hget hlen.symm
      fun s hs => lt_of_lt_of_le (hlt s hs) hext.size_le
    have hrun : function t net = .ok (net.insertFunction t) := rfl
    rw [if_neg (by simp), bind_run hrun]
    obtain ⟨r, net', hcreate, hgrow', hr⟩ := hnode
    refine ⟨r, net', hcreate, hgrow.trans hgrow', hr.of_eq ?_⟩
    intro inputs
    congr 2
    exact List.map_congr_left fun s hs =>
      hext.signalValue_eq h.wellFormed h.acyclic inputs (hlt s hs)

/-- A lookup table over signals of known values. -/
theorem computes_lut_of (h : net.Proper) (hbasis : net.basis = .lookupTable) {n : Nat}
    (hn : n ≤ 6) (word : UInt64) (fanins : List (Signal × (Assignment → Bool)))
    (hlen : fanins.length = n) (hdrives : ∀ p ∈ fanins, net.Drives p.1 p.2) :
    (lut (fanins.map Prod.fst) (TruthTable.ofWord n word)).Computes net fun inputs =>
      (TruthTable.ofWord n word).bit (codeOf (fanins.map fun p => p.2 inputs)) := by
  apply (computes_lut h hbasis (TruthTable.canonical_ofWord hn word) _ _).of_eq
  · intro inputs
    rw [List.map_map]
    congr 2
    exact List.map_congr_left fun p hp => (hdrives p hp).value inputs
  · rw [List.length_map, hlen, TruthTable.numVars_ofWord]
  · intro s hs
    obtain ⟨p, hp, rfl⟩ := List.mem_map.mp hs
    exact (hdrives p hp).lt

/-! ### Operators -/

section Operators

variable {a b c : Signal} {x y z : Assignment → Bool}

theorem computes_not (h : net.Proper) (ha : net.Drives a x) :
    (Build.not a).Computes net fun inputs => !x inputs := by
  rw [Computes, Grows, Build.not, get_run]
  cases hbasis : net.basis with
  | andInverter => exact computes_pure ha.negate
  | majorityInverter => exact computes_pure ha.negate
  | lookupTable =>
    have hproj : (TruthTable.proj 1 0).Canonical := TruthTable.canonical_proj (by decide) 0
    apply (computes_lut h hbasis hproj.not rfl (by simpa using ha.lt)).of_eq
    intro inputs
    rw [TruthTable.bit_not hproj, TruthTable.bit_proj, List.map_singleton, ha.value]
    cases x inputs <;> decide

theorem computes_withPolarity (h : net.Proper) (ha : net.Drives a x) (negate : Bool) :
    (withPolarity a negate).Computes net fun inputs => x inputs ^^ negate := by
  cases negate with
  | false => exact (computes_pure ha).of_eq fun inputs => (Bool.xor_false _).symm
  | true => exact (computes_not h ha).of_eq fun inputs => (Bool.xor_true _).symm

theorem computes_and (h : net.Proper) (ha : net.Drives a x) (hb : net.Drives b y) :
    (Build.and a b).Computes net fun inputs => x inputs && y inputs := by
  rw [Computes, Grows, Build.and, get_run]
  cases hbasis : net.basis with
  | andInverter => exact computes_conjunction h hbasis ha hb
  | majorityInverter =>
    apply (computes_constant h false).bind
    intro s net' hgrow hs
    have hbasis' := (hgrow.extends h.wellFormed).basis.trans hbasis
    apply (computes_majority (hgrow.proper h) hbasis' hs (ha.grow h hgrow) (hb.grow h hgrow)).of_eq
    intro inputs
    cases x inputs <;> cases y inputs <;> rfl
  | lookupTable =>
    apply (computes_lut_of h hbasis (by decide : 2 ≤ 6) 0x8 [(a, x), (b, y)] rfl _).of_eq
    · intro inputs
      simp only [List.map_cons, List.map_nil]
      cases x inputs <;> cases y inputs <;> decide +kernel
    · simp [ha, hb]

theorem computes_or (h : net.Proper) (ha : net.Drives a x) (hb : net.Drives b y) :
    (Build.or a b).Computes net fun inputs => x inputs || y inputs := by
  rw [Computes, Grows, Build.or, get_run]
  cases hbasis : net.basis with
  | andInverter =>
    apply (computes_not h ha).bind
    intro na net₁ hgrow₁ hna
    have h₁ := hgrow₁.proper h
    apply (computes_not h₁ (hb.grow h hgrow₁)).bind
    intro nb net₂ hgrow₂ hnb
    have h₂ := hgrow₂.proper h₁
    apply (computes_and h₂ (hna.grow h₁ hgrow₂) hnb).bind
    intro neither net₃ hgrow₃ hneither
    apply (computes_not (hgrow₃.proper h₂) hneither).of_eq
    intro inputs
    cases x inputs <;> cases y inputs <;> rfl
  | majorityInverter =>
    apply (computes_constant h true).bind
    intro s net' hgrow hs
    have hbasis' := (hgrow.extends h.wellFormed).basis.trans hbasis
    apply (computes_majority (hgrow.proper h) hbasis' hs (ha.grow h hgrow) (hb.grow h hgrow)).of_eq
    intro inputs
    cases x inputs <;> cases y inputs <;> rfl
  | lookupTable =>
    apply (computes_lut_of h hbasis (by decide : 2 ≤ 6) 0xE [(a, x), (b, y)] rfl _).of_eq
    · intro inputs
      simp only [List.map_cons, List.map_nil]
      cases x inputs <;> cases y inputs <;> decide +kernel
    · simp [ha, hb]

theorem computes_xor (h : net.Proper) (ha : net.Drives a x) (hb : net.Drives b y) :
    (Build.xor a b).Computes net fun inputs => x inputs ^^ y inputs := by
  have hgates : Computes (do
      let nb ← Build.not b
      let na ← Build.not a
      let left ← Build.and a nb
      let right ← Build.and na b
      Build.or left right) net fun inputs => x inputs ^^ y inputs := by
    apply (computes_not h hb).bind
    intro nb net₁ hgrow₁ hnb
    have h₁ := hgrow₁.proper h
    apply (computes_not h₁ (ha.grow h hgrow₁)).bind
    intro na net₂ hgrow₂ hna
    have h₂ := hgrow₂.proper h₁
    have hgrow₁₂ := hgrow₁.trans hgrow₂
    apply (computes_and h₂ (ha.grow h hgrow₁₂) (hnb.grow h₁ hgrow₂)).bind
    intro left net₃ hgrow₃ hleft
    have h₃ := hgrow₃.proper h₂
    apply (computes_and h₃ (hna.grow h₂ hgrow₃) (hb.grow h (hgrow₁₂.trans hgrow₃))).bind
    intro right net₄ hgrow₄ hright
    apply (computes_or (hgrow₄.proper h₃) (hleft.grow h₃ hgrow₄) hright).of_eq
    intro inputs
    cases x inputs <;> cases y inputs <;> rfl
  rw [Computes, Grows, Build.xor, get_run]
  cases hbasis : net.basis with
  | andInverter => exact hgates
  | majorityInverter => exact hgates
  | lookupTable =>
    apply (computes_lut_of h hbasis (by decide : 2 ≤ 6) 0x6 [(a, x), (b, y)] rfl _).of_eq
    · intro inputs
      simp only [List.map_cons, List.map_nil]
      cases x inputs <;> cases y inputs <;> decide +kernel
    · simp [ha, hb]

theorem computes_ite (h : net.Proper) (ha : net.Drives a x) (hb : net.Drives b y)
    (hc : net.Drives c z) : (Build.ite a b c).Computes net fun inputs =>
      bif x inputs then y inputs else z inputs := by
  have hgates : Computes (do
      let otherwise ← Build.not a
      let left ← Build.and a b
      let right ← Build.and otherwise c
      Build.or left right) net fun inputs => bif x inputs then y inputs else z inputs := by
    apply (computes_not h ha).bind
    intro otherwise net₁ hgrow₁ hotherwise
    have h₁ := hgrow₁.proper h
    apply (computes_and h₁ (ha.grow h hgrow₁) (hb.grow h hgrow₁)).bind
    intro left net₂ hgrow₂ hleft
    have h₂ := hgrow₂.proper h₁
    apply (computes_and h₂ (hotherwise.grow h₁ hgrow₂) (hc.grow h (hgrow₁.trans hgrow₂))).bind
    intro right net₃ hgrow₃ hright
    apply (computes_or (hgrow₃.proper h₂) (hleft.grow h₂ hgrow₃) hright).of_eq
    intro inputs
    cases x inputs <;> cases y inputs <;> cases z inputs <;> rfl
  rw [Computes, Grows, Build.ite, get_run]
  cases hbasis : net.basis with
  | andInverter => exact hgates
  | majorityInverter => exact hgates
  | lookupTable =>
    apply (computes_lut_of h hbasis (by decide : 3 ≤ 6) 0xD8 [(a, x), (b, y), (c, z)] rfl _).of_eq
    · intro inputs
      simp only [List.map_cons, List.map_nil]
      cases x inputs <;> cases y inputs <;> cases z inputs <;> decide +kernel
    · simp [ha, hb, hc]

theorem computes_maj (h : net.Proper) (ha : net.Drives a x) (hb : net.Drives b y)
    (hc : net.Drives c z) : (maj a b c).Computes net fun inputs =>
      atLeastTwo (x inputs) (y inputs) (z inputs) := by
  rw [Computes, Grows, maj, get_run]
  cases hbasis : net.basis with
  | andInverter =>
    apply (computes_and h ha hb).bind
    intro both net₁ hgrow₁ hboth
    have h₁ := hgrow₁.proper h
    apply (computes_or h₁ (ha.grow h hgrow₁) (hb.grow h hgrow₁)).bind
    intro either net₂ hgrow₂ heither
    have h₂ := hgrow₂.proper h₁
    apply (computes_and h₂ (hc.grow h (hgrow₁.trans hgrow₂)) heither).bind
    intro third net₃ hgrow₃ hthird
    have hboth' := hboth.grow h₁ (hgrow₂.trans hgrow₃)
    apply (computes_or (hgrow₃.proper h₂) hboth' hthird).of_eq
    intro inputs
    cases x inputs <;> cases y inputs <;> cases z inputs <;> rfl
  | majorityInverter => exact computes_majority h hbasis ha hb hc
  | lookupTable =>
    apply (computes_lut_of h hbasis (by decide : 3 ≤ 6) 0xE8 [(a, x), (b, y), (c, z)] rfl _).of_eq
    · intro inputs
      simp only [List.map_cons, List.map_nil]
      cases x inputs <;> cases y inputs <;> cases z inputs <;> decide +kernel
    · simp [ha, hb, hc]

end Operators

end Build

end LogicSynthesis
