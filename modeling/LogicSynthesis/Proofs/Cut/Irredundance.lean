import LogicSynthesis.Proofs.Cut.Placement

/-!
# The form of cut sets

The test for dominance looks at sizes and signatures first, and still decides whether all leaves of
the one cut are leaves of the other. A cut enters a set unless one of the set dominates it, and
those that it dominates leave the set. So the set is at all times ordered by size, and no cut of it
dominates another. Truncation keeps both, and the trivial cut is put last.

## Main definitions

- `Cut.Tidy`, `Cut.Stored`, `Cut.Found` — what holds of each stored cut, and of those of a gate that
  are not trivial
- `Cut.Irredundant` — a set that is ordered by size and has no dominated cut
- `Network.GateCuts` — the cuts of a gate apart from the trivial one

## Main statements

- `Cut.dominates_iff` — dominance is inclusion of leaves
- `Cut.Irredundant.insertInto` — inserting a cut keeps a set irredundant
- `combine_found` — what the cuts of the fanins combine to
- `stored_cuts_irredundant` — the form of all stored sets
-/

namespace LogicSynthesis

variable {net : Network} {settings : CutSettings} {n : NodeId}

namespace Cut

variable {a b c d : Cut} {set : List Cut}

/-! ### Signatures -/

/-- A signature has the bits of the leaves, taken modulo the width of a word. -/
theorem wordBit_signatureOf (leaves : List NodeId) {i : Nat} (hi : i < 64) :
    TruthTable.wordBit (signatureOf leaves) i = true ↔ ∃ l ∈ leaves, l % 64 = i := by
  have hfold : ∀ (leaves : List NodeId) (word : UInt64),
      TruthTable.wordBit (leaves.foldl (fun word n => word ||| TruthTable.unitWord (n % 64)) word) i
        = true ↔ TruthTable.wordBit word i = true ∨ ∃ l ∈ leaves, l % 64 = i := by
    intro leaves
    induction leaves with
    | nil => simp
    | cons l leaves ih =>
      intro word
      rw [List.foldl_cons, ih, TruthTable.wordBit_or _ _ hi, Bool.or_eq_true,
        TruthTable.wordBit_unitWord hi (Nat.mod_lt _ (by decide)), decide_eq_true_iff,
        List.exists_mem_cons_iff, or_assoc, @eq_comm _ i]
  rw [signatureOf, hfold, TruthTable.wordBit_zero]
  simp

/-- Every bit of the signature of fewer leaves is a bit of that of more leaves. -/
theorem signatureOf_and_signatureOf {leaves leaves' : List NodeId} (h : leaves ⊆ leaves') :
    signatureOf leaves &&& signatureOf leaves' = signatureOf leaves := by
  apply TruthTable.word_ext
  intro i hi
  rw [TruthTable.wordBit_and _ _ hi, Bool.eq_iff_iff, Bool.and_eq_true, and_iff_left_iff_imp,
    wordBit_signatureOf _ hi, wordBit_signatureOf _ hi]
  rintro ⟨l, hl, hbit⟩
  exact ⟨l, h hl, hbit⟩

/-- Neither the sizes nor the signatures reject a cut whose leaves are all leaves of the other. -/
theorem dominates_iff (ha : a.signature = signatureOf a.leaves)
    (hb : b.signature = signatureOf b.leaves) (hnodup : a.leaves.Nodup) :
    a.dominates b = true ↔ a.leaves ⊆ b.leaves := by
  rw [dominates, Bool.and_eq_true, Bool.and_eq_true, decide_eq_true_iff, beq_iff_eq,
    List.all_eq_true]
  constructor
  · rintro ⟨-, hall⟩ l hl
    exact List.contains_iff_mem.mp (hall l hl)
  · intro hsub
    refine ⟨⟨?_, ?_⟩, fun l hl => List.contains_iff_mem.mpr (hsub hl)⟩
    · exact (List.subperm_of_subset hnodup hsub).length_le
    · rw [ha, hb]
      exact signatureOf_and_signatureOf hsub

/-! ### Irredundant sets -/

/-- Cuts in the order of their sizes, of which no one has all leaves of another. -/
structure Irredundant (set : List Cut) : Prop where
  ordered : set.Pairwise fun a b => a.size ≤ b.size
  incomparable : set.Pairwise fun a b => ¬ a.leaves ⊆ b.leaves ∧ ¬ b.leaves ⊆ a.leaves

theorem irredundant_nil : Irredundant [] := ⟨.nil, .nil⟩

theorem Irredundant.take (h : Irredundant set) (k : Nat) : Irredundant (set.take k) :=
  ⟨h.ordered.sublist (List.take_sublist k set), h.incomparable.sublist (List.take_sublist k set)⟩

/-- The place of a cut in a set: after those of its size, before the greater ones. -/
theorem size_lt_of_mem_dropWhile {kept : List Cut}
    (h : kept.Pairwise fun a b => a.size ≤ b.size) (hd : d ∈ kept.dropWhile (·.size ≤ c.size)) :
    c.size < d.size := by
  induction kept with
  | nil => cases hd
  | cons e kept ih =>
    obtain ⟨hfirst, hrest⟩ := List.pairwise_cons.mp h
    rw [List.dropWhile_cons] at hd
    split at hd
    · exact ih hrest hd
    · next hgreater =>
      have he : c.size < e.size := by simpa using hgreater
      rcases List.mem_cons.mp hd with rfl | hd
      · exact he
      · exact he.trans_le (hfirst d hd)

/-- A cut between the parts of a list. -/
theorem pairwise_place {R : Cut → Cut → Prop} {kept : List Cut} {p : Cut → Bool}
    (h : kept.Pairwise R) (hbefore : ∀ d ∈ kept.takeWhile p, R d c)
    (hafter : ∀ d ∈ kept.dropWhile p, R c d) :
    (kept.takeWhile p ++ c :: kept.dropWhile p).Pairwise R := by
  rw [← List.takeWhile_append_dropWhile (p := p) (l := kept), List.pairwise_append] at h
  obtain ⟨htake, hdrop, hacross⟩ := h
  refine List.pairwise_append.mpr ⟨htake, List.pairwise_cons.mpr ⟨hafter, hdrop⟩, ?_⟩
  intro d hd
  exact List.forall_mem_cons.mpr ⟨hbefore d hd, hacross d hd⟩

/-- Inserting a cut keeps a set irredundant, if dominance is inclusion for the cuts at hand. -/
theorem Irredundant.insertInto (h : Irredundant set)
    (hdominates : ∀ a ∈ c :: set, ∀ b ∈ c :: set, a.dominates b = true ↔ a.leaves ⊆ b.leaves) :
    Irredundant (insertInto set c) := by
  unfold Cut.insertInto
  split
  · exact h
  · next hany =>
    have hc : c ∈ c :: set := List.mem_cons_self
    have hapart : ∀ d ∈ set.filter fun other => !c.dominates other,
        ¬ d.leaves ⊆ c.leaves ∧ ¬ c.leaves ⊆ d.leaves := by
      intro d hd
      obtain ⟨hd, hnot⟩ := List.mem_filter.mp hd
      have hd' : d ∈ c :: set := List.mem_cons_of_mem _ hd
      refine ⟨fun hsub => hany ?_, fun hsub => ?_⟩
      · exact List.any_eq_true.mpr ⟨d, hd, (hdominates d hd' c hc).mpr hsub⟩
      · rw [(hdominates c hc d hd').mpr hsub] at hnot
        cases hnot
    have hordered := h.ordered.sublist (List.filter_sublist (p := fun other => !c.dominates other))
    constructor
    · refine pairwise_place hordered ?_ fun d hd => (size_lt_of_mem_dropWhile hordered hd).le
      exact fun d hd => by simpa using List.mem_takeWhile_imp hd
    · refine pairwise_place (h.incomparable.sublist List.filter_sublist) ?_ ?_
      · exact fun d hd => hapart d ((List.takeWhile_sublist _).mem hd)
      · exact fun d hd => (hapart d ((List.dropWhile_sublist _).mem hd)).symm

/-! ### Stored cuts -/

/-- The signature is that of the leaves, no leaf is a constant, and, if that was asked for, the
function depends on every leaf. -/
structure Tidy (net : Network) (settings : CutSettings) (c : Cut) : Prop where
  signature : c.signature = signatureOf c.leaves
  source : ∀ l ∈ c.leaves, net.isConstant l = false
  dependent : settings.minimize = true → ∀ v < c.function.numVars, c.function.hasVar v = true

/-- What holds of every stored cut of a node. -/
structure Stored (net : Network) (settings : CutSettings) (n : NodeId) (c : Cut) : Prop where
  sound : c.Sound net n
  below : c.Below net n
  tidy : c.Tidy net settings

/-- What holds of every cut that is found for a gate. -/
structure Found (net : Network) (settings : CutSettings) (n : NodeId) (c : Cut) : Prop where
  sound : c.Sound net n
  narrow : c.size ≤ settings.cutSize
  feeds : ∀ l ∈ c.leaves, Relation.TransGen net.Reads n l
  tidy : c.Tidy net settings

theorem Found.stored (h : c.Found net settings n) : c.Stored net settings n :=
  ⟨h.sound, .inr h.feeds, h.tidy⟩

/-- For stored cuts, dominance is inclusion of leaves. -/
theorem Tidy.dominates_iff {m : NodeId} (ha : a.Tidy net settings) (hsound : a.Sound net m)
    (hb : b.Tidy net settings) : a.dominates b = true ↔ a.leaves ⊆ b.leaves :=
  Cut.dominates_iff ha.signature hb.signature (hsound.ascending.imp Nat.ne_of_lt)

theorem tidy_ofTable {merged : List NodeId} {t : TruthTable} (ht : t.Canonical)
    (hsource : ∀ l ∈ (ofTable settings merged t).leaves, net.isConstant l = false) :
    (ofTable settings merged t).Tidy net settings := by
  refine ⟨?_, hsource, fun hminimize v hv => ?_⟩
  · unfold ofTable
    split <;> rfl
  · rw [ofTable, if_pos hminimize] at hv ⊢
    exact TruthTable.hasVar_minBase ht hv

theorem stored_trivial (hn : n < net.size) (hsource : net.isConstant n = false) :
    (trivial n).Stored net settings n := by
  refine ⟨Network.sound_trivial hn, .inl rfl, rfl, fun l hl => ?_, fun _ v hv => ?_⟩
  · rwa [List.mem_singleton.mp hl]
  · obtain rfl : v = 0 := Nat.lt_one_iff.mp hv
    rw [← Bool.not_eq_false]
    intro hnone
    have hsame := (TruthTable.hasVar_eq_false_iff
      (TruthTable.canonical_proj (by decide) 0) (by decide)).mp hnone 0
    exact absurd hsame (by decide)

theorem stored_constant {node : Node} {value : Bool} (hac : net.Acyclic)
    (hn : net.nodes[n]? = some node) (hkind : node.kind = .constant value) :
    (constant value).Stored net settings n := by
  refine ⟨Network.sound_constant hac hn hkind, .inr fun l hl => ?_, rfl, fun l hl => ?_,
    fun _ v hv => ?_⟩
  · cases hl
  · cases hl
  · have hvars : (constant value).function.numVars = 0 := TruthTable.numVars_withPolarity _ _
    rw [hvars] at hv
    exact absurd hv (Nat.not_lt_zero v)

end Cut

/-! ### Enumeration -/

namespace Network

variable {permitted : Fault → Prop} {sets : CutSets}

/-- No leaf of a cut that was picked for a fanin is a constant. -/
theorem source_of_picks (hsets : ∀ m, ∀ c ∈ sets.of m, c.Stored net settings m)
    {fanins : List Signal} {picks : List Cut}
    (hpicks : List.Forall₂ (fun s c => c ∈ sets.of s.node) fanins picks) :
    ∀ d ∈ picks, ∀ l ∈ d.leaves, net.isConstant l = false := by
  intro d hd
  obtain ⟨s, -, hd⟩ := exists_fanin_of_pick hpicks hd
  exact (hsets s.node d hd).tidy.source

/-- The node depends on `k` nodes that are no constants. They are too many for a table, and not too
many for a cut. -/
structure Crowded (net : Network) (settings : CutSettings) (n : NodeId) (k : Nat) : Prop where
  table : TruthTable.maxVars < k
  cut : k ≤ settings.cutSize
  feeders : ∃ leaves : Finset NodeId, leaves.card = k ∧
    ∀ l ∈ leaves, net.isConstant l = false ∧ Relation.TransGen net.Reads n l

/-- The leaves that stored cuts of the fanins have together, if they are too many for a table. -/
theorem crowded_of_picks {node : Node} (hn : net.nodes[n]? = some node)
    (hsets : ∀ m, ∀ c ∈ sets.of m, c.Stored net settings m) {picks : List Cut}
    (hpicks : List.Forall₂ (fun s c => c ∈ sets.of s.node) node.fanins picks)
    {merged : List NodeId} (hmerge : mergeLeaves (picks.map Cut.leaves) settings.cutSize =
      some merged) (hmax : TruthTable.maxVars < merged.length) :
    net.Crowded settings n merged.length := by
  obtain ⟨hascending, hlen, hmem⟩ := mergeLeaves_spec hmerge
  refine ⟨hmax, hlen, merged.toFinset,
    List.toFinset_card_of_nodup (hascending.imp Nat.ne_of_lt), fun l hl => ?_⟩
  obtain ⟨part, hpart, hl⟩ := (hmem l).mp (List.mem_toFinset.mp hl)
  obtain ⟨d, hd, rfl⟩ := List.mem_map.mp hpart
  exact ⟨source_of_picks hsets hpicks d hd l hl,
    feeds_of_picks (fun m c hc => (hsets m c hc).below) hn hpicks d hd l hl⟩

/-- Stored cuts of the fanins combine to a cut that may be kept. -/
theorem combine_found (hwf : net.WellFormed) (hac : net.Acyclic)
    (hcrowded : ∀ k, net.Crowded settings n k → permitted (.tooManyVariables k))
    {node : Node} {t : TruthTable} (hn : net.nodes[n]? = some node) (hkind : node.kind = .gate)
    (ht : net.functions.get? node.function = some t)
    (hsets : ∀ m, ∀ c ∈ sets.of m, c.Stored net settings m) {picks : List Cut}
    (hpicks : List.Forall₂ (fun s c => c ∈ sets.of s.node) node.fanins picks) :
    Ends permitted (Cut.combine settings t node.fanins picks) fun r =>
      ∀ c, r = some c → c.Found net settings n := by
  have hchosen := hpicks.imp fun s c hc => (hsets s.node c hc).sound
  refine (combine_ofTable hwf hac hn hkind ht hchosen fun merged hmerge hmax =>
    hcrowded _ (crowded_of_picks hn hsets hpicks hmerge hmax)).mono_eq fun r hrun hr c hc => ?_
  obtain ⟨merged, composed, hsound, hlen, rfl⟩ := hr c hc
  obtain ⟨hsound', hle⟩ : (Cut.ofTable settings merged composed).Sound net n ∧ _ :=
    Cut.sound_ofTable hsound
  -- The leaves of the new cut are leaves of cuts of the fanins.
  have hleaves := fun l hl => Cut.mem_leaves_combine (hc ▸ hrun) (l := l) hl
  refine ⟨hsound', hle.trans hlen, fun l hl => ?_, Cut.tidy_ofTable hsound.canonical fun l hl => ?_⟩
  · obtain ⟨d, hd, hl⟩ := hleaves l hl
    exact feeds_of_picks (fun m c hc => (hsets m c hc).below) hn hpicks d hd l hl
  · obtain ⟨d, hd, hl⟩ := hleaves l hl
    exact source_of_picks hsets hpicks d hd l hl

/-- The cuts of a gate apart from the trivial one. -/
structure GateCuts (net : Network) (settings : CutSettings) (n : NodeId) (others : List Cut) :
    Prop where
  length : others.length < settings.cutLimit
  narrow : ∀ c ∈ others, c.size ≤ settings.cutSize
  ascending : ∀ c ∈ others, c.leaves.Pairwise (· < ·)
  feeds : ∀ c ∈ others, ∀ l ∈ c.leaves, (net.isGate l = true ∨ net.isInput l = true) ∧
    Relation.TransGen net.Reads n l ∧ l ≠ n
  ordered : others.Pairwise fun a b => a.size ≤ b.size
  incomparable : others.Pairwise fun a b => ¬ a.leaves ⊆ b.leaves ∧ ¬ b.leaves ⊆ a.leaves

theorem isGate_or_isInput {l : NodeId} (hl : l < net.size) (hsource : net.isConstant l = false) :
    net.isGate l = true ∨ net.isInput l = true := by
  obtain ⟨node, hnode⟩ := exists_node hl
  rw [isConstant, kindIs_eq hnode] at hsource
  rw [isGate, isInput, kindIs_eq hnode, kindIs_eq hnode]
  cases hkind : node.kind with
  | constant value =>
    rw [hkind] at hsource
    cases hsource
  | primaryInput => exact .inr rfl
  | registerOutput => exact .inr rfl
  | gate => exact .inl rfl

theorem gateCuts_take (hac : net.Acyclic) (hpos : 1 ≤ settings.cutLimit) {found : List Cut}
    (hfound : ∀ c ∈ found, c.Found net settings n) (h : Cut.Irredundant found) :
    net.GateCuts settings n (found.take (settings.cutLimit - 1)) := by
  have hmem : ∀ c ∈ found.take (settings.cutLimit - 1), c.Found net settings n := fun c hc =>
    hfound c (List.mem_of_mem_take hc)
  have htake := h.take (settings.cutLimit - 1)
  refine ⟨?_, fun c hc => (hmem c hc).narrow, fun c hc => (hmem c hc).sound.ascending,
    fun c hc l hl => ⟨?_, (hmem c hc).feeds l hl, ?_⟩, htake.ordered, htake.incomparable⟩
  · have hle := List.length_take_le (settings.cutLimit - 1) found
    omega
  · exact isGate_or_isInput ((hmem c hc).sound.exist l hl) ((hmem c hc).tidy.source l hl)
  · rintro rfl
    exact hac l ((hmem c hc).feeds l hl)

/-- The cuts of a node, by its kind. -/
structure FormedCuts (net : Network) (settings : CutSettings) (n : NodeId) (cuts : List Cut) :
    Prop where
  constant : net.isConstant n = true → ∃ c, cuts = [c] ∧ c.leaves = []
  input : net.isInput n = true → cuts = [.trivial n]
  gate : net.isGate n = true → ∃ others, cuts = others ++ [.trivial n] ∧
    net.GateCuts settings n others

theorem FormedCuts.trivial_mem {cuts : List Cut} (h : net.FormedCuts settings n cuts)
    (hn : n < net.size) (hsource : net.isConstant n = false) : .trivial n ∈ cuts := by
  rcases isGate_or_isInput hn hsource with hgate | hinput
  · obtain ⟨others, rfl, -⟩ := h.gate hgate
    exact List.mem_append_right _ List.mem_cons_self
  · rw [h.input hinput]
    exact List.mem_cons_self

theorem cutsOf_formed (hwf : net.WellFormed) (hac : net.Acyclic)
    (hlimit : settings.cutLimit < 2 ^ 62 ∨ permitted .overflow)
    (hcrowded : ∀ k, net.Crowded settings n k → permitted (.tooManyVariables k))
    (hpos : 1 ≤ settings.cutLimit)
    (hsets : ∀ m, ∀ c ∈ sets.of m, c.Stored net settings m) (hn : n < net.size) :
    Ends permitted (net.cutsOf settings sets n) fun cuts =>
      (∀ c ∈ cuts, c.Stored net settings n) ∧ net.FormedCuts settings n cuts := by
  obtain ⟨node, hnode⟩ := exists_node hn
  have hconstant : net.isConstant n = node.kind.isConstant := kindIs_eq hnode
  have hinput : net.isInput n = node.kind.isInput := kindIs_eq hnode
  have hgate : net.isGate n = node.kind.isGate := kindIs_eq hnode
  have htrivial : net.isConstant n = false →
      ∀ c ∈ [Cut.trivial n], c.Stored net settings n := by
    intro hsource c hc
    obtain rfl := List.mem_singleton.mp hc
    exact Cut.stored_trivial hn hsource
  rw [cutsOf, node_eq hnode, ok_bind]
  cases hkind : node.kind with
  | constant value =>
    rw [hkind] at hinput hgate
    refine ⟨fun c hc => ?_, fun _ => ⟨_, rfl, rfl⟩, fun h => ?_, fun h => ?_⟩
    · obtain rfl := List.mem_singleton.mp hc
      exact Cut.stored_constant hac hnode hkind
    · cases hinput.symm.trans h
    · cases hgate.symm.trans h
  | primaryInput =>
    rw [hkind] at hconstant hgate
    refine ⟨htrivial hconstant, fun h => ?_, fun _ => rfl, fun h => ?_⟩
    · cases hconstant.symm.trans h
    · cases hgate.symm.trans h
  | registerOutput =>
    rw [hkind] at hconstant hgate
    refine ⟨htrivial hconstant, fun h => ?_, fun _ => rfl, fun h => ?_⟩
    · cases hconstant.symm.trans h
    · cases hgate.symm.trans h
  | gate =>
    rw [hkind] at hconstant hinput
    obtain ⟨t, ht, -⟩ := hwf.exists_function hnode hkind
    simp only [FunctionCache.get_eq_ok.mpr ht, ok_bind]
    refine Ends.bind (searchCuts_ends (fun found =>
      (∀ c ∈ found, c.Found net settings n) ∧ Cut.Irredundant found)
      ⟨fun c hc => absurd hc List.not_mem_nil, Cut.irredundant_nil⟩
      (isSaturated_ends hlimit) ?_) ?_
    · rintro picks found hpicks ⟨hfound, hset⟩
      refine (combine_found hwf hac hcrowded hnode hkind ht hsets hpicks).mono fun r hr c hc => ?_
      have hall : ∀ d ∈ c :: found, d.Found net settings n :=
        List.forall_mem_cons.mpr ⟨hr c hc, hfound⟩
      refine ⟨fun d hd => hall d (List.mem_cons.mpr (mem_insertInto hd)), hset.insertInto ?_⟩
      exact fun a ha b hb => (hall a ha).tidy.dominates_iff (hall a ha).sound (hall b hb).tidy
    · rintro search ⟨hfound, hset⟩
      refine ⟨fun c hc => ?_, fun h => ?_, fun h => ?_, fun _ => ?_⟩
      · rcases List.mem_append.mp hc with hc | hc
        · exact (hfound c (List.mem_of_mem_take hc)).stored
        · exact htrivial hconstant c hc
      · cases hconstant.symm.trans h
      · cases hinput.symm.trans h
      · exact ⟨_, rfl, gateCuts_take hac hpos hfound hset⟩

/-- Enumeration stores a set of the right form for every node, unless some node is too crowded. -/
theorem enumerateCuts_formed_or_crowded (hwf : net.WellFormed) (hac : net.Acyclic)
    (hpos : 1 ≤ settings.cutLimit ∨ permitted .noTrivialCut)
    (hlimit : settings.cutLimit < 2 ^ 62 ∨ permitted .overflow)
    (hcrowded : ∀ n k, net.Crowded settings n k → permitted (.tooManyVariables k)) :
    Ends permitted (net.enumerateCuts settings) fun sets =>
      (∀ n, ∀ c ∈ sets.of n, c.Stored net settings n) ∧
        ∀ n < net.size, net.FormedCuts settings n (sets.of n) := by
  refine (enumerateCuts_stores (fun n cuts => (∀ c ∈ cuts, c.Stored net settings n) ∧
    net.FormedCuts settings n cuts) hpos ?_).mono ?_
  · intro hpos sets n hn hsets
    exact cutsOf_formed hwf hac hlimit (hcrowded n) hpos
      (fun m c hc => (hsets m (List.ne_nil_of_mem hc)).1 c hc) hn
  · rintro sets ⟨-, -, hsets, hall⟩
    exact ⟨fun n c hc => (hsets n (List.ne_nil_of_mem hc)).1 c hc,
      fun n hn => (hall n (mem_coneOrder_nodeIds hwf hac hn)).2⟩

theorem enumerateCuts_formed (hwf : net.WellFormed) (hac : net.Acyclic)
    (hallowed : settings.Allowed permitted) :
    Ends permitted (net.enumerateCuts settings) fun sets =>
      (∀ n, ∀ c ∈ sets.of n, c.Stored net settings n) ∧
        ∀ n < net.size, net.FormedCuts settings n (sets.of n) :=
  enumerateCuts_formed_or_crowded hwf hac hallowed.limit_pos hallowed.limit_lt
    fun _ _ h => hallowed.permits h.table h.cut

/-- The stored sets: one cut without leaves for a constant, the trivial cut for an input, and for a
gate an irredundant set of cuts over its transitive fanin, with the trivial cut last. Every function
has a variable for each leaf, and with shrinking depends on all of them. -/
theorem stored_cuts_irredundant (hbuilt : net.Built) (hac : net.Acyclic)
    (hpos : 1 ≤ settings.cutLimit) (hlimit : settings.cutLimit < 2 ^ 62)
    (hsize : settings.cutSize ≤ TruthTable.maxVars) :
    ∃ sets, net.enumerateCuts settings = .ok sets ∧
      (∀ n, net.isConstant n = true → ∃ c, sets.of n = [c] ∧ c.leaves = []) ∧
      (∀ n, net.isInput n = true → sets.of n = [.trivial n]) ∧
      (∀ n, net.isGate n = true → ∃ others, sets.of n = others ++ [.trivial n] ∧
        net.GateCuts settings n others) ∧
      (∀ n, ∀ c ∈ sets.of n, c.function.numVars = c.leaves.length ∧
        (settings.minimize = true → ∀ v < c.function.numVars, ∃ code,
          c.function.bit (setVar code v false) ≠ c.function.bit (setVar code v true))) ∧
      ∀ n m, ∀ a ∈ sets.of n, ∀ b ∈ sets.of m,
        (a.dominates b = true ↔ ∀ l ∈ a.leaves, l ∈ b.leaves) := by
  obtain ⟨sets, hrun, hsets, hformed⟩ := ends_never_iff.mp
    (enumerateCuts_formed hbuilt.wellFormed hac ⟨.inl hpos, .inl hlimit, .inl hsize⟩)
  refine ⟨sets, hrun, ?_, ?_, ?_, fun n c hc => ⟨(hsets n c hc).sound.arity, ?_⟩, ?_⟩
  · exact fun n hn => (hformed n (lt_size_of_kindIs hn)).constant hn
  · exact fun n hn => (hformed n (lt_size_of_kindIs hn)).input hn
  · exact fun n hn => (hformed n (lt_size_of_kindIs hn)).gate hn
  · intro hminimize v hv
    by_contra! hsame
    have hnone := (TruthTable.hasVar_eq_false_iff (hsets n c hc).sound.canonical hv).mpr hsame
    exact Bool.false_ne_true (hnone.symm.trans ((hsets n c hc).tidy.dependent hminimize v hv))
  · exact fun n m a ha b hb =>
      (hsets n a ha).tidy.dominates_iff (hsets n a ha).sound (hsets m b hb).tidy

theorem stored_cuts_irredundant_conjunctionOfThree :
    ∃ sets, conjunctionOfThree.enumerateCuts {} = .ok sets ∧
      (∀ n, conjunctionOfThree.isConstant n = true → ∃ c, sets.of n = [c] ∧ c.leaves = []) ∧
      (∀ n, conjunctionOfThree.isInput n = true → sets.of n = [.trivial n]) ∧
      (∀ n, conjunctionOfThree.isGate n = true → ∃ others, sets.of n = others ++ [.trivial n] ∧
        conjunctionOfThree.GateCuts {} n others) ∧
      (∀ n, ∀ c ∈ sets.of n, c.function.numVars = c.leaves.length ∧
        (({} : CutSettings).minimize = true → ∀ v < c.function.numVars, ∃ code,
          c.function.bit (setVar code v false) ≠ c.function.bit (setVar code v true))) ∧
      ∀ n m, ∀ a ∈ sets.of n, ∀ b ∈ sets.of m,
        (a.dominates b = true ↔ ∀ l ∈ a.leaves, l ∈ b.leaves) :=
  stored_cuts_irredundant built_conjunctionOfThree acyclic_conjunctionOfThree (by decide)
    (by decide) (by decide)

end Network

end LogicSynthesis
