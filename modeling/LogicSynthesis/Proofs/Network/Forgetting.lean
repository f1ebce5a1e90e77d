import LogicSynthesis.Proofs.Network.Bookkeeping
import LogicSynthesis.Proofs.Network.NormalForm
import LogicSynthesis.Proofs.Network.Sharing

/-!
# What the index forgets

A constructor enters each gate into the index. A substitution removes the entry of the replaced
gate, and of each gate that it edits before it enters the new fanins. Another gate of the same
fanins and function is not entered in its place, and neither is the replaced gate itself when the
replacing node still reads it. From then on the index does not find a gate that is there, and a
constructor that asks for it makes a second one. All other gates are still found.

## Main definitions

- `Network.Edited` — the gates that a substitution edits
- `Network.Entries` — where the entries of the index come from in the course of a substitution
- `Substitution`, `Network.AssembledBy` — the substitutions in the history of a network
- `Substitution.Drops` — a substitution removes an entry without need

## Main statements

- `entries_substitute` — the index after a substitution
- `assembled_iff` — every assembled network has a history
- `gates_found_unless_dropped` — a gate is found again, unless a substitution dropped its entry
- `createNode_of_drops` — what was dropped is made a second time
- `twin_created_twice` — a gate in use whose entry was dropped, and a second gate like it
-/

namespace LogicSynthesis

namespace Network

variable {net net' : Network} {old n m : NodeId} {new : Signal} {k literal : Nat}
  {fanins : List Signal} {index : Std.HashMap (List Signal × Nat) NodeId}

/-! ### The index in the course of a substitution -/

/-- Gate `m` is edited when `old` is replaced by `new`. -/
def Edited (net : Network) (old : NodeId) (new : Signal) (m : NodeId) : Prop :=
  m ≠ new.node ∧ net.Reads m old

/-- The index when the gates below `k` are done: the entries of other gates are kept, the edited
gates are entered, and no entry is of another origin. -/
structure Entries (net : Network) (old : NodeId) (new : Signal) (k : Nat)
    (index : Std.HashMap (List Signal × Nat) NodeId) : Prop where
  kept : ∀ (key : List Signal × Nat) (m : NodeId), net.index[key]? = some m → m ≠ old →
    ¬ net.Edited old new m → index[key]? = some m
  entered : ∀ (m : NodeId) (node : Node), m < k → net.Edited old new m →
    net.nodes[m]? = some node →
      ∃ m', index[(reroute net.basis old new m node.fanins, node.function)]? = some m'
  source : ∀ (key : List Signal × Nat) (m : NodeId), index[key]? = some m →
    net.index[key]? = some m ∧ m ≠ old ∨ net.Edited old new m

/-- The entries of other gates are kept, and so are those of other keys. -/
theorem getElem?_forgetEntry_of_ne {key : List Signal × Nat} {node : Node}
    (h : index[key]? = some m) (hne : m ≠ n ∨ (node.fanins, node.function) ≠ key) :
    (forgetEntry index n node)[key]? = some m := by
  simp only [forgetEntry]
  split
  · next hfound =>
    have hkey : (node.fanins, node.function) ≠ key := by
      refine hne.elim (fun hm heq => ?_) id
      rw [heq, h] at hfound
      exact hm (Option.some.inj hfound)
    rw [Std.HashMap.getElem?_erase, beq_eq_false_iff_ne.mpr hkey, if_neg Bool.false_ne_true, h]
  · exact h

theorem getElem?_insertIfNew_of_some {key key' : List Signal × Nat} (h : index[key]? = some m) :
    (index.insertIfNew key' n)[key]? = some m := by
  rw [Std.HashMap.getElem?_insertIfNew, if_neg, h]
  rintro ⟨heq, hnot⟩
  rw [eq_of_beq heq, Std.HashMap.mem_iff_isSome_getElem?, h] at hnot
  exact hnot rfl

theorem exists_getElem?_insertIfNew (index : Std.HashMap (List Signal × Nat) NodeId)
    (key : List Signal × Nat) (n : NodeId) : ∃ m, (index.insertIfNew key n)[key]? = some m := by
  cases hfound : index[key]? with
  | some m => exact ⟨m, getElem?_insertIfNew_of_some hfound⟩
  | none =>
    refine ⟨n, ?_⟩
    rw [Std.HashMap.getElem?_insertIfNew, if_pos]
    refine ⟨beq_self_eq_true key, fun hmem => ?_⟩
    rw [Std.HashMap.mem_iff_isSome_getElem?, hfound] at hmem
    cases hmem

theorem entries_start (hwf : net.WellFormed) {node : Node} (hnode : net.nodes[old]? = some node) :
    net.Entries old new 0 (forgetEntry net.index old node) := by
  refine ⟨fun key m hm hne _ => getElem?_forgetEntry_of_ne hm (.inl hne), nofun, ?_⟩
  intro key m hm
  obtain ⟨hfound, hother⟩ := getElem?_forgetEntry hm
  refine .inl ⟨hfound, ?_⟩
  rintro rfl
  obtain ⟨node', hnode', -, hkey⟩ := hwf.index key _ hfound
  obtain rfl := Option.some.inj (hnode.symm.trans hnode')
  exact hother hkey rfl

/-- A gate that is not edited is done. -/
theorem Entries.skip (h : net.Entries old new k index) (hskip : ¬ net.Edited old new k) :
    net.Entries old new (k + 1) index := by
  refine ⟨h.kept, fun m node hlt hedited => ?_, h.source⟩
  have hne : m ≠ k := by
    rintro rfl
    exact hskip hedited
  exact h.entered m node (lt_of_le_of_ne (Nat.le_of_lt_succ hlt) hne) hedited

/-- An edited gate gives up its entry. It is entered under its new fanins, unless they are those of
another gate. -/
theorem Entries.edit (h : net.Entries old new k index) (hne : new.node ≠ old) {node : Node}
    (hnode : net.nodes[k]? = some node) (hedit : net.Edited old new k) :
    net.Entries old new (k + 1) ((forgetEntry index k node).insertIfNew
      (reroute net.basis old new k node.fanins, node.function) k) := by
  refine ⟨?_, ?_, ?_⟩
  · intro key m hm hold hnot
    have hmk : m ≠ k := by
      rintro rfl
      exact hnot hedit
    exact getElem?_insertIfNew_of_some
      (getElem?_forgetEntry_of_ne (h.kept key m hm hold hnot) (.inl hmk))
  · intro m node' hlt hedited hnode'
    by_cases hmk : m = k
    · subst hmk
      obtain rfl := Option.some.inj (hnode.symm.trans hnode')
      exact exists_getElem?_insertIfNew _ _ _
    · obtain ⟨m', hm'⟩ := h.entered m node'
        (lt_of_le_of_ne (Nat.le_of_lt_succ hlt) hmk) hedited hnode'
      -- The fanins that gate `k` gives up read `old`, and edited fanins do not.
      have hkey : (node.fanins, node.function) ≠
          (reroute net.basis old new m node'.fanins, node'.function) := by
        intro heq
        obtain ⟨s, hs, hold⟩ := reads_iff.mp hedit.2
        rw [fanins_eq hnode, (Prod.mk.inj heq).1] at hs
        obtain ⟨-, s', -, rfl⟩ := (mem_reroute hs).resolve_left fun hnew => hedited.1 hnew.1
        unfold redirect at hold
        split at hold
        · exact hne hold
        · contradiction
      exact ⟨m', getElem?_insertIfNew_of_some (getElem?_forgetEntry_of_ne hm' (.inr hkey))⟩
  · intro key m hm
    rw [Std.HashMap.getElem?_insertIfNew] at hm
    split at hm
    · obtain rfl := Option.some.inj hm
      exact .inr hedit
    · exact h.source key m (getElem?_forgetEntry hm).1

theorem Entries.step (hwf : net.WellFormed) (hne : new.node ≠ old) {state : Rerouting}
    (hstate : Rerouted net old new k state) (h : net.Entries old new k state.net.index) :
    net.Entries old new (k + 1) (rerouteGate old new state k).net.index := by
  obtain ⟨cur, moved, edited⟩ := state
  obtain ⟨nodes, index, rfl⟩ := hstate.rest
  have hnode := hstate.nodes k
  simp only [lt_irrefl, if_false, Option.map_id'] at hnode
  simp only [rerouteGate, hnode]
  cases hk : net.nodes[k]? with
  | none =>
    refine h.skip fun hedit => ?_
    exact absurd hedit.2.lt_size (Nat.not_lt.mpr (Array.getElem?_eq_none_iff.mp hk))
  | some node =>
    have hreads : net.Reads k old ↔ node.fanins.any (·.node == old) = true := by
      rw [reads_iff, fanins_eq hk, List.any_eq_true]
      simp only [beq_iff_eq]
    by_cases hedit : net.Edited old new k
    · obtain ⟨node', hnode', hkind⟩ := isGate_iff.mp (hwf.isGate_of_reads hedit.2)
      obtain rfl := Option.some.inj (hk.symm.trans hnode')
      have hany := hreads.mp hedit.2
      have hgate : node.kind.isGate = true := by
        rw [hkind]
        rfl
      have hentries := h.edit hne hk hedit
      simp only [reroute, if_pos (And.intro hedit.1 hany)] at hentries
      simpa only [if_pos (And.intro hedit.1 (And.intro hgate hany))] using hentries
    · have hcond : ¬(k ≠ new.node ∧ node.kind.isGate = true ∧
          node.fanins.any (·.node == old) = true) :=
        fun hcond => hedit ⟨hcond.1, hreads.mpr hcond.2.2⟩
      simp only [if_neg hcond]
      exact h.skip hedit

/-- The index after a substitution. -/
theorem entries_substitute (hwf : net.WellFormed) (hne : new.node ≠ old)
    (hsub : net.substitute old new = .ok net') : net.Entries old new net.size net'.index := by
  obtain ⟨hold, hcases⟩ := substitute_spec hwf hsub
  obtain ⟨-, hnew, -, -⟩ := hcases.resolve_left fun heq => hne heq.1
  obtain ⟨node, hnode, hkind⟩ := isGate_iff.mp hold
  obtain rfl := Except.ok.inj ((substitute_eq hwf hnode hkind hnew hne).symm.trans hsub)
  have hentries : ∀ k, net.Entries old new k ((List.range k).foldl (rerouteGate old new)
      ⟨{ net with index := forgetEntry net.index old node }, 0, []⟩).net.index := by
    intro k
    induction k with
    | zero => exact entries_start hwf hnode
    | succ k ih =>
      rw [List.range_succ, List.foldl_append, List.foldl_cons, List.foldl_nil]
      exact ih.step hwf hne (rerouted_foldl hwf hne node k)
  exact hentries net.size

/-! ### Gates through a substitution -/

theorem HasGate.substituted (h : net.HasGate n fanins literal)
    (hsub : Substituted net old new net') :
    net'.HasGate n (reroute net.basis old new n fanins) literal := by
  obtain ⟨fanout, hnode⟩ := h
  obtain ⟨node', hnode', hkind, rfl, hfanins⟩ := hsub.nodes n _ hnode
  rw [← hfanins]
  exact hasGate_of_node hnode' hkind

theorem HasGate.former (h : net'.HasGate n fanins literal) (hsub : Substituted net old new net') :
    ∃ former, net.HasGate n former literal ∧ fanins = reroute net.basis old new n former := by
  obtain ⟨fanout, hnode'⟩ := h
  obtain ⟨node, hnode, hkind, rfl, rfl⟩ := hsub.node_eq hnode'
  exact ⟨node.fanins, hasGate_of_node hnode hkind.symm, rfl⟩

end Network

open Network

/-! ### Histories -/

/-- A substitution that was made, with the network before it. -/
structure Substitution where
  before : Network
  old : NodeId
  new : Signal

/-- The substitution takes an entry away although a gate keeps its fanins and its function: the
entry leads to the replaced gate, which stays as it is, or to an edited gate that is like the
replacing one. -/
def Substitution.Drops (sub : Substitution) (fanins : List Signal) (literal : Nat) : Prop :=
  sub.new.node ≠ sub.old ∧ ∃ m, sub.before.index[(fanins, literal)]? = some m ∧
    (m = sub.old ∨ sub.before.Edited sub.old sub.new m ∧
      sub.before.HasGate sub.new.node fanins literal)

namespace Network

variable {net net' : Network} {old n m : NodeId} {new : Signal} {literal : Nat}
  {fanins : List Signal} {dropped : List Signal → Nat → Prop} {subs : List Substitution}

/-- The networks that operations make, each with the substitutions among them, latest first. -/
inductive AssembledBy : List Substitution → Network → Prop
  | new (basis : Basis) : AssembledBy [] (.new basis)
  | construct {subs : List Substitution} {net net' : Network} (former : AssembledBy subs net)
      (h : net.Constructs net') : AssembledBy subs net'
  | substitute {subs : List Substitution} {net net' : Network} {old : NodeId} {new : Signal}
      (former : AssembledBy subs net) (hnew : net.basis.Admits new)
      (hsub : net.substitute old new = .ok net') : AssembledBy (⟨net, old, new⟩ :: subs) net'
  | annotate {subs : List Substitution} {net : Network} {scratch : Scratch}
      (former : AssembledBy subs net) (hvalues : scratch.values.size = net.size)
      (hmarks : scratch.marks.size = net.size) : AssembledBy subs (net.withScratch scratch)
  | watch {subs : List Substitution} {net : Network} (former : AssembledBy subs net)
      (events : Events) : AssembledBy subs { net with events }

theorem AssembledBy.assembled (h : AssembledBy subs net) : net.Assembled := by
  induction h with
  | new basis => exact .new basis
  | construct _ h ih => exact ih.construct h
  | substitute _ hnew hsub ih => exact ih.edit (.substitute hnew hsub)
  | annotate _ hvalues hmarks ih => exact ih.edit (.annotate hvalues hmarks)
  | watch _ events ih => exact ih.edit (.watch events)

/-- Every assembled network has a history. -/
theorem assembled_iff : net.Assembled ↔ ∃ subs, AssembledBy subs net := by
  refine ⟨fun h => ?_, fun ⟨_, h⟩ => h.assembled⟩
  induction h with
  | new basis => exact ⟨[], .new basis⟩
  | edit _ hedit ih =>
    obtain ⟨subs, hsubs⟩ := ih
    cases hedit with
    | construct h => exact ⟨subs, hsubs.construct h⟩
    | substitute hnew hsub => exact ⟨_, hsubs.substitute hnew hsub⟩
    | annotate hvalues hmarks => exact ⟨subs, hsubs.annotate hvalues hmarks⟩
    | watch events => exact ⟨subs, hsubs.watch events⟩

theorem Constructed.assembledBy (h : net.Constructed) : AssembledBy [] net := by
  induction h with
  | new basis => exact .new basis
  | construct _ h ih => exact ih.construct h
  | annotate _ hvalues hmarks ih => exact ih.annotate hvalues hmarks
  | watch _ events ih => exact ih.watch events

/-! ### Gates that are found -/

/-- The index finds every gate, unless its fanins and function were dropped. -/
def FindsBut (dropped : List Signal → Nat → Prop) (net : Network) : Prop :=
  ∀ (n : NodeId) (fanins : List Signal) (literal : Nat), net.HasGate n fanins literal →
    dropped fanins literal ∨ ∃ m, net.index[(fanins, literal)]? = some m

namespace FindsBut

theorem congr (h : FindsBut dropped net) (hindex : net'.index = net.index)
    (hgates : ∀ {n fanins literal}, net'.HasGate n fanins literal →
      net.HasGate n fanins literal) : FindsBut dropped net' := by
  intro n fanins literal hn
  rw [hindex]
  exact h n fanins literal (hgates hn)

theorem push (h : FindsBut dropped net) (kind : NodeKind) (hkind : kind ≠ .gate)
    (hnodes : net'.nodes = net.nodes.push (inputNode kind)) (hindex : net'.index = net.index) :
    FindsBut dropped net' := by
  refine h.congr hindex fun hn => ?_
  have hcases := (@hasGate_push net net' _ _ _ (inputNode kind) hnodes).mp hn
  exact hcases.resolve_right fun hnew => hkind hnew.2.1

theorem addOutput (h : FindsBut dropped net) {s : Signal} (hadd : net.AddsOutput s net') :
    FindsBut dropped net' := h.congr hadd.index (hasGate_countReaders hadd.nodes).mp

theorem createNode (h : FindsBut dropped net)
    (hcreate : net.createNode fanins literal = .ok (n, net')) : FindsBut dropped net' := by
  obtain ⟨hentered, hremembers⟩ := index_createNode hcreate
  intro i fanins' literal' hi
  rcases createNode_eq_ok hcreate with ⟨-, rfl⟩ | ⟨-, rfl, -⟩
  · exact h i fanins' literal' hi
  · rcases hasGate_appendGate.mp hi with hi | ⟨-, rfl, rfl⟩
    · exact (h i fanins' literal' hi).imp_right fun ⟨m, hm⟩ => ⟨m, hremembers.index _ m hm⟩
    · exact .inr ⟨n, hentered⟩

/-- A substitution leaves all gates to be found but those that it drops. -/
theorem substitute (h : FindsBut dropped net) (hwf : net.WellFormed)
    (hsub : net.substitute old new = .ok net') :
    FindsBut (fun fanins literal => Substitution.Drops ⟨net, old, new⟩ fanins literal ∨
      dropped fanins literal) net' := by
  intro n fanins literal hn
  rcases (substitute_spec hwf hsub).2 with ⟨-, rfl⟩ | ⟨hne, -, hspec, -⟩
  · exact (h n fanins literal hn).imp_left .inr
  have hentries := entries_substitute hwf hne hsub
  obtain ⟨former, hformer, rfl⟩ := hn.former hspec
  by_cases hedit : net.Edited old new n
  · obtain ⟨fanout, hnode⟩ := hformer
    exact .inr (hentries.entered n _ hedit.2.lt_size hedit hnode)
  · have hsame : reroute net.basis old new n former = former := by
      refine reroute_of_not fun hcond => hedit ⟨hcond.1, hformer.reads_iff.mpr ?_⟩
      obtain ⟨s, hs, hold⟩ := List.any_eq_true.mp hcond.2
      exact ⟨s, hs, eq_of_beq hold⟩
    rw [hsame]
    rcases h n former literal hformer with hdropped | ⟨m, hm⟩
    · exact .inl (.inr hdropped)
    by_cases hold : m = old
    · exact .inl (.inl ⟨hne, m, hm, .inl hold⟩)
    by_cases hedit' : net.Edited old new m
    · -- The gate reads `old` as well, and it is not edited only if it is the replacing one.
      have hreads : net.Reads n old :=
        hformer.reads_iff.mpr ((hasGate_of_index hwf hm).reads_iff.mp hedit'.2)
      obtain rfl : n = new.node := by
        by_contra hnew
        exact hedit ⟨hnew, hreads⟩
      exact .inl (.inl ⟨hne, m, hm, .inr ⟨hedit', hformer⟩⟩)
    · exact .inr ⟨m, hentries.kept _ m hm hold hedit'⟩

end FindsBut

/-- Creating gates and entering functions leaves all gates to be found that were. -/
theorem growthInvariant_findsBut (dropped : List Signal → Nat → Prop) :
    Build.GrowthInvariant fun net => net.WellFormed ∧ FindsBut dropped net :=
  ⟨fun h => h.1, fun h hfits _ hcreate => ⟨h.1.createNode hfits hcreate, h.2.createNode hcreate⟩,
    fun h ht => ⟨h.1.insertFunction ht, h.2.congr rfl fun hn => hn⟩⟩

theorem Constructs.findsBut (h : net.Constructs net') (hwf : net.WellFormed)
    (hnet : FindsBut dropped net) : FindsBut dropped net' := by
  have hgrow := growthInvariant_findsBut dropped
  cases h with
  | pi => exact hnet.push .primaryInput nofun rfl rfl
  | ro => exact hnet.push .registerOutput nofun rfl rfl
  | po _ hadd => exact hnet.addOutput (addsOutput_of_addPo hadd)
  | ri _ hadd => exact hnet.addOutput (addsOutput_of_addRi hadd)
  | operator hop hrun => exact (hop.maintains hgrow ⟨hwf, hnet⟩ hrun).2
  | clone hmodel _ _ hrun => exact (hgrow.of_cloneNode hmodel ⟨hwf, hnet⟩ hrun).2

theorem AssembledBy.findsBut (h : AssembledBy subs net) :
    FindsBut (fun fanins literal => ∃ sub ∈ subs, sub.Drops fanins literal) net := by
  induction h with
  | new basis =>
    exact fun n fanins literal hn => .inr ⟨n, (normal_new basis).indexed hn⟩
  | construct former h ih => exact h.findsBut former.assembled.built.wellFormed ih
  | substitute former _ hsub ih =>
    have hstep := ih.substitute former.assembled.built.wellFormed hsub
    simpa only [FindsBut, List.exists_mem_cons_iff] using hstep
  | annotate _ _ _ ih => exact ih.congr rfl fun hn => hn
  | watch _ _ ih => exact ih.congr rfl fun hn => hn

/-- A gate is found again under its fanins and its function, and the network stays as it is, unless
a substitution in its history dropped just these. -/
theorem gates_found_unless_dropped (h : AssembledBy subs net)
    (hgate : net.HasGate n fanins literal) (hkept : ∀ sub ∈ subs, ¬ sub.Drops fanins literal) :
    ∃ m, net.HasGate m fanins literal ∧ net.createNode fanins literal = .ok (m, net) := by
  have hwf := h.assembled.built.wellFormed
  rcases h.findsBut n fanins literal hgate with ⟨sub, hsub, hdrops⟩ | ⟨m, hm⟩
  · exact absurd hdrops (hkept sub hsub)
  · exact ⟨m, hasGate_of_index hwf hm, createNode_of_index hm⟩

/-! ### A gate that is not found -/

/-- What a substitution drops is there and is not found, unless an edited gate has become like it.
Asking for it appends a second gate. -/
theorem createNode_of_drops (h : net.Built) (hsub : net.substitute old new = .ok net')
    (hdrops : Substitution.Drops ⟨net, old, new⟩ fanins literal)
    (hnone : ∀ m, net.Edited old new m → ¬ net'.HasGate m fanins literal) :
    (∃ n, net'.HasGate n fanins literal) ∧
      net'.createNode fanins literal = .ok (net'.appendGate fanins literal) := by
  have hwf := h.wellFormed
  obtain ⟨hne, m, hm, hcases⟩ := hdrops
  obtain ⟨-, -, hspec, hwf'⟩ := (substitute_spec hwf hsub).2.resolve_left fun heq => hne heq.1
  have hgate := hasGate_of_index hwf hm
  have hthere : ∃ n, net'.HasGate n fanins literal := by
    rcases hcases with rfl | ⟨-, hnew⟩
    · refine ⟨m, ?_⟩
      have hkept := hgate.substituted hspec
      rwa [reroute_eq_self] at hkept
      exact fun s hs heq => h.not_reads_self m (hgate.reads_iff.mpr ⟨s, hs, heq⟩)
    · refine ⟨new.node, ?_⟩
      have hkept := hnew.substituted hspec
      rwa [reroute_of_not fun hcond => hcond.1 rfl] at hkept
  have hforgotten : net'.index[(fanins, literal)]? = none := by
    by_contra hsome
    obtain ⟨m', hm'⟩ := Option.ne_none_iff_exists'.mp hsome
    have hgate' := hasGate_of_index hwf' hm'
    rcases (entries_substitute hwf hne hsub).source _ m' hm' with ⟨hfound, hold⟩ | hedit
    · obtain rfl := Option.some.inj (hm.symm.trans hfound)
      rcases hcases with rfl | ⟨hedit, -⟩
      · exact hold rfl
      · exact hnone m hedit hgate'
    · exact hnone m' hedit hgate'
  refine ⟨hthere, createNode_eq_appendGate hforgotten fun s hs => ?_⟩
  obtain ⟨n, hn⟩ := hthere
  exact hwf'.edges s (mem_edges_iff.mpr (.inl ⟨n, hn.fanins_eq.symm ▸ hs⟩))

/-- The conjunctions of the first input with the second and with the third. -/
def twoConjunctions : Network :=
  (innerConjunction.appendGate [⟨1, false⟩, ⟨3, false⟩] Basis.gateLiteral).2

/-- The conjunction of the second input and gate `5`, as output. Over the first input in place of
gate `5` it would be gate `4` again. -/
def twinConjunctions : Network :=
  let net := (twoConjunctions.appendGate [⟨2, false⟩, ⟨5, false⟩] Basis.gateLiteral).2
  { net with nodes := countReader net.nodes 6, pos := #[⟨6, false⟩] }

/-- The fanins of both twins. -/
def twinFanins : List Signal := [⟨1, false⟩, ⟨2, false⟩]

theorem constructed_twinConjunctions : twinConjunctions.Constructed := by
  have htwo : twoConjunctions.Constructed := by
    refine constructed_innerConjunction.construct
      (.conjunction rfl (by decide) (by decide) (by decide) ?_ (by decide))
    refine Std.HashMap.getElem?_insert.trans ((if_neg (by decide)).trans ?_)
    exact Std.HashMap.getElem?_empty
  have hnew : twoConjunctions.index[([(⟨2, false⟩ : Signal), ⟨5, false⟩],
      Basis.gateLiteral)]? = none := by
    refine Std.HashMap.getElem?_insert.trans ((if_neg (by decide)).trans ?_)
    refine Std.HashMap.getElem?_insert.trans ((if_neg (by decide)).trans ?_)
    exact Std.HashMap.getElem?_empty
  have hthree := htwo.construct (.conjunction rfl (by decide) (by decide) (by decide) hnew
    (by decide))
  exact hthree.construct
    (.po (fun hlut => absurd hlut (by decide)) (addPo_eq (s := ⟨6, false⟩) (by decide)))

/-- Replacing gate `5` by the first input turns gate `6` into a twin of gate `4`. -/
theorem substitute_twinConjunctions : ∃ net',
    twinConjunctions.substitute 5 ⟨1, false⟩ = .ok net' ∧ net'.WellFormed ∧
      Substituted twinConjunctions 5 ⟨1, false⟩ net' ∧
      net'.HasGate 6 twinFanins Basis.gateLiteral ∧
      net'.index[(twinFanins, Basis.gateLiteral)]? = some 4 := by
  have hwf := constructed_twinConjunctions.assembled.built.wellFormed
  obtain ⟨net', hrun, hspec, hwf'⟩ :=
    @exists_substitute _ 5 ⟨1, false⟩ hwf (by decide) (by decide) (by decide)
  have htwin : twinConjunctions.HasGate 6 [⟨2, false⟩, ⟨5, false⟩] Basis.gateLiteral :=
    ⟨1, rfl⟩
  have hfour : twinConjunctions.HasGate 4 twinFanins Basis.gateLiteral :=
    ⟨0, rfl⟩
  have hrerouted : reroute .andInverter 5 ⟨1, false⟩ 6 [⟨2, false⟩, ⟨5, false⟩] =
      twinFanins := by
    rw [reroute, if_pos (by decide)]
    exact (if_pos rfl).trans ((Signal.sort_pair ⟨2, false⟩ ⟨1, false⟩).trans (if_neg (by decide)))
  refine ⟨net', hrun, hwf', hspec, ?_, ?_⟩
  · have hgate := htwin.substituted hspec
    rwa [show twinConjunctions.basis = .andInverter from rfl, hrerouted] at hgate
  · have hindex := constructed_twinConjunctions.normal.indexed hfour
    refine (entries_substitute hwf (by decide) hrun).kept _ 4 hindex (by decide) ?_
    exact fun hedit => absurd (hfour.reads_iff.mp hedit.2) (by decide)

/-- The substitution dropped the fanins of gate `5` and no others, so the twins are still found. -/
theorem gates_found_unless_dropped_twinConjunctions : ∃ net',
    twinConjunctions.substitute 5 ⟨1, false⟩ = .ok net' ∧
      net'.HasGate 6 twinFanins Basis.gateLiteral ∧
      ∃ m, net'.HasGate m twinFanins Basis.gateLiteral ∧
        net'.createNode twinFanins Basis.gateLiteral = .ok (m, net') := by
  obtain ⟨net', hrun, -, -, hgate, -⟩ := substitute_twinConjunctions
  have hhistory := constructed_twinConjunctions.assembledBy.substitute
    (fun hlut => absurd hlut (by decide)) hrun
  refine ⟨net', hrun, hgate, gates_found_unless_dropped hhistory hgate ?_⟩
  rintro sub hsub ⟨-, m, hm, hcases⟩
  obtain rfl := List.mem_singleton.mp hsub
  rcases hcases with rfl | ⟨-, hnew⟩
  · have hfive : twinConjunctions.HasGate 5 [⟨1, false⟩, ⟨3, false⟩] Basis.gateLiteral :=
      ⟨1, rfl⟩
    have hwf := constructed_twinConjunctions.assembled.built.wellFormed
    exact absurd ((hasGate_of_index hwf hm).inj hfive).1 (by decide)
  · exact absurd hnew.isGate (by decide)

/-- Replacing gate `4` as well takes the entry of both twins away. Gate `6` is the output and keeps
its fanins and its function, and asking for them appends a second gate like it. -/
theorem twin_created_twice : ∃ net' net'' last,
    twinConjunctions.substitute 5 ⟨1, false⟩ = .ok net' ∧
    net'.substitute 4 ⟨3, false⟩ = .ok net'' ∧ net''.Assembled ∧
    net''.HasGate 6 twinFanins Basis.gateLiteral ∧
    (∃ node, net''.nodes[6]? = some node ∧ 0 < node.fanout) ∧
    net''.createNode twinFanins Basis.gateLiteral = .ok (7, last) ∧
    net''.size = 7 ∧ last.size = 8 := by
  obtain ⟨net', hrun, hwf', hspec, htwin, hindex⟩ := substitute_twinConjunctions
  have hunread : ∀ m, ¬ net'.Reads m 4 := by
    intro m hreads
    have hnone : ∀ m < twinConjunctions.size, ∀ s ∈ twinConjunctions.fanins m, s.node ≠ 4 := by
      decide
    rcases hspec.reads hreads with hformer | ⟨-, -, heq⟩
    · obtain ⟨s, hs, heq⟩ := reads_iff.mp hformer
      exact hnone m hformer.lt_size s hs heq
    · exact absurd heq (by decide)
  have hsize : net'.size = 7 := hspec.size
  obtain ⟨net'', hrun', hspec', hwf''⟩ := @exists_substitute _ 4 ⟨3, false⟩ hwf'
    (hasGate_of_index hwf' hindex).isGate (hsize ▸ (by decide)) (by decide)
  have hsize' : net''.size = 7 := hspec'.size.trans hsize
  have hassembled' : net'.Assembled := constructed_twinConjunctions.assembled.edit
    (.substitute (fun hlut => absurd hlut (by decide)) hrun)
  have hassembled : net''.Assembled := hassembled'.edit (.substitute (fun _ => rfl) hrun')
  have htwin' : net''.HasGate 6 twinFanins Basis.gateLiteral := by
    have hgate := htwin.substituted hspec'
    rwa [reroute_eq_self (by decide)] at hgate
  obtain ⟨node, hnode⟩ := exists_node htwin'.lt_size
  have houtput : (⟨6, false⟩ : Signal) ∈ net''.edges := by
    refine mem_edges_iff.mpr (.inr ?_)
    rw [cos, hspec'.pos, hspec.pos, Array.toList_map, Array.toList_map]
    exact List.mem_append_left _ (by decide)
  have hfanout : 0 < node.fanout := by
    rw [hwf''.fanout 6 node hnode]
    exact List.countP_pos_iff.mpr ⟨_, houtput, rfl⟩
  obtain ⟨-, hcreate⟩ := createNode_of_drops hassembled'.built hrun'
    ⟨(by decide : (3 : NodeId) ≠ 4), 4, hindex, .inl rfl⟩ fun m hedit => absurd hedit.2 (hunread m)
  have hseven : (net''.appendGate twinFanins Basis.gateLiteral).1 = 7 :=
    (appendGate_fst net'' _ _).trans hsize'
  refine ⟨net', net'', (net''.appendGate twinFanins Basis.gateLiteral).2, hrun, hrun', hassembled,
    htwin', ⟨node, hnode, hfanout⟩, ?_, hsize', ?_⟩
  · rw [hcreate, ← hseven]
  · rw [size_appendGate, hsize']

end Network

end LogicSynthesis
