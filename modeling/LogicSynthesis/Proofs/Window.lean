import LogicSynthesis.Proofs.Network.Growth
import LogicSynthesis.Proofs.Simulation
import LogicSynthesis.Window

/-!
# Windows enclose their pivots

Every node that a window walk has met is a leaf of the window or was replaced by its fanins, and
these were met in their turn unless they are constants. So no path from a pivot gets past the
leaves to an input of the network. The best leaf stands first, so the walk halts where no leaf can
give way.

## Main definitions

- `Scratch.Walked` — a state after walks that kept the values
- `Scratch.CanWalk` — so many walks can follow
- `Network.Walking` — what holds of every window walk, in whatever order the marks are
- `Network.Expanding`, `Network.Advancing` — the invariant of the window walk
- `Network.Halted` — no leaf can give way
- `Network.IsWindow` — what a window walk leaves behind

## Main statements

- `growWindow_rule` — the rule for the walk
- `growWindow_ends` — the walk keeps its invariant and the bound
- `window_ends` — a window of few leaves encloses its pivots
- `window_eq_error` — there is none when the numbers of walks are used up
- `walking_of_window` — what is known of a window that was found
-/

namespace LogicSynthesis

namespace Scratch

variable {s s' s'' : Scratch} {n m : NodeId}

/-- The current walk has met `n`. -/
def Met (s : Scratch) (n : NodeId) : Prop := s.marks[n]? = some s.walk

/-- The state after walks from `s`, which keep the values. -/
structure Walked (s s' : Scratch) : Prop where
  values : s'.values = s.values
  size : s'.marks.size = s.marks.size
  past : s.Past → s'.Past

theorem Walked.refl (s : Scratch) : s.Walked s := ⟨rfl, rfl, id⟩

theorem Walked.trans (h : s.Walked s') (h' : s'.Walked s'') : s.Walked s'' :=
  ⟨h'.values.trans h.values, h'.size.trans h.size, fun hpast => h'.past (h.past hpast)⟩

theorem Walked.valueAt (h : s.Walked s') : s'.valueAt = s.valueAt := by
  funext n
  rw [Scratch.valueAt, Scratch.valueAt, h.values]

theorem isFresh_iff (hn : n < s.marks.size) : s.isFresh n = true ↔ ¬ s.Met n := by
  rw [isFresh, Met, Array.getElem?_eq_getElem hn, bne_iff_ne, Option.some_inj]

theorem lt_of_isFresh (h : s.isFresh n = true) : n < s.marks.size := by
  by_contra hn
  rw [isFresh, Array.getElem?_eq_none (Nat.not_lt.mp hn)] at h
  cases h

theorem met_visit (hn : n < s.marks.size) : (s.visit n).Met m ↔ m = n ∨ s.Met m := by
  rw [Met, Met, visit, Array.getElem?_setIfInBounds]
  by_cases heq : n = m
  · subst heq
    simp [hn]
  · simp [heq, Ne.symm heq]

theorem isFresh_of_visit (h : (s.visit n).isFresh m = true) : s.isFresh m = true := by
  unfold isFresh visit at *
  rw [Array.getElem?_setIfInBounds] at h
  split at h
  · next hget =>
    split at hget
    · split at hget
      · next heq =>
        obtain rfl := Option.some.inj hget
        simp at h
      · cases hget
    · rw [hget]
      exact h
  · cases h

theorem beginWalk_eq (h : s.walk + 1 < valueBound) : s.beginWalk = .ok s.nextWalk := by
  rw [beginWalk, require_of (decide_eq_true h), ok_bind]
  rfl

/-- There is no number after the last one. -/
theorem beginWalk_eq_error (h : valueBound ≤ s.walk + 1) : s.beginWalk = .error .overflow := by
  rw [beginWalk, require, if_neg (by simpa using h), error_bind]

theorem eq_nextWalk_of_beginWalk (h : s.beginWalk = .ok s') : s' = s.nextWalk := by
  obtain ⟨-, -, h⟩ := bind_eq_ok h
  exact (Except.ok.inj h).symm

theorem beginWalk_ends {permitted : Fault → Prop} (s : Scratch)
    (h : s.walk + 1 < valueBound ∨ permitted .overflow) :
    Ends permitted s.beginWalk (· = s.nextWalk) :=
  (Ends.require (h.imp_left decide_eq_true)).bind fun _ _ => rfl

theorem walked_nextWalk (s : Scratch) : s.Walked s.nextWalk :=
  ⟨rfl, rfl, fun h n => Nat.le_succ_of_le (h n)⟩

/-- A new walk has met nothing. -/
theorem not_met_nextWalk (h : s.Past) : ¬ s.nextWalk.Met n := by
  intro hmet
  have hle := h n
  rw [Met] at hmet
  change s.marks[n]? = some (s.walk + 1) at hmet
  rw [markAt, hmet, Option.getD_some] at hle
  exact absurd hle (Nat.not_succ_le_self _)

theorem walked_visit (s : Scratch) (n : NodeId) : s.Walked (s.visit n) := by
  refine ⟨rfl, Array.size_setIfInBounds, fun h m => ?_⟩
  have hle := h m
  rw [markAt] at hle ⊢
  rw [visit, Array.getElem?_setIfInBounds]
  split
  · split
    · exact Nat.le_refl _
    · exact Nat.zero_le _
  · exact hle

/-- `k` more walks can begin: no mark is of a walk to come, and there are numbers for them. An
overflow that is permitted is no matter, and disorder among the marks is no matter when all faults
are permitted. -/
structure CanWalk (permitted : Fault → Prop) (k : Nat) (s : Scratch) : Prop where
  past : s.Past ∨ ∀ fault, permitted fault
  room : s.walk + k < valueBound ∨ permitted .overflow

theorem CanWalk.anything {k : Nat} : s.CanWalk Anything k :=
  ⟨.inr fun _ => trivial, .inr trivial⟩

theorem CanWalk.mono {permitted : Fault → Prop} {j k : Nat} (h : s.CanWalk permitted k)
    (hle : j ≤ k) : s.CanWalk permitted j :=
  ⟨h.past, h.room.imp_left fun hroom => by omega⟩

theorem CanWalk.keep {permitted : Fault → Prop} {k : Nat} (h : s.CanWalk permitted k)
    (hpast : s.Past → s'.Past) (hwalk : s'.walk = s.walk) : s'.CanWalk permitted k :=
  ⟨h.past.imp_left hpast, hwalk.symm ▸ h.room⟩

/-- A walk takes one number. -/
theorem CanWalk.step {permitted : Fault → Prop} {k : Nat} (h : s.CanWalk permitted (k + 1))
    (hpast : s.Past → s'.Past) (hwalk : s'.walk ≤ s.walk + 1) : s'.CanWalk permitted k :=
  ⟨h.past.imp_left hpast, h.room.imp_left fun hroom => by omega⟩

end Scratch

namespace Network

variable {net net' : Network} {permitted : Fault → Prop} {origin : Scratch}

/-! ### Replacing a leaf -/

/-- Making nodes leaves is part of the same walk. -/
theorem walked_foldl_addLeaf (net : Network) (ns : List NodeId) (state : Frontier) :
    state.2.Walked (ns.foldl net.addLeaf state).2 ∧
      (ns.foldl net.addLeaf state).2.walk = state.2.walk := by
  induction ns generalizing state with
  | nil => exact ⟨.refl _, rfl⟩
  | cons n ns ih =>
    obtain ⟨leaves, scratch⟩ := state
    rw [List.foldl_cons, addLeaf]
    split
    · obtain ⟨hwalked, hwalk⟩ := ih (leaves ++ [n], scratch.visit n)
      exact ⟨(scratch.walked_visit n).trans hwalked, hwalk⟩
    · exact ih (leaves, scratch)

/-- The frontier after the nodes `ns` were made leaves where they have to be. -/
structure Joined (net : Network) (ns : List NodeId) (start state : Frontier) : Prop where
  kept : start.1 ⊆ state.1
  met : ∀ m, start.2.Met m → state.2.Met m
  fresh : ∀ m, state.2.Met m → start.2.Met m ∨ m ∈ state.1
  joined : ∀ n ∈ ns, state.2.Met n ∨ net.isConstant n = true
  leaves : ∀ n ∈ state.1, n ∈ start.1 ∨ n ∈ ns
  length : state.1.length ≤ start.1.length + ns.countP (net.joinsFrontier start.2)

theorem joined_nil (state : Frontier) : net.Joined [] state state :=
  ⟨List.Subset.refl _, fun _ h => h, fun _ h => .inl h,
    fun _ h => absurd h List.not_mem_nil, fun _ h => .inl h, Nat.le_refl _⟩

/-- A visit leaves fewer nodes to join. -/
theorem countP_joinsFrontier_visit (net : Network) (scratch : Scratch) (n : NodeId)
    (ns : List NodeId) : ns.countP (net.joinsFrontier (scratch.visit n)) ≤
      ns.countP (net.joinsFrontier scratch) := by
  apply List.countP_mono_left
  intro m _ hm
  rw [joinsFrontier, Bool.and_eq_true] at hm ⊢
  exact ⟨Scratch.isFresh_of_visit hm.1, hm.2⟩

/-- A node that was met or is a constant does not join. -/
theorem Joined.skip {ns : List NodeId} {n : NodeId} {start state : Frontier}
    (h : net.Joined ns start state) (hn : n < start.2.marks.size)
    (hskip : net.joinsFrontier start.2 n = false) : net.Joined (n :: ns) start state := by
  refine ⟨h.kept, h.met, h.fresh, ?_, ?_, ?_⟩
  · intro m hm
    rcases List.mem_cons.mp hm with rfl | hm
    · rw [joinsFrontier, Bool.and_eq_false_iff, Bool.not_eq_false'] at hskip
      refine hskip.imp_left fun hold => h.met m ?_
      by_contra hnot
      rw [(Scratch.isFresh_iff hn).mpr hnot] at hold
      cases hold
    · exact h.joined m hm
  · exact fun m hm => (h.leaves m hm).imp_right (List.mem_cons_of_mem _)
  · rw [List.countP_cons_of_neg (by simp [hskip])]
    exact h.length

/-- A node that joins is a new leaf, and was met from then on. -/
theorem Joined.enter {leaves ns : List NodeId} {scratch : Scratch} {n : NodeId} {state : Frontier}
    (h : net.Joined ns (leaves ++ [n], scratch.visit n) state) (hn : n < scratch.marks.size)
    (hjoins : net.joinsFrontier scratch n = true) :
    net.Joined (n :: ns) (leaves, scratch) state := by
  refine ⟨?_, ?_, ?_, ?_, ?_, ?_⟩
  · exact fun m hm => h.kept (List.mem_append_left _ hm)
  · exact fun m hm => h.met m ((Scratch.met_visit hn).mpr (.inr hm))
  · intro m hm
    rcases h.fresh m hm with hm | hm
    · rcases (Scratch.met_visit hn).mp hm with rfl | hm
      · exact .inr (h.kept (List.mem_append_right _ (List.mem_singleton_self m)))
      · exact .inl hm
    · exact .inr hm
  · intro m hm
    rcases List.mem_cons.mp hm with rfl | hm
    · exact .inl (h.met m ((Scratch.met_visit hn).mpr (.inl rfl)))
    · exact h.joined m hm
  · intro m hm
    rcases h.leaves m hm with hm | hm
    · rcases List.mem_append.mp hm with hm | hm
      · exact .inl hm
      · rw [List.mem_singleton.mp hm]
        exact .inr List.mem_cons_self
    · exact .inr (List.mem_cons_of_mem _ hm)
  · have hlen := h.length
    have hcount := countP_joinsFrontier_visit net scratch n ns
    rw [List.countP_cons_of_pos hjoins]
    rw [List.length_append, List.length_singleton] at hlen
    dsimp only at hlen ⊢
    omega

theorem joined_foldl_addLeaf {ns : List NodeId} {start : Frontier}
    (hns : ∀ n ∈ ns, n < start.2.marks.size) :
    net.Joined ns start (ns.foldl net.addLeaf start) := by
  induction ns generalizing start with
  | nil => exact joined_nil start
  | cons n ns ih =>
    obtain ⟨leaves, scratch⟩ := start
    obtain ⟨hn, hns⟩ := List.forall_mem_cons.mp hns
    rw [List.foldl_cons]
    cases hjoins : net.joinsFrontier scratch n with
    | false =>
      have hstep : net.addLeaf (leaves, scratch) n = (leaves, scratch) := by
        simp only [addLeaf, hjoins, Bool.false_eq_true, if_false]
      rw [hstep]
      exact (ih hns).skip hn hjoins
    | true =>
      have hstep : net.addLeaf (leaves, scratch) n = (leaves ++ [n], scratch.visit n) := by
        simp only [addLeaf, hjoins, if_true]
      have hsize : ∀ m ∈ ns, m < (scratch.visit n).marks.size :=
        fun m hm => (scratch.walked_visit n).size.symm ▸ hns m hm
      rw [hstep]
      exact (ih hsize).enter hn hjoins

/-! ### Leaves stand there once -/

/-- The leaves were all met, and none of them stands there twice. -/
structure Distinct (state : Frontier) : Prop where
  nodup : state.1.Nodup
  met : ∀ n ∈ state.1, state.2.Met n

/-- A fresh node is no leaf yet. -/
theorem Distinct.join {leaves : List NodeId} {scratch : Scratch} (h : Distinct (leaves, scratch))
    {n : NodeId} (hn : n < scratch.marks.size) (hfresh : ¬ scratch.Met n) :
    Distinct (leaves ++ [n], scratch.visit n) := by
  refine ⟨?_, ?_⟩
  · rw [List.nodup_append_comm, List.singleton_append, List.nodup_cons]
    exact ⟨fun hmem => hfresh (h.met n hmem), h.nodup⟩
  · intro m hm
    rw [Scratch.met_visit hn]
    rcases List.mem_append.mp hm with hm | hm
    · exact .inr (h.met m hm)
    · exact .inl (List.mem_singleton.mp hm)

theorem Distinct.perm {leaves leaves' : List NodeId} {scratch : Scratch}
    (h : Distinct (leaves, scratch)) (hperm : leaves'.Perm leaves) : Distinct (leaves', scratch) :=
  ⟨hperm.nodup_iff.mpr h.nodup, fun n hn => h.met n (hperm.mem_iff.mp hn)⟩

theorem Distinct.tail {n : NodeId} {rest : List NodeId} {scratch : Scratch}
    (h : Distinct (n :: rest, scratch)) : Distinct (rest, scratch) :=
  ⟨(List.nodup_cons.mp h.nodup).2, fun m hm => h.met m (List.mem_cons_of_mem _ hm)⟩

theorem Distinct.foldl_addLeaf {state : Frontier} (h : Distinct state) (ns : List NodeId) :
    Distinct (ns.foldl net.addLeaf state) := by
  induction ns generalizing state with
  | nil => exact h
  | cons n ns ih =>
    obtain ⟨leaves, scratch⟩ := state
    rw [List.foldl_cons]
    apply ih
    cases hjoins : net.joinsFrontier scratch n with
    | false =>
      simp only [addLeaf, hjoins, Bool.false_eq_true, if_false]
      exact h
    | true =>
      have hfresh := (Bool.and_eq_true_iff.mp hjoins).1
      have hn := Scratch.lt_of_isFresh hfresh
      simp only [addLeaf, hjoins, if_true]
      exact h.join hn ((Scratch.isFresh_iff hn).mp hfresh)

theorem Distinct.addPivot {state state' : Frontier} (h : Distinct state) {n : NodeId}
    (hadd : Network.addPivot state n = .ok state') : Distinct state' := by
  obtain ⟨leaves, scratch⟩ := state
  obtain ⟨mark, hmark, hadd⟩ := bind_eq_ok hadd
  have hget : scratch.marks[n]? = some mark := by
    unfold Scratch.mark at hmark
    split at hmark
    · next hfound => rw [hfound, Except.ok.inj hmark]
    · cases hmark
  split at hadd
  · exact Except.ok.inj hadd ▸ h
  · next hne =>
    have hn := (Array.getElem?_eq_some_iff.mp hget).1
    refine Except.ok.inj hadd ▸ h.join hn fun hmet => hne ?_
    rw [Scratch.Met, hget] at hmet
    exact Option.some.inj hmet

/-! ### The walk -/

/-- A window walk under way: every node that was met is a leaf, or a gate whose fanins were met
unless they are constants. -/
structure Expanding (net : Network) (bound : Nat) (origin : Scratch) (pivots : List NodeId)
    (state : Frontier) : Prop where
  walked : origin.Walked state.2
  size : state.2.marks.size = net.size
  pivots : ∀ n ∈ pivots, state.2.Met n
  exist : ∀ n ∈ state.1, n < net.size
  length : state.1.length ≤ bound
  closed : ∀ n, state.2.Met n → n ∈ state.1 ∨
    net.isGate n = true ∧ ∀ m, net.Reads n m → state.2.Met m ∨ net.isConstant m = true

theorem Expanding.perm {bound : Nat} {pivots leaves leaves' : List NodeId} {scratch : Scratch}
    (h : net.Expanding bound origin pivots (leaves, scratch)) (hperm : leaves'.Perm leaves) :
    net.Expanding bound origin pivots (leaves', scratch) := by
  refine ⟨h.walked, h.size, h.pivots, ?_, ?_, ?_⟩
  · exact fun n hn => h.exist n (hperm.mem_iff.mp hn)
  · exact hperm.length_eq.le.trans h.length
  · exact fun n hn => (h.closed n hn).imp_left hperm.mem_iff.mpr

theorem expanding_withScratch {bound : Nat} {pivots : List NodeId} {state : Frontier}
    {scratch : Scratch} : (net.withScratch scratch).Expanding bound origin pivots state ↔
      net.Expanding bound origin pivots state :=
  ⟨fun h => ⟨h.walked, h.size, h.pivots, h.exist, h.length, h.closed⟩,
    fun h => ⟨h.walked, h.size, h.pivots, h.exist, h.length, h.closed⟩⟩

/-- A gate gives way to its fanins. -/
theorem Expanding.replace {bound : Nat} {pivots rest : List NodeId} {n : NodeId}
    {scratch : Scratch} (hlt : ∀ n m, net.Reads n m → m < net.size)
    (h : net.Expanding bound origin pivots (n :: rest, scratch)) (hgate : net.isGate n = true)
    (hroom : rest.length + (net.faninNodes n).countP (net.joinsFrontier scratch) ≤ bound) :
    net.Expanding bound origin pivots ((net.faninNodes n).foldl net.addLeaf (rest, scratch)) := by
  have hfanins : ∀ m ∈ net.faninNodes n, m < net.size := by
    exact fun m hm => hlt n m hm
  have hjoined : net.Joined (net.faninNodes n) (rest, scratch) _ :=
    joined_foldl_addLeaf fun m hm => h.size.symm ▸ hfanins m hm
  obtain ⟨hwalked, -⟩ := net.walked_foldl_addLeaf (net.faninNodes n) (rest, scratch)
  obtain ⟨hkept, hmet, hfresh, hjoins, hleaves, hlen⟩ := hjoined
  refine ⟨h.walked.trans hwalked, hwalked.size.trans h.size, ?_, ?_, hlen.trans hroom, ?_⟩
  · exact fun m hm => hmet m (h.pivots m hm)
  · intro m hm
    rcases hleaves m hm with hm | hm
    · exact h.exist m (List.mem_cons_of_mem _ hm)
    · exact hfanins m hm
  · intro m hm
    -- What was met before keeps its place, except for the gate that gave way.
    rcases hfresh m hm with hold | hleaf
    · rcases h.closed m hold with hleaf | ⟨hgate', hreads⟩
      · rcases List.mem_cons.mp hleaf with rfl | hleaf
        · exact .inr ⟨hgate, fun k hk => hjoins k hk⟩
        · exact .inl (hkept hleaf)
      · exact .inr ⟨hgate', fun k hk => (hreads k hk).imp_left (hmet k)⟩
    · exact .inl hleaf

/-! ### The order of leaves -/

variable {scratch : Scratch} {bound : Nat}

theorem leafOrder_iff {a b : NodeId} : net.leafOrder scratch a b = true ↔
    net.isTerminal a = false ∧ net.isTerminal b = true ∨
      net.isTerminal a = net.isTerminal b ∧
        net.expansionCost scratch a ≤ net.expansionCost scratch b := by
  unfold leafOrder
  cases net.isTerminal a <;> cases net.isTerminal b <;> simp

theorem pairwise_sortLeaves (net : Network) (scratch : Scratch) (leaves : List NodeId) :
    (net.sortLeaves scratch leaves).Pairwise fun a b => net.leafOrder scratch a b = true := by
  refine List.pairwise_mergeSort ?_ ?_ leaves
  · intro a b c hab hbc
    rw [leafOrder_iff] at hab hbc ⊢
    grind
  · intro a b
    rw [Bool.or_eq_true, leafOrder_iff, leafOrder_iff]
    grind

/-- No leaf can give way: it is terminal, or the fresh edges that would come for it are too many. -/
def Halted (net : Network) (bound : Nat) (state : Frontier) : Prop :=
  ∀ n ∈ state.1, net.isTerminal n = true ∨
    (bound : Int) < state.1.length + net.expansionCost state.2 n

/-- Where the best leaf cannot give way, no leaf can. -/
theorem halted_of_sortLeaves {leaves rest : List NodeId} {n : NodeId}
    (hsort : net.sortLeaves scratch leaves = n :: rest)
    (hstop : net.isTerminal n = true ∨
      (bound : Int) < (rest.length + 1 : Nat) + net.expansionCost scratch n) :
    net.Halted bound (n :: rest, scratch) := by
  have hsorted := net.pairwise_sortLeaves scratch leaves
  rw [hsort, List.pairwise_cons] at hsorted
  intro m hm
  rcases List.mem_cons.mp hm with rfl | hm
  · exact hstop
  rcases leafOrder_iff.mp (hsorted.1 m hm) with ⟨-, hterminal⟩ | ⟨hsame, hcost⟩
  · exact .inl hterminal
  · exact hstop.imp (fun hterminal => hsame ▸ hterminal) fun hcostly =>
      hcostly.trans_le (Int.add_le_add_left hcost _)

/-- One round of the walk, at the best leaf. -/
theorem growWindow_of_sortLeaves {leaves rest : List NodeId} {n : NodeId}
    (hsmall : ¬ bound < leaves.length) (hsort : net.sortLeaves scratch leaves = n :: rest) :
    net.growWindow bound (leaves, scratch) =
      if net.isTerminal n ∨
          (bound : Int) < (rest.length + 1 : Nat) + net.expansionCost scratch n then
        .ok (n :: rest, scratch)
      else net.growWindow bound ((net.faninNodes n).foldl net.addLeaf (rest, scratch)) := by
  rw [growWindow, if_neg hsmall]
  split
  · next hnone =>
    rw [hsort] at hnone
    cases hnone
  · next hsome =>
    rw [hsort] at hsome
    obtain ⟨rfl, rfl⟩ := List.cons.inj hsome
    rfl

/-- What sorting leaves and replacing one of them keep holds of the window at the end, where no leaf
can give way. -/
theorem growWindow_rule (inv : Frontier → Prop)
    (hperm : ∀ leaves leaves' scratch, leaves'.Perm leaves → inv (leaves, scratch) →
      inv (leaves', scratch))
    (hfits : ∀ leaves scratch, inv (leaves, scratch) →
      leaves.length ≤ bound ∨ permitted (.cutTooLarge leaves.length bound))
    (hreplace : ∀ n rest scratch, inv (n :: rest, scratch) → ¬ net.isTerminal n = true →
      (rest.length + 1 : Nat) + net.expansionCost scratch n ≤ bound →
        inv ((net.faninNodes n).foldl net.addLeaf (rest, scratch)))
    {state : Frontier} (h : inv state) :
    Ends permitted (net.growWindow bound state) fun result =>
      inv result ∧ net.Halted bound result := by
  induction state using growWindow.induct net bound with
  | case1 leaves scratch hlarge =>
    rw [growWindow, if_pos hlarge]
    exact (hfits leaves scratch h).resolve_left (Nat.not_le.mpr hlarge)
  | case2 leaves scratch hsmall hsort =>
    have hnone : leaves = [] := (hsort ▸ List.mergeSort_perm leaves _ : [].Perm leaves).nil_eq.symm
    subst hnone
    rw [growWindow, if_neg hsmall]
    split
    · exact ⟨h, fun n hn => absurd hn List.not_mem_nil⟩
    · next hsome =>
      rw [hsort] at hsome
      cases hsome
  | case3 leaves scratch hsmall n rest hsort hstop =>
    have hsorted : (n :: rest).Perm leaves := hsort ▸ List.mergeSort_perm _ _
    rw [growWindow_of_sortLeaves hsmall hsort, if_pos hstop]
    exact ⟨hperm leaves _ scratch hsorted h, halted_of_sortLeaves hsort hstop⟩
  | case4 leaves scratch hsmall n rest hsort hgoes ih =>
    have hsorted : (n :: rest).Perm leaves := hsort ▸ List.mergeSort_perm _ _
    rw [growWindow_of_sortLeaves hsmall hsort, if_neg hgoes]
    obtain ⟨hgate, hroom⟩ := not_or.mp hgoes
    exact ih (hreplace n rest scratch (hperm leaves _ scratch hsorted h) hgate
      (Int.not_lt.mp hroom))

/-- A window walk under way: its leaves are different nodes that one walk has met. -/
structure Advancing (net : Network) (bound : Nat) (origin : Scratch) (pivots : List NodeId)
    (state : Frontier) : Prop where
  expanding : net.Expanding bound origin pivots state
  distinct : Distinct state
  walk : state.2.walk = origin.walk + 1

theorem advancing_withScratch {pivots : List NodeId} {state : Frontier} {scratch : Scratch} :
    (net.withScratch scratch).Advancing bound origin pivots state ↔
      net.Advancing bound origin pivots state :=
  ⟨fun h => ⟨expanding_withScratch.mp h.expanding, h.distinct, h.walk⟩,
    fun h => ⟨expanding_withScratch.mpr h.expanding, h.distinct, h.walk⟩⟩

theorem growWindow_ends (hlt : ∀ n m, net.Reads n m → m < net.size) {pivots : List NodeId}
    {state : Frontier} (h : net.Advancing bound origin pivots state) :
    Ends permitted (net.growWindow bound state) fun result =>
      net.Advancing bound origin pivots result ∧ net.Halted bound result := by
  refine growWindow_rule _ ?_ (fun _ _ h => .inl h.expanding.length) ?_ h
  · exact fun _ _ _ hperm h => ⟨h.expanding.perm hperm, h.distinct.perm hperm, h.walk⟩
  · intro n rest scratch h hgate hroom
    have hn := h.expanding.exist n List.mem_cons_self
    obtain ⟨-, hwalk⟩ := net.walked_foldl_addLeaf (net.faninNodes n) (rest, scratch)
    refine ⟨h.expanding.replace hlt (isGate_of_not_isTerminal hn hgate) ?_,
      h.distinct.tail.foldl_addLeaf _, hwalk.trans h.walk⟩
    rw [expansionCost] at hroom
    omega

/-! ### Pivots -/

/-- A walk that begins has no leaves and has met nothing. -/
theorem advancing_nextWalk (hwf : net.WellFormed) (hpast : net.scratch.Past) :
    net.Advancing bound net.scratch [] ([], net.scratch.nextWalk) := by
  have hsize : net.scratch.nextWalk.marks.size = net.size := hwf.marks
  refine ⟨⟨net.scratch.walked_nextWalk, hsize, ?_, ?_, Nat.zero_le _, ?_⟩,
    ⟨List.nodup_nil, ?_⟩, rfl⟩
  · exact fun n hn => absurd hn List.not_mem_nil
  · exact fun n hn => absurd hn List.not_mem_nil
  · exact fun n hn => absurd hn (Scratch.not_met_nextWalk hpast)
  · exact fun n hn => absurd hn List.not_mem_nil

/-- A pivot that was met is already a leaf. -/
theorem Advancing.skip {pivots : List NodeId} {state : Frontier} {n : NodeId}
    (h : net.Advancing bound origin pivots state) (hmet : state.2.Met n) :
    net.Advancing bound origin (pivots ++ [n]) state := by
  refine ⟨{ h.expanding with pivots := fun m hm => ?_ }, h.distinct, h.walk⟩
  rcases List.mem_append.mp hm with hm | hm
  · exact h.expanding.pivots m hm
  · exact List.mem_singleton.mp hm ▸ hmet

/-- A pivot that is new becomes a leaf. -/
theorem Advancing.enter {pivots leaves : List NodeId} {n : NodeId}
    (h : net.Advancing bound origin pivots (leaves, scratch)) (hn : n < net.size)
    (hfresh : ¬ scratch.Met n) (hroom : (leaves ++ [n]).length ≤ bound) :
    net.Advancing bound origin (pivots ++ [n]) (leaves ++ [n], scratch.visit n) := by
  have hmark : n < scratch.marks.size := hn.trans_eq h.expanding.size.symm
  have hvisit := scratch.walked_visit n
  refine ⟨⟨h.expanding.walked.trans hvisit, hvisit.size.trans h.expanding.size, ?_, ?_, hroom, ?_⟩,
    h.distinct.join hmark hfresh, h.walk⟩
  · intro m hm
    rw [Scratch.met_visit hmark]
    rcases List.mem_append.mp hm with hm | hm
    · exact .inr (h.expanding.pivots m hm)
    · exact .inl (List.mem_singleton.mp hm)
  · intro m hm
    rcases List.mem_append.mp hm with hm | hm
    · exact h.expanding.exist m hm
    · exact (List.mem_singleton.mp hm).symm ▸ hn
  · intro m hm
    rcases (Scratch.met_visit hmark).mp hm with rfl | hm
    · exact .inl (List.mem_append_right _ (List.mem_singleton_self m))
    · refine (h.expanding.closed m hm).imp (List.mem_append_left _) fun hgate =>
        ⟨hgate.1, fun k hk => ?_⟩
      exact (hgate.2 k hk).imp_left fun hk => (Scratch.met_visit hmark).mpr (.inr hk)

/-- The leaves at the start are the pivots, each once. -/
theorem addPivots_ends (hwf : net.WellFormed) (hpast : net.scratch.Past) {pivots : List NodeId}
    (hexist : ∀ n ∈ pivots, n < net.size) (hbound : pivots.toFinset.card ≤ bound) :
    Ends permitted (pivots.foldlM addPivot ([], net.scratch.nextWalk))
      (net.Advancing bound net.scratch pivots) := by
  -- That the leaves are among the pivots so far bounds their number.
  refine (Ends.foldlM_prefix (fun before state =>
    net.Advancing bound net.scratch before state ∧ state.1 ⊆ before) ?_ ?_).mono fun _ => And.left
  · exact ⟨advancing_nextWalk hwf hpast, List.Subset.refl _⟩
  · rintro before n after ⟨leaves, scratch⟩ heq ⟨h, hsub⟩
    have hn := hexist n (heq ▸ List.mem_append_right _ List.mem_cons_self)
    have hmark : n < scratch.marks.size := hn.trans_eq h.expanding.size.symm
    have hget := Array.getElem?_eq_getElem hmark
    rw [addPivot, Scratch.mark, hget, ok_bind]
    split
    · next hmet =>
      exact ⟨h.skip (hget.trans (congrArg some hmet)), fun m hm => List.mem_append_left _ (hsub hm)⟩
    · next hnew =>
      have hfresh : ¬ scratch.Met n := fun hmet => hnew (Option.some.inj (hget.symm.trans hmet))
      have hsub' : leaves ++ [n] ⊆ before ++ [n] := fun m hm =>
        List.mem_append.mpr ((List.mem_append.mp hm).imp_left (hsub ·))
      refine ⟨h.enter hn hfresh ?_, hsub'⟩
      rw [← List.toFinset_card_of_nodup (h.distinct.join hmark hfresh).nodup]
      refine (Finset.card_le_card fun m hm => ?_).trans hbound
      have hm := hsub' (List.mem_toFinset.mp hm)
      rw [List.mem_toFinset, heq, ← List.singleton_append, ← List.append_assoc]
      exact List.mem_append_left _ hm

/-! ### Windows -/

/-- The leaves of a window walk enclose the pivots: constants and the nodes that were met make up
the region. -/
theorem Expanding.encloses (hwf : net.WellFormed) {bound : Nat} {pivots : List NodeId}
    {state : Frontier} (h : net.Expanding bound origin pivots state)
    (hexist : ∀ n ∈ pivots, n < net.size) : net.Encloses state.1 pivots := by
  have hconstant : ∀ n, net.isConstant n = true → net.isGate n = false ∧ net.isInput n = false := by
    intro n hn
    obtain ⟨node, hnode, hkind⟩ := kindIs_iff.mp hn
    rw [isGate, isInput, kindIs_eq hnode, kindIs_eq hnode]
    cases hk : node.kind <;> rw [hk] at hkind <;> first | exact ⟨rfl, rfl⟩ | cases hkind
  -- The region of the enclosure is what was met, and the constants that it reads.
  refine ⟨h.exist, hexist, fun n => state.2.Met n ∨ net.isConstant n = true, ?_, ?_, ?_⟩
  · exact fun n hn => .inl (h.pivots n hn)
  · rintro n m (hn | hn) hout hreads
    · exact ((h.closed n hn).resolve_left hout).2 m hreads
    · have hgate := hwf.isGate_of_reads hreads
      rw [(hconstant n hn).1] at hgate
      cases hgate
  · rintro n (hn | hn) hout
    · obtain ⟨node, hnode, hkind⟩ := isGate_iff.mp ((h.closed n hn).resolve_left hout).1
      rw [isInput, kindIs_eq hnode, hkind]
      rfl
    · exact (hconstant n hn).2

/-- The window of some pivots: different nodes within the bound that enclose the pivots, all met by
the walk, of which none can give way. -/
structure IsWindow (net : Network) (pivots : List NodeId) (bound : Nat) (leaves : List NodeId)
    (scratch : Scratch) : Prop where
  encloses : net.Encloses leaves pivots
  length : leaves.length ≤ bound
  distinct : Distinct (leaves, scratch)
  walked : net.scratch.Walked scratch
  size : scratch.marks.size = net.size
  walk : scratch.walk = net.scratch.walk + 1
  halted : net.Halted bound (leaves, scratch)

/-- A window is the work of a walk on the scratch state of the network. -/
theorem window_eq {pivots : List NodeId} {settings : WindowSettings} (hne : pivots ≠ [])
    (hsize : settings.cutSize < windowBound) : net.window pivots settings =
      (net.scratch.beginWalk >>= fun start => pivots.foldlM addPivot ([], start) >>=
        (net.withScratch {}).growWindow settings.cutSize).map
          fun r => (r.1, net.withScratch r.2) := by
  have hpivots : (!pivots.isEmpty) = true := by
    rw [Bool.not_eq_true', List.isEmpty_eq_false_iff]
    exact hne
  rw [window, require_of hpivots, ok_bind, require_of (decide_eq_true hsize), ok_bind]
  rfl

/-- A window of few leaves encloses its pivots, and the values are as before. -/
theorem window_ends (hwf : net.WellFormed) (hpast : net.scratch.Past)
    (hwalk : net.scratch.walk + 1 < Scratch.valueBound ∨ permitted .overflow)
    {pivots : List NodeId} {settings : WindowSettings} (hne : pivots ≠ [])
    (hexist : ∀ n ∈ pivots, n < net.size) (hlen : pivots.toFinset.card ≤ settings.cutSize)
    (hsize : settings.cutSize < windowBound) :
    Ends permitted (net.window pivots settings) fun r =>
      ∃ scratch, r.2 = net.withScratch scratch ∧
        net.IsWindow pivots settings.cutSize r.1 scratch := by
  have hwork : Ends permitted (pivots.foldlM addPivot ([], net.scratch.nextWalk) >>=
      (net.withScratch {}).growWindow settings.cutSize) fun result =>
      net.Advancing settings.cutSize net.scratch pivots result ∧
        net.Halted settings.cutSize result := by
    refine (addPivots_ends hwf hpast hexist hlen).bind fun state h => ?_
    refine (growWindow_ends ?_ (advancing_withScratch.mpr h)).mono fun _ =>
      And.imp_left advancing_withScratch.mp
    exact fun _ _ hreads => hwf.reads_lt hreads
  rw [window_eq hne hsize]
  refine ((net.scratch.beginWalk_ends hwalk).bind fun start hstart => hstart ▸ hwork).map ?_
  rintro ⟨leaves, scratch⟩ ⟨⟨h, hdistinct, hwalk⟩, hhalted⟩
  exact ⟨scratch, rfl, h.encloses hwf hexist, h.length, hdistinct, h.walked, h.size, hwalk, hhalted⟩

/-- Where the numbers of walks are used up, there is no window. -/
theorem window_eq_error (hwalk : Scratch.valueBound ≤ net.scratch.walk + 1) {pivots : List NodeId}
    {settings : WindowSettings} (hne : pivots ≠ []) (hsize : settings.cutSize < windowBound) :
    net.window pivots settings = .error .overflow := by
  rw [window_eq hne hsize, Scratch.beginWalk_eq_error hwalk, error_bind, map_error]

/-! ### Any marks -/

/-- The frontier of a walk. This does not depend on what the marks were before. -/
structure Walking (origin : Scratch) (state : Frontier) : Prop where
  distinct : Distinct state
  walked : origin.Walked state.2
  walk : state.2.walk = origin.walk + 1

theorem Walking.perm {leaves leaves' : List NodeId} {scratch : Scratch}
    (h : Walking origin (leaves, scratch)) (hperm : leaves'.Perm leaves) :
    Walking origin (leaves', scratch) :=
  ⟨h.distinct.perm hperm, h.walked, h.walk⟩

theorem Walking.foldl_addLeaf {n : NodeId} {rest : List NodeId} {scratch : Scratch}
    (h : Walking origin (n :: rest, scratch)) (ns : List NodeId) :
    Walking origin (ns.foldl net.addLeaf (rest, scratch)) := by
  obtain ⟨hwalked, hwalk⟩ := net.walked_foldl_addLeaf ns (rest, scratch)
  exact ⟨h.distinct.tail.foldl_addLeaf ns, h.walked.trans hwalked, hwalk.trans h.walk⟩

theorem Walking.addPivot {state state' : Frontier} (h : Walking origin state) {n : NodeId}
    (hadd : Network.addPivot state n = .ok state') : Walking origin state' := by
  have hdistinct := h.distinct.addPivot hadd
  obtain ⟨mark, -, hadd⟩ := bind_eq_ok hadd
  split at hadd
  · exact Except.ok.inj hadd ▸ h
  · obtain rfl := Except.ok.inj hadd
    exact ⟨hdistinct, h.walked.trans (state.2.walked_visit n), h.walk⟩

/-- A window that was found is the frontier of a walk. -/
theorem walking_of_window {pivots window : List NodeId} {settings : WindowSettings}
    (h : net.window pivots settings = .ok (window, net')) :
    ∃ scratch, net' = net.withScratch scratch ∧ Walking net.scratch (window, scratch) := by
  obtain ⟨-, -, h⟩ := bind_eq_ok h
  obtain ⟨-, -, h⟩ := bind_eq_ok h
  have hstart : Walking net.scratch ([], net.scratch.nextWalk) :=
    ⟨⟨List.nodup_nil, fun n hn => absurd hn List.not_mem_nil⟩, net.scratch.walked_nextWalk, rfl⟩
  have hpivots : Ends Anything (pivots.foldlM addPivot ([], net.scratch.nextWalk))
      (Walking net.scratch) :=
    Ends.foldlM _ hstart fun n _ state hstate =>
      ends_anything_iff.mpr fun state' hadd => hstate.addPivot hadd
  have hwork : Ends Anything (net.scratch.beginWalk >>= fun start =>
      pivots.foldlM addPivot ([], start) >>= (net.withScratch {}).growWindow settings.cutSize)
      (Walking net.scratch) := by
    refine (ends_anything_iff.mpr fun _ => Scratch.eq_nextWalk_of_beginWalk).bind ?_
    rintro _ rfl
    refine hpivots.bind fun state hstate => ?_
    refine (growWindow_rule _ ?_ (fun _ _ _ => .inr trivial) ?_ hstate).mono fun _ => And.left
    · exact fun _ _ _ hperm hold => hold.perm hperm
    · exact fun _ _ _ hold _ _ => hold.foldl_addLeaf _
  have hwindow : Ends Anything (net.onScratch fun net scratch => do
      net.growWindow settings.cutSize (← pivots.foldlM addPivot ([], ← scratch.beginWalk)))
        fun r => ∃ scratch, r.2 = net.withScratch scratch ∧ Walking net.scratch (r.1, scratch) :=
    hwork.map fun r hr => ⟨r.2, rfl, hr⟩
  exact hwindow.post_of_eq h

end Network

end LogicSynthesis
