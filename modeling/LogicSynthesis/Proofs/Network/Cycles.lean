import LogicSynthesis.Network.Walk
import LogicSynthesis.Proofs.Network.WellFormed

/-!
# Nodes that lead to cycles

A node is grounded when no fanin path from it goes on forever. A network is finite, so these are
the nodes from which no path leads to a cycle. The search for cycles settles a node once its fanins
are settled. It settles the grounded nodes, acyclic or not the network, and leaves the others.

## Main definitions

- `Network.LeadsToCycle` — some fanin path ends on a cycle
- `Network.Grounded` — every fanin path ends

## Main statements

- `grounded_iff` — a node is grounded unless it leads to a cycle
- `iff_grounded_of_closed` — a rule for searches that settle nodes after their fanins
- `mem_cycleNodes_iff` — the search leaves the nodes that lead to a cycle
-/

namespace LogicSynthesis.Network

open Relation

variable {net : Network} {n m : NodeId}

/-- Some fanin path leads from `n` to a node on a fanin cycle. -/
def LeadsToCycle (net : Network) (n : NodeId) : Prop :=
  ∃ m, ReflTransGen net.Reads n m ∧ TransGen net.Reads m m

theorem LeadsToCycle.lt_size (h : net.LeadsToCycle n) : n < net.size := by
  obtain ⟨m, hpath, hcycle⟩ := h
  rcases hpath.cases_head with rfl | ⟨k, hreads, -⟩
  · obtain ⟨k, hreads, -⟩ := TransGen.head'_iff.mp hcycle
    exact hreads.lt_size
  · exact hreads.lt_size

/-- No fanin path from `n` goes on forever. -/
def Grounded (net : Network) (n : NodeId) : Prop := Acc (fun k m => net.Reads m k) n

theorem Grounded.of_fanins (h : ∀ m, net.Reads n m → net.Grounded m) : net.Grounded n :=
  Acc.intro n h

theorem Grounded.not_leadsToCycle (h : net.Grounded n) : ¬ net.LeadsToCycle n := by
  induction h with
  | intro n _ ih =>
    rintro ⟨m, hpath, hcycle⟩
    rcases hpath.cases_head with rfl | ⟨k, hreads, hpath⟩
    · -- The cycle itself leads from `n` through something that `n` reads.
      obtain ⟨k, hreads, hback⟩ := TransGen.head'_iff.mp hcycle
      exact ih k hreads ⟨n, hback, hcycle⟩
    · exact ih k hreads ⟨m, hpath, hcycle⟩

/-- A path without end comes back to one of its nodes. -/
theorem leadsToCycle_of_not_grounded (h : ¬ net.Grounded n) : net.LeadsToCycle n := by
  obtain ⟨path, rfl, hreads⟩ := not_acc_iff_exists_descending_chain.mp h
  have hlt : ∀ i, path i < net.size := fun i => (hreads i).lt_size
  obtain ⟨i, j, hne, heq⟩ :=
    Finite.exists_ne_map_eq_of_infinite fun i => (⟨path i, hlt i⟩ : Fin net.size)
  have hreach : ∀ i j, i ≤ j → ReflTransGen net.Reads (path i) (path j) := by
    intro i j hij
    induction j, hij using Nat.le_induction with
    | base => exact .refl
    | succ j _ ih => exact ih.tail (hreads j)
  have hcycle : ∀ i j, i < j → path i = path j → net.LeadsToCycle (path 0) := by
    intro i j hij heq
    refine ⟨path i, hreach 0 i (Nat.zero_le i), ?_⟩
    have hback := hreach (i + 1) j hij
    rw [← heq] at hback
    exact .head' (hreads i) hback
  have heq' : path i = path j := congrArg Fin.val heq
  rcases Nat.lt_or_gt_of_ne hne with hij | hji
  · exact hcycle i j hij heq'
  · exact hcycle j i hji heq'.symm

theorem grounded_iff : net.Grounded n ↔ ¬ net.LeadsToCycle n :=
  ⟨Grounded.not_leadsToCycle, fun h => by_contra fun hn => h (leadsToCycle_of_not_grounded hn)⟩

theorem acyclic_iff_grounded : net.Acyclic ↔ ∀ n, net.Grounded n := by
  constructor
  · exact fun hac n => grounded_iff.mpr fun ⟨m, _, hcycle⟩ => hac m hcycle
  · exact fun h n hcycle => (h n).not_leadsToCycle ⟨n, .refl, hcycle⟩

/-- Grounded nodes that include every node whose fanins they include are all grounded nodes. -/
theorem iff_grounded_of_closed (hwf : net.WellFormed) {p : NodeId → Prop}
    (hsound : ∀ n, p n → net.Grounded n)
    (hclosed : ∀ n < net.size, (∀ m, net.Reads n m → p m) → p n) (hn : n < net.size) :
    p n ↔ net.Grounded n := by
  refine ⟨hsound n, fun h => ?_⟩
  induction h with
  | intro n _ ih => exact hclosed n hn fun m hreads => ih m hreads (hwf.reads_lt hreads)

/-! ### Settling -/

theorem faninsSettled_iff {settled : Array Bool} :
    net.faninsSettled settled n = true ↔ ∀ m, net.Reads n m → settled[m]? = some true := by
  simp only [faninsSettled, List.all_eq_true, beq_iff_eq, Reads]

/-- What settling some nodes in turn does: marked nodes stay marked, the marks stay on grounded
nodes, and nodes of which the fanins were marked are marked. -/
structure SettledAfter (net : Network) (settled next : Array Bool) (k : Nat) : Prop where
  size : next.size = settled.size
  kept : ∀ n : NodeId, settled[n]? = some true → next[n]? = some true
  sound : (∀ n : NodeId, settled[n]? = some true → net.Grounded n) →
    ∀ n : NodeId, next[n]? = some true → net.Grounded n
  added : ∀ n : NodeId, n < k → n < settled.size → net.faninsSettled settled n = true →
    next[n]? = some true

theorem faninsSettled_mono {settled next : Array Bool}
    (h : ∀ n : NodeId, settled[n]? = some true → next[n]? = some true)
    (hn : net.faninsSettled settled n = true) : net.faninsSettled next n = true :=
  faninsSettled_iff.mpr fun m hreads => h m (faninsSettled_iff.mp hn m hreads)

theorem settledAfter_foldl (net : Network) (settled : Array Bool) (k : Nat) :
    SettledAfter net settled ((List.range k).foldl
      (fun settled n => if net.faninsSettled settled n then settled.setIfInBounds n true
        else settled) settled) k := by
  induction k with
  | zero => exact ⟨rfl, fun _ h => h, fun h => h, fun n hn => absurd hn (Nat.not_lt_zero n)⟩
  | succ k ih =>
    rw [List.range_succ, List.foldl_append, List.foldl_cons, List.foldl_nil]
    generalize (List.range k).foldl _ settled = now at ih
    split
    · next hk =>
      have hbounds : ∀ n : NodeId, now[n]? = some true →
          (now.setIfInBounds k true)[n]? = some true := by
        intro n hn
        have hlt := (Array.getElem?_eq_some_iff.mp hn).1
        rw [Array.getElem?_setIfInBounds]
        split
        · next heq => rw [if_pos (heq ▸ hlt)]
        · exact hn
      refine ⟨Array.size_setIfInBounds.trans ih.size, fun n hn => hbounds n (ih.kept n hn), ?_, ?_⟩
      · intro hsettled n hn
        rw [Array.getElem?_setIfInBounds] at hn
        split at hn
        · next heq =>
          obtain rfl := heq
          exact .of_fanins fun m hreads =>
            ih.sound hsettled m (faninsSettled_iff.mp hk m hreads)
        · exact ih.sound hsettled n hn
      · intro n hn hlt hfanins
        rcases Nat.lt_succ_iff_lt_or_eq.mp hn with hn | rfl
        · exact hbounds n (ih.added n hn hlt hfanins)
        · rw [Array.getElem?_setIfInBounds, if_pos rfl, if_pos (ih.size.symm ▸ hlt)]
    · next hk =>
      refine ⟨ih.size, ih.kept, ih.sound, ?_⟩
      intro n hn hlt hfanins
      rcases Nat.lt_succ_iff_lt_or_eq.mp hn with hn | rfl
      · exact ih.added n hn hlt hfanins
      · exact absurd (faninsSettled_mono ih.kept hfanins) hk

/-- When one array of marks extends another, it has more marks unless it has the same. -/
theorem countP_lt_or_eq {settled next : List Bool} (hlen : next.length = settled.length)
    (hkept : ∀ n : Nat, settled[n]? = some true → next[n]? = some true) :
    settled.countP id < next.countP id ∨ next = settled := by
  induction settled generalizing next with
  | nil => exact .inr (List.eq_nil_of_length_eq_zero hlen)
  | cons b settled ih =>
    obtain ⟨c, next, rfl⟩ := List.exists_cons_of_length_eq_add_one hlen
    have hrest := ih (Nat.succ.inj hlen) fun n hn => hkept (n + 1) hn
    have hhead := hkept 0
    rcases hrest with hlt | rfl <;> cases b <;> cases c <;> simp at hhead ⊢ <;> omega

/-- Marks that no further round of settling can add to. -/
structure Settled (net : Network) (settled : Array Bool) : Prop where
  size : settled.size = net.size
  sound : ∀ n : NodeId, settled[n]? = some true → net.Grounded n
  closed : ∀ n < net.size, net.faninsSettled settled n = true → settled[n]? = some true

/-- A round settles something, or nothing is left to settle. So is the case when every node is
settled, which as many rounds as there are nodes bring about. -/
theorem settled_settle (rounds : Nat) (settled : Array Bool) (hsize : settled.size = net.size)
    (hsound : ∀ n : NodeId, settled[n]? = some true → net.Grounded n)
    (hrounds : net.size ≤ settled.countP id + rounds) :
    net.Settled (net.settle rounds settled) := by
  induction rounds generalizing settled with
  | zero =>
    rw [settle]
    refine ⟨hsize, hsound, fun n hn _ => ?_⟩
    have hfull : ∀ b ∈ settled, id b = true :=
      Array.countP_eq_size.mp (le_antisymm Array.countP_le_size (by omega))
    have hlt := lt_of_lt_of_eq hn hsize.symm
    rw [Array.getElem?_eq_getElem hlt]
    exact congrArg some (hfull _ (Array.getElem_mem hlt))
  | succ rounds ih =>
    have hnext : SettledAfter net settled (net.settleOnce settled) net.size :=
      settledAfter_foldl net settled net.size
    have hgrow : settled.toList.countP id < (net.settleOnce settled).toList.countP id ∨
        (net.settleOnce settled).toList = settled.toList := by
      apply countP_lt_or_eq hnext.size
      intro n hn
      rw [Array.getElem?_toList] at hn ⊢
      exact hnext.kept n hn
    rw [Array.countP_toList, Array.countP_toList] at hgrow
    rw [settle]
    split
    · next hsame =>
      have heq := Array.toList_inj.mp (hgrow.resolve_left (by omega))
      refine ⟨hsize, hsound, fun n hn hfanins => ?_⟩
      rw [← heq]
      exact hnext.added n hn (hsize.symm ▸ hn) hfanins
    · next hmore =>
      have hlt := hgrow.resolve_right fun heq => hmore (by rw [Array.toList_inj.mp heq])
      exact ih _ (hnext.size.trans hsize) (hnext.sound hsound) (by omega)

/-- The search leaves the nodes from which a fanin path leads to a cycle. -/
theorem mem_cycleNodes_iff (hwf : net.WellFormed) : n ∈ net.cycleNodes ↔ net.LeadsToCycle n := by
  have hdone : net.Settled (net.settle net.size (Array.replicate net.size false)) := by
    refine settled_settle _ _ Array.size_replicate (fun n hn => ?_) (Nat.le_add_left _ _)
    rw [Array.getElem?_replicate] at hn
    split at hn <;> cases hn
  have hsettled : ∀ n < net.size,
      (net.settle net.size (Array.replicate net.size false))[n]? = some true ↔ net.Grounded n :=
    fun n hn => iff_grounded_of_closed hwf hdone.sound
      (fun n hn hfanins => hdone.closed n hn (faninsSettled_iff.mpr hfanins)) hn
  rw [cycleNodes, List.mem_filter, nodeIds, List.mem_range, beq_iff_eq]
  constructor
  · rintro ⟨hn, hleft⟩
    refine leadsToCycle_of_not_grounded fun hgrounded => ?_
    rw [(hsettled n hn).mpr hgrounded] at hleft
    cases hleft
  · intro hcycle
    have hn := hcycle.lt_size
    have hget := Array.getElem?_eq_getElem (lt_of_lt_of_eq hn hdone.size.symm)
    refine ⟨hn, hget.trans (congrArg some (Bool.eq_false_iff.mpr fun htrue => ?_))⟩
    exact ((hsettled n hn).mp (hget.trans (congrArg some htrue))).not_leadsToCycle hcycle

theorem pairwise_cycleNodes (net : Network) : net.cycleNodes.Pairwise (· < ·) :=
  List.Pairwise.filter _ List.pairwise_lt_range

/-- The search leaves nothing just when the network is acyclic. -/
theorem cycleNodes_eq_nil_iff (hwf : net.WellFormed) : net.cycleNodes = [] ↔ net.Acyclic := by
  rw [List.eq_nil_iff_forall_not_mem, acyclic_iff_grounded]
  exact forall_congr' fun n => by rw [mem_cycleNodes_iff hwf, grounded_iff]

/-- An acyclic network has no node from which a fanin path leads into a cycle. -/
theorem cycleNodes_eq_nil (hwf : net.WellFormed) (hac : net.Acyclic) : net.cycleNodes = [] :=
  (cycleNodes_eq_nil_iff hwf).mpr hac

end LogicSynthesis.Network
