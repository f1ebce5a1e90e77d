import LogicSynthesis.Proofs.Network.ConeCost

/-!
# What an acquisition enters and meets

An acquisition counts as it goes, so which gates it enters by which edge depends on the order of its
list. Which gates it enters at all does not: they are those that a path from the node reaches whose
later gates had no reference before. The search for another node rides along. It changes neither the
total nor a count, and it answers whether these gates meet the other node.

## Main definitions

- `Network.restore` — the acquisition without a search
- `Network.Revives` — an edge by which an acquisition goes on
- `Network.InRange` — the total and the counts after an acquisition are in range

## Main statements

- `acquireLoop_forget`, `acquireContaining_forget` — the search changes nothing
- `Cone.mem_iff_revives` — the cone is what revived gates reach
- `meets_revived_iff` — and what it meets
- `acquireContaining_meets_revived` — the acquisition with a search
-/

namespace LogicSynthesis.Network

open Relation

variable {net : Network} {cost : NodeCost} {n : NodeId}

/-! ### Acquiring without a search -/

/-- Acquires the gates on the list and those that had no reference before. -/
def restoreLoop (net : Network) (cost : NodeCost) (total : Nat) (state : Worklist) :
    Except Fault (Nat × Scratch) :=
  match state with
  | ([], scratch) => .ok (total, scratch)
  | (x :: rest, scratch) =>
    match addCost total (cost x), _ : (net.fanins x).foldlM net.acquireEdge (rest, scratch) with
    | .ok total, .ok next => restoreLoop net cost total next
    | .error fault, _ => .error fault
    | _, .error fault => .error fault
  termination_by state.1.length + state.2.unreferenced
  decreasing_by
    have := foldlM_measure (fun s : Worklist => s.1.length + s.2.unreferenced)
      net.acquireEdge (fun _ _ _ => acquireEdge_measure) ‹_›
    simp only [List.length_cons] at this ⊢
    omega

/-- Restores `n` and every gate that comes into use with it, and looks for nothing. Returns their
cost. -/
def restore (net : Network) (cost : NodeCost) (n : NodeId) : Except Fault (Nat × Network) := do
  if (← net.node n).kind.isTerminal then return (0, net)
  net.onScratch fun net scratch => net.restoreLoop cost 0 ([n], scratch)

theorem restoreLoop_cons (cost : NodeCost) (total : Nat) (x : NodeId) (rest : List NodeId)
    (s : Scratch) :
    net.restoreLoop cost total (x :: rest, s) = (do
      let total ← addCost total (cost x)
      let next ← (net.fanins x).foldlM net.acquireEdge (rest, s)
      net.restoreLoop cost total next) := by
  rw [restoreLoop]
  cases addCost total (cost x) <;> cases (net.fanins x).foldlM net.acquireEdge (rest, s) <;> rfl

/-- The loop without its search, whatever was found so far. -/
theorem acquireLoop_forget (target total : Nat) (found : Bool) (state : Worklist) :
    (net.acquireLoop cost target total found state).map (fun r => (r.1.1, r.2)) =
      net.restoreLoop cost total state := by
  fun_induction net.acquireLoop cost target total found state with
  | case1 total found scratch => rw [restoreLoop]; rfl
  | case2 total found x rest scratch total' next hnext hadd ih =>
    rw [restoreLoop_cons, hadd, hnext]
    exact ih
  | case3 total found x rest scratch fault hadd =>
    rw [restoreLoop_cons, hadd]
    rfl
  | case4 total found x rest scratch fault hnext hadd =>
    rw [restoreLoop_cons, hnext]
    cases h : addCost total (cost x) with
    | ok total' => rfl
    | error fault' => exact absurd h (hadd fault')

/-- An acquisition without its search, with its faults. -/
theorem acquireContaining_forget (net : Network) (cost : NodeCost) (n target : NodeId) :
    (net.acquireContaining cost n target).map (fun r => (r.1.1, r.2)) = net.restore cost n := by
  rw [acquireContaining, restore]
  cases net.node n with
  | error fault => rfl
  | ok node =>
    rw [ok_bind, ok_bind]
    cases node.kind.isTerminal with
    | true => rfl
    | false =>
      rw [if_neg Bool.false_ne_true, if_neg Bool.false_ne_true, onScratch, onScratch,
        ← acquireLoop_forget target 0 false]
      cases (net.withScratch {}).acquireLoop cost target 0 false ([n], net.scratch) <;> rfl

theorem acquire_eq_restore (net : Network) (cost : NodeCost) (n : NodeId) :
    net.acquire cost n = net.restore cost n := by
  rw [← acquireContaining_forget net cost n n, acquire]
  cases net.acquireContaining cost n n <;> rfl

/-! ### What is entered -/

/-- By an edge from `x` to the gate `y` an acquisition goes on, since `y` had no reference. -/
def Revives (net : Network) (v : NodeId → Nat) (x y : NodeId) : Prop :=
  net.Reads x y ∧ net.isGate y = true ∧ v y = 0

/-- What an acquisition of a gate enters can be told from the counts before it. -/
theorem Cone.mem_iff_revives (hwf : net.WellFormed) (hac : net.Acyclic) {v : NodeId → Nat}
    {cone : List NodeId} (h : net.Cone v n cone) (m : NodeId) :
    m ∈ cone ↔ ReflTransGen (net.Revives v) n m := by
  constructor
  · -- Whether a node belongs to the cone depends on its readers.
    intro hm
    induction m using hac.induction_readers with
    | _ m ih =>
      by_cases hne : m = n
      · rw [hne]
      · obtain ⟨hterm, hzero, x, hx, hreads⟩ := (h.mem_iff m hne).mp hm
        have hgate := isGate_of_reads_of_not_terminal (fun _ _ h => hwf.reads_lt h) hreads hterm
        exact (ih x hreads hx).tail ⟨hreads, hgate, hzero⟩
  · intro hpath
    induction hpath with
    | refl => exact h.root
    | @tail x m _ hstep ih =>
      obtain ⟨hreads, hgate, hzero⟩ := hstep
      exact h.acquirable.closed m (isTerminal_of_isGate hgate) hzero ⟨x, ih, hreads⟩

/-- The nodes that revived gates reach are finitely many. -/
theorem exists_revived (hwf : net.WellFormed) (hn : n < net.size) (v : NodeId → Nat) :
    ∃ region : Finset NodeId, ∀ m, m ∈ region ↔ ReflTransGen (net.Revives v) n m := by
  have hsub : {m | ReflTransGen (net.Revives v) n m} ⊆ Set.Iio net.size := by
    intro m hm
    rcases ReflTransGen.cases_tail hm with rfl | ⟨x, -, hreads, -⟩
    · exact hn
    · exact hwf.reads_lt hreads
  exact ⟨((Set.finite_Iio net.size).subset hsub).toFinset, fun m => Set.Finite.mem_toFinset _⟩

/-- They are nodes that an acquisition does not leave. -/
theorem acquirable_of_revived (hwf : net.WellFormed) {v : NodeId → Nat} {region : Finset NodeId}
    (hregion : ∀ m, m ∈ region ↔ ReflTransGen (net.Revives v) n m) :
    net.Acquirable v n region.toList := by
  refine ⟨Finset.mem_toList.mpr ((hregion n).mpr .refl), ?_⟩
  rintro m hterm hzero ⟨x, hx, hreads⟩
  have hgate := isGate_of_reads_of_not_terminal (fun _ _ h => hwf.reads_lt h) hreads hterm
  rw [Finset.mem_toList, hregion] at hx ⊢
  exact hx.tail ⟨hreads, hgate, hzero⟩

/-- They meet the node where they start and what they read. -/
theorem meets_revived_iff {v : NodeId → Nat} {cone : List NodeId}
    (hcone : ∀ m, m ∈ cone ↔ ReflTransGen (net.Revives v) n m) (target : NodeId) :
    net.Meets cone target ↔
      target = n ∨ ∃ g, ReflTransGen (net.Revives v) n g ∧ net.Reads g target := by
  simp only [Meets, hcone]
  constructor
  · rintro ⟨g, hpath, rfl | hreads⟩
    · -- A gate that was entered later was read before.
      rcases ReflTransGen.cases_tail hpath with rfl | ⟨x, hx, hreads, -⟩
      · exact .inl rfl
      · exact .inr ⟨x, hx, hreads⟩
    · exact .inr ⟨g, hpath, hreads⟩
  · rintro (rfl | ⟨g, hpath, hreads⟩)
    · exact ⟨target, .refl, .inl rfl⟩
    · exact ⟨g, hpath, .inr hreads⟩

/-! ### What is counted -/

theorem loads_toList (region : Finset NodeId) (m : NodeId) :
    net.loads region.toList m = ∑ x ∈ region, count (net.fanins x) m :=
  Finset.sum_map_toList region fun x => count (net.fanins x) m

theorem costOf_toList (region : Finset NodeId) :
    costOf cost region.toList = ∑ x ∈ region, cost x := Finset.sum_map_toList region cost

/-- After the nodes of `region` were acquired, their cost and the counts are in range. -/
def InRange (net : Network) (cost : NodeCost) (region : Finset NodeId) : Prop :=
  ∑ x ∈ region, cost x < costBound ∧
    ∀ m, net.scratch.valueAt m + ∑ x ∈ region, count (net.fanins x) m < Scratch.valueBound

/-- An acquisition that stays in a region in range does not overflow. -/
theorem room_of_inRange {permitted : Fault → Prop} {region : Finset NodeId}
    (h : net.InRange cost region ∨ permitted .overflow) :
    RoomyWithin permitted net net.scratch.valueAt region.toList ∧
      AffordableWithin permitted net cost region.toList := by
  refine ⟨roomyWithin_of_loads (h.imp_left fun h m => ?_),
    affordableWithin_of_costOf (h.imp_left fun h => ?_)⟩
  · rw [loads_toList]
    exact h.2 m
  · rw [costOf_toList]
    exact h.1

/-- Whatever the counts are: a search for a node changes nothing about an acquisition, faults
included. What the acquisition of a gate enters are the nodes that it reaches by way of gates that
had no reference before. Unless their cost or a count leaves its range, it ends: with their cost as
its total, with one more reference for each of their edges, and with the answer whether the node
that was searched for is the gate or a fanin of one of them. -/
theorem acquireContaining_meets_revived (hnet : net.Built) (hac : net.Acyclic)
    (hgate : net.isGate n = true) (cost : NodeCost) :
    ∃ region : Finset NodeId,
      (∀ m, m ∈ region ↔ ReflTransGen (net.Revives net.scratch.valueAt) n m) ∧ ∀ target,
      (net.acquireContaining cost n target).map (fun r => (r.1.1, r.2)) = net.acquire cost n ∧
      net.acquire cost n = net.restore cost n ∧
      Ends (fun fault => fault = .overflow ∧ ¬ net.InRange cost region)
        (net.acquireContaining cost n target) fun r =>
          r.1.1 = ∑ x ∈ region, cost x ∧
          (∃ scratch, net.scratch.Revalued (fun m =>
            net.scratch.valueAt m + ∑ x ∈ region, count (net.fanins x) m) scratch ∧
            r.2 = net.withScratch scratch) ∧
          (r.1.2 = true ↔ target = n ∨
            ∃ g, ReflTransGen (net.Revives net.scratch.valueAt) n g ∧ net.Reads g target) := by
  have hwf := hnet.wellFormed
  have hn := lt_size_of_kindIs hgate
  obtain ⟨region, hregion⟩ := exists_revived hwf hn net.scratch.valueAt
  refine ⟨region, hregion, fun target => ?_⟩
  have hrestore := acquire_eq_restore net cost n
  refine ⟨(acquireContaining_forget net cost n target).trans hrestore.symm, hrestore, ?_⟩
  have hroom := @room_of_inRange net cost
    (fun fault => fault = .overflow ∧ ¬ net.InRange cost region) region
    ((em _).imp_right fun h => ⟨rfl, h⟩)
  apply (acquireContaining_within hwf hac hn
    (fun _ => ⟨_, acquirable_of_revived hwf hregion, hroom⟩) target).mono
  rintro ⟨⟨total, found⟩, _⟩ ⟨⟨cone, scratch, hcone, rfl, hvalues, rfl⟩, hfound⟩
  have hmem := (hcone.cone (isTerminal_of_isGate hgate)).mem_iff_revives hwf hac
  have hperm : cone.Perm region.toList := by
    rw [List.perm_ext_iff_of_nodup hcone.nodup region.nodup_toList]
    intro m
    rw [Finset.mem_toList, hregion, hmem]
  refine ⟨?_, ⟨scratch, ?_, rfl⟩, (hfound cone hcone).trans (meets_revived_iff hmem target)⟩
  · rw [← costOf_toList]
    exact (hperm.map cost).sum_eq
  · simp only [← loads_toList, ← loads_perm hperm]
    exact hvalues

/-- The conjunction of three inputs, whose gates have lost their references. -/
def idleConjunction : Network :=
  conjunctionOfThree.withScratch
    { conjunctionOfThree.scratch with values := #[0, 3, 7, 4294967294, 0, 0] }

theorem built_idleConjunction : idleConjunction.Built :=
  .annotate built_conjunctionOfThree rfl rfl

theorem revives_idleConjunction :
    idleConjunction.Revives idleConjunction.scratch.valueAt 5 4 :=
  ⟨show 4 ∈ idleConjunction.faninNodes 5 by decide, by decide, by decide⟩

theorem revived_idleConjunction_iff (m : NodeId) :
    ReflTransGen (idleConjunction.Revives idleConjunction.scratch.valueAt) 5 m ↔
      m ∈ ({5, 4} : Finset NodeId) := by
  rw [Finset.mem_insert, Finset.mem_singleton]
  constructor
  · intro hpath
    rcases ReflTransGen.cases_tail hpath with rfl | ⟨x, -, -, hgate, -⟩
    · exact .inl rfl
    · have hm : m < 6 := lt_size_of_kindIs hgate
      interval_cases m <;> revert hgate <;> decide
  · rintro (rfl | rfl)
    · exact .refl
    · exact .single revives_idleConjunction

theorem inRange_idleConjunction : idleConjunction.InRange (fun n => n) {5, 4} := by
  refine ⟨by decide, fun m => ?_⟩
  by_cases hm : m < 6
  · interval_cases m <;> decide
  · -- There is no such node, and nothing reads it.
    have hvalue : idleConjunction.scratch.valueAt m = 0 := by
      rw [Scratch.valueAt, Array.getElem?_eq_none (Nat.not_lt.mp hm)]
      rfl
    have hcount : ∑ x ∈ {5, 4}, count (idleConjunction.fanins x) m = 0 := by
      refine Finset.sum_eq_zero fun x _ => Nat.eq_zero_of_not_pos fun hpos => ?_
      exact hm (built_idleConjunction.wellFormed.reads_lt (count_fanins_pos.mp hpos))
    rw [hvalue, hcount]
    exact Nat.zero_lt_succ _

/-- The outer gate revives the inner one, which reads the first input. -/
theorem acquireContaining_meets_revived_idleConjunction : ∃ net',
    idleConjunction.acquireContaining (fun n => n) 5 1 = .ok ((9, true), net') ∧
    idleConjunction.acquire (fun n => n) 5 = .ok (9, net') := by
  have hac : idleConjunction.Acyclic := acyclic_conjunctionOfThree
  obtain ⟨region, hregion, hwalk⟩ := @acquireContaining_meets_revived idleConjunction 5
    built_idleConjunction hac (by decide) fun n => n
  obtain rfl : region = {5, 4} := by
    ext m
    rw [hregion, revived_idleConjunction_iff]
  obtain ⟨hsame, -, hends⟩ := hwalk 1
  cases hrun : idleConjunction.acquireContaining (fun n => n) 5 1 with
  | error fault =>
    rw [hrun] at hends
    exact absurd inRange_idleConjunction hends.2
  | ok r =>
    obtain ⟨⟨total, found⟩, net'⟩ := r
    rw [hrun] at hsame hends
    obtain ⟨htotal, -, hfound⟩ := hends
    have hread : idleConjunction.Reads 4 1 := show 1 ∈ idleConjunction.faninNodes 4 by decide
    obtain rfl : total = 9 := htotal
    obtain rfl : found = true := hfound.mpr (.inr ⟨4, .single revives_idleConjunction, hread⟩)
    exact ⟨net', rfl, hsame.symm⟩

end LogicSynthesis.Network
