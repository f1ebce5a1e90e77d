import LogicSynthesis.Proofs.Network.Assembly
import LogicSynthesis.Proofs.Network.Cycles
import LogicSynthesis.Proofs.Network.Walk

/-!
# Searches for cycles and for nodes

Two searches go through a network that may have cycles. A sweep takes nodes from a queue, counts
down the fanins that their readers still wait for, and puts a reader into the queue when it waits
for none; a node that reads another one twice waits for it twice. A search looks for a node with a
stack, and goes on from each node once. Both end in every network, and they find what they are
meant to find.

## Main definitions

- `Network.sweepStep` — a node is taken from the queue
- `Network.searchStep` — a node is taken from the stack

## Main statements

- `Sweeping.step` — the invariant of the sweep
- `exists_sweep` — the sweep ends and leaves the nodes that lead to a cycle
- `exists_search` — the search ends and finds what its root reaches
- `searches_exact` — what the two searches of a network find
-/

namespace LogicSynthesis.Network

open Relation

variable {net : Network} {n m root target : NodeId}

/-! ### The sweep -/

/-- The nodes that wait to be taken, the number of fanins that each node waits for, and the number
of nodes taken. -/
structure Sweep where
  queue : List NodeId
  waits : Array Nat
  taken : Nat

/-- One fanin of `n` was taken. If it was the last one, `n` can be taken as well. -/
def Sweep.takeFanin (s : Sweep) (n : NodeId) : Option Sweep :=
  match s.waits[n]? with
  | some (left + 1) =>
    some { s with
      queue := if left = 0 then s.queue ++ [n] else s.queue
      waits := s.waits.setIfInBounds n left }
  | _ => none

theorem Sweep.takeFanin_eq {s : Sweep} {left : Nat} (h : s.waits[n]? = some (left + 1)) :
    s.takeFanin n = some { s with
      queue := if left = 0 then s.queue ++ [n] else s.queue
      waits := s.waits.setIfInBounds n left } := by
  rw [takeFanin, h]

/-- The nodes that read `n`, each as often as it does. -/
def readings (net : Network) (n : NodeId) : List NodeId :=
  net.nodeIds.flatMap fun m => List.replicate ((net.faninNodes m).count n) m

/-- One step: the first node of the queue is taken. There is none from an empty queue. -/
def sweepStep (net : Network) (s : Sweep) : Option Sweep :=
  match s.queue with
  | [] => none
  | n :: rest =>
    (net.readings n).foldlM Sweep.takeFanin { s with queue := rest, taken := s.taken + 1 }

/-- One state of the sweep follows another. -/
def SweepNext (net : Network) (s s' : Sweep) : Prop := net.sweepStep s = some s'

/-- The sweep starts with the nodes that have no fanins. -/
def sweepStart (net : Network) : Sweep :=
  { queue := net.nodeIds.filter fun n => (net.faninNodes n).length == 0
    waits := Array.ofFn (n := net.size) fun n => (net.faninNodes n).length
    taken := 0 }

/-- The nodes that still wait, unless all were taken. -/
def Sweep.left (s : Sweep) (net : Network) : List NodeId :=
  if s.taken = net.size then [] else net.nodeIds.filter fun n => 0 < (s.waits[n]?).getD 0

theorem count_readings (net : Network) (n : NodeId) (hm : m < net.size) :
    (net.readings n).count m = (net.faninNodes m).count n := by
  have hother : ∀ k, k ≠ m → k ∈ net.nodeIds →
      (List.replicate ((net.faninNodes k).count n) k).count m = 0 := by
    intro k hk _
    rw [List.count_replicate, if_neg (by simpa using hk)]
  have honce : net.nodeIds.count m = 1 :=
    List.count_eq_one_of_mem List.nodup_range (List.mem_range.mpr hm)
  rw [readings, List.count_flatMap]
  refine (List.sum_map_eq_nsmul_single m _ hother).trans ?_
  rw [honce, one_smul]
  exact List.count_replicate_self

theorem mem_readings : m ∈ net.readings n ↔ net.Reads m n := by
  rw [readings, List.mem_flatMap]
  constructor
  · rintro ⟨k, -, hk⟩
    obtain ⟨hcount, rfl⟩ := List.mem_replicate.mp hk
    exact List.count_pos_iff.mp (Nat.pos_of_ne_zero hcount)
  · intro hreads
    refine ⟨m, List.mem_range.mpr hreads.lt_size, List.mem_replicate.mpr ⟨?_, rfl⟩⟩
    exact (List.count_pos_iff.mpr hreads).ne'

/-- A state in the middle of a step. Node `m` waited for `count m` fanins when the step began, and
it was met `passed.count m` times since. What waits for nothing is in the queue, unless it is out
of the sweep. -/
structure Passing (net : Network) (count : NodeId → Nat) (out : NodeId → Prop)
    (passed : List NodeId) (s : Sweep) : Prop where
  waits : ∀ m < net.size, s.waits[m]? = some (count m - passed.count m)
  nodup : s.queue.Nodup
  mem_queue : ∀ m, m ∈ s.queue ↔ m < net.size ∧ ¬ out m ∧ count m ≤ passed.count m

theorem Passing.takeFanin {count : NodeId → Nat} {out : NodeId → Prop} {passed : List NodeId}
    {s : Sweep} (h : net.Passing count out passed s) (hn : n < net.size) (hout : ¬ out n)
    (hcount : passed.count n < count n) :
    ∃ s', s.takeFanin n = some s' ∧ net.Passing count out (passed ++ [n]) s' ∧
      s'.taken = s.taken := by
  obtain ⟨left, hleft⟩ : ∃ left, count n - passed.count n = left + 1 :=
    ⟨count n - passed.count n - 1, by omega⟩
  have hwaits := h.waits n hn
  have hlt := (Array.getElem?_eq_some_iff.mp hwaits).1
  rw [hleft] at hwaits
  have hself : (passed ++ [n]).count n = passed.count n + 1 := by
    rw [List.count_append, List.count_singleton_self]
  have hother : ∀ m, m ≠ n → (passed ++ [n]).count m = passed.count m := by
    intro m hm
    rw [List.count_append, List.count_singleton, if_neg (by simpa using hm.symm), Nat.add_zero]
  have hnot : n ∉ s.queue := fun hmem => by
    have := ((h.mem_queue n).mp hmem).2.2
    omega
  refine ⟨_, Sweep.takeFanin_eq hwaits, ⟨?_, ?_, ?_⟩, rfl⟩
  · intro m hm
    rw [Array.getElem?_setIfInBounds]
    by_cases heq : m = n
    · subst heq
      rw [if_pos rfl, if_pos hlt, hself]
      congr 1
      omega
    · rw [if_neg (Ne.symm heq), h.waits m hm, hother m heq]
  · show (if left = 0 then s.queue ++ [n] else s.queue).Nodup
    split
    · exact List.concat_eq_append ▸ h.nodup.concat hnot
    · exact h.nodup
  · intro m
    show m ∈ (if left = 0 then s.queue ++ [n] else s.queue) ↔ _
    by_cases heq : m = n
    · subst heq
      rw [hself]
      split
      · next hzero =>
        exact iff_of_true (List.mem_append_right _ (List.mem_singleton_self m))
          ⟨hn, hout, by omega⟩
      · next hpos => exact iff_of_false hnot fun hmem => by omega
    · rw [hother m heq, ← h.mem_queue m]
      split
      · simp [heq]
      · rfl

theorem Passing.foldlM {count : NodeId → Nat} {out : NodeId → Prop} (ns passed : List NodeId)
    {s : Sweep} (h : net.Passing count out passed s)
    (hns : ∀ n ∈ ns, n < net.size ∧ ¬ out n ∧ (passed ++ ns).count n ≤ count n) :
    ∃ s', ns.foldlM Sweep.takeFanin s = some s' ∧ net.Passing count out (passed ++ ns) s' ∧
      s'.taken = s.taken := by
  induction ns generalizing passed s with
  | nil => exact ⟨s, rfl, by rwa [List.append_nil], rfl⟩
  | cons n ns ih =>
    obtain ⟨hn, hout, hcount⟩ := hns n List.mem_cons_self
    rw [List.count_append, List.count_cons_self] at hcount
    obtain ⟨mid, hmid, hpassing, htaken⟩ := h.takeFanin hn hout (by omega)
    have hsplit : passed ++ n :: ns = passed ++ [n] ++ ns := by simp
    rw [hsplit] at hns ⊢
    obtain ⟨s', hrun, hdone, htaken'⟩ :=
      ih (passed ++ [n]) hpassing fun k hk => hns k (List.mem_cons_of_mem _ hk)
    refine ⟨s', ?_, hdone, htaken'.trans htaken⟩
    rw [List.foldlM_cons, hmid]
    exact hrun

/-- A state between two steps. The nodes taken are grounded and include their fanins; every node
waits for the fanins that are not taken, and is in the queue when there are none. -/
structure Sweeping (net : Network) (taken : List NodeId) (s : Sweep) : Prop where
  nodup : taken.Nodup
  lt : ∀ n ∈ taken, n < net.size
  fanins : ∀ n ∈ taken, ∀ m, net.Reads n m → m ∈ taken
  grounded : ∀ n ∈ taken, net.Grounded n
  count : s.taken = taken.length
  passing : net.Passing (fun m => (net.faninNodes m).countP (· ∉ taken)) (· ∈ taken) [] s

theorem Sweeping.length_le {taken : List NodeId} {s : Sweep} (h : net.Sweeping taken s) :
    taken.length ≤ net.size := by
  have hsub : taken ⊆ net.nodeIds := fun n hn => List.mem_range.mpr (h.lt n hn)
  simpa only [nodeIds, List.length_range] using (List.subperm_of_subset h.nodup hsub).length_le

theorem countP_not_mem_eq_zero {taken ns : List NodeId} :
    ns.countP (· ∉ taken) ≤ 0 ↔ ∀ n ∈ ns, n ∈ taken := by
  simp [List.countP_eq_zero]

/-- A node that is taken is one that its readers do not wait for any more. -/
theorem countP_not_mem_cons {taken : List NodeId} (hn : n ∉ taken) (ns : List NodeId) :
    ns.countP (· ∉ taken) = ns.countP (· ∉ n :: taken) + ns.count n := by
  induction ns with
  | nil => rfl
  | cons m ns ih =>
    rw [List.countP_cons, List.countP_cons, List.count_cons, ih]
    by_cases hm : m = n
    · subst hm
      simp [hn, Nat.add_assoc]
    · simp [hm, Nat.add_right_comm]

theorem Sweeping.step {taken : List NodeId} {s : Sweep} (h : net.Sweeping taken s)
    {rest : List NodeId} (hqueue : s.queue = n :: rest) :
    ∃ s', net.SweepNext s s' ∧ net.Sweeping (n :: taken) s' := by
  have hnodup := h.passing.nodup
  rw [hqueue, List.nodup_cons] at hnodup
  have hmem := h.passing.mem_queue
  simp only [hqueue, List.count_nil, countP_not_mem_eq_zero] at hmem
  obtain ⟨hn, hnot, hfanins⟩ := (hmem n).mp List.mem_cons_self
  have hcount : ∀ m < net.size, (net.faninNodes m).countP (· ∉ taken) =
      (net.faninNodes m).countP (· ∉ n :: taken) + (net.readings n).count m := fun m hm => by
    rw [count_readings net n hm, countP_not_mem_cons hnot]
  -- What reads `n` was not taken before, and `n` itself does not.
  have hreader : ∀ m, net.Reads m n → m ∉ n :: taken := by
    intro m hreads hmem
    rcases List.mem_cons.mp hmem with rfl | hmem
    · exact hnot (hfanins m hreads)
    · exact hnot (h.fanins m hmem n hreads)
  have hbegin : net.Passing (fun m => (net.faninNodes m).countP (· ∉ taken)) (· ∈ n :: taken) []
      { s with queue := rest, taken := s.taken + 1 } := by
    refine ⟨h.passing.waits, hnodup.2, fun m => ?_⟩
    simp only [List.count_nil, countP_not_mem_eq_zero]
    have hm := hmem m
    rw [List.mem_cons] at hm
    constructor
    · intro hrest
      obtain ⟨hlt, hm', hfanins'⟩ := hm.mp (.inr hrest)
      refine ⟨hlt, ?_, hfanins'⟩
      rintro hcons
      rcases List.mem_cons.mp hcons with rfl | htaken
      · exact hnodup.1 hrest
      · exact hm' htaken
    · rintro ⟨hlt, hm', hfanins'⟩
      rw [List.mem_cons, not_or] at hm'
      exact (hm.mpr ⟨hlt, hm'.2, hfanins'⟩).resolve_left hm'.1
  obtain ⟨s', hrun, hdone, htaken⟩ := hbegin.foldlM (net.readings n) [] fun m hm => by
    have hreads := mem_readings.mp hm
    refine ⟨hreads.lt_size, hreader m hreads, ?_⟩
    rw [List.nil_append, hcount m hreads.lt_size]
    exact Nat.le_add_left _ _
  rw [List.nil_append] at hdone
  refine ⟨s', ?_, ?_⟩
  · rw [SweepNext, sweepStep, hqueue]
    exact hrun
  have hgrounded : net.Grounded n := .of_fanins fun m hreads => h.grounded m (hfanins m hreads)
  refine ⟨List.nodup_cons.mpr ⟨hnot, h.nodup⟩, List.forall_mem_cons.mpr ⟨hn, h.lt⟩, ?_,
    List.forall_mem_cons.mpr ⟨hgrounded, h.grounded⟩, ?_,
    ⟨fun m hm => ?_, hdone.nodup, fun m => ?_⟩⟩
  · intro m hm k hreads
    rcases List.mem_cons.mp hm with rfl | hm
    · exact List.mem_cons_of_mem _ (hfanins k hreads)
    · exact List.mem_cons_of_mem _ (h.fanins m hm k hreads)
  · rw [htaken, List.length_cons, ← h.count]
  · rw [hdone.waits m hm, hcount m hm, Nat.add_sub_cancel, List.count_nil, Nat.sub_zero]
  · rw [hdone.mem_queue m, List.count_nil]
    refine and_congr_right fun hm => and_congr_right fun _ => ?_
    have := hcount m hm
    omega

theorem sweeping_start (net : Network) : net.Sweeping [] net.sweepStart := by
  refine ⟨List.nodup_nil, List.forall_mem_nil _, List.forall_mem_nil _, List.forall_mem_nil _, rfl,
    ⟨fun m hm => ?_, List.nodup_range.filter _, fun m => ?_⟩⟩
  · simp [sweepStart, hm]
  · simp [sweepStart, nodeIds, List.eq_nil_iff_forall_not_mem]

/-- What the sweep leaves when the queue is empty. -/
theorem Sweeping.left_eq {taken : List NodeId} {s : Sweep} (h : net.Sweeping taken s)
    (hwf : net.WellFormed) (hqueue : s.queue = []) : s.left net = net.cycleNodes := by
  have hmem := h.passing.mem_queue
  simp only [hqueue, List.count_nil, countP_not_mem_eq_zero, List.not_mem_nil, false_iff] at hmem
  have htaken : ∀ n < net.size, n ∈ taken ↔ net.Grounded n := fun n hn =>
    iff_grounded_of_closed hwf h.grounded
      (fun n hn hfanins => by_contra fun hnot => hmem n ⟨hn, hnot, hfanins⟩) hn
  have hwaits : ∀ n < net.size, 0 < (s.waits[n]?).getD 0 ↔ net.LeadsToCycle n := by
    intro n hn
    rw [← not_iff_not, ← grounded_iff, ← htaken n hn, h.passing.waits n hn, List.count_nil,
      Nat.sub_zero, Option.getD_some, Nat.not_lt, countP_not_mem_eq_zero]
    exact ⟨fun hfanins => by_contra fun hnot => hmem n ⟨hn, hnot, hfanins⟩, h.fanins n⟩
  have hfilter : net.nodeIds.filter (fun n => 0 < (s.waits[n]?).getD 0) = net.cycleNodes := by
    refine List.Pairwise.eq_of_mem_iff (List.Pairwise.filter _ List.pairwise_lt_range)
      (pairwise_cycleNodes net) fun n => ?_
    rw [mem_cycleNodes_iff hwf, List.mem_filter, decide_eq_true_iff, nodeIds, List.mem_range]
    constructor
    · rintro ⟨hn, hleft⟩
      exact (hwaits n hn).mp hleft
    · intro hcycle
      exact ⟨hcycle.lt_size, (hwaits n hcycle.lt_size).mpr hcycle⟩
  rw [Sweep.left]
  split
  · next hall =>
    -- As many nodes as there are were taken, so all were, and all are grounded.
    rw [h.count] at hall
    have hsub : taken ⊆ net.nodeIds := fun n hn => List.mem_range.mpr (h.lt n hn)
    have hperm : taken.Perm net.nodeIds :=
      (List.subperm_of_subset h.nodup hsub).perm_of_length_le (by simp [nodeIds, hall])
    refine (List.eq_nil_iff_forall_not_mem.mpr fun n hn => ?_).symm
    have hcycle := (mem_cycleNodes_iff hwf).mp hn
    have hmem : n ∈ taken := hperm.mem_iff.mpr (List.mem_range.mpr hcycle.lt_size)
    exact (h.grounded n hmem).not_leadsToCycle hcycle
  · exact hfilter

/-- The sweep ends with an empty queue, and what it leaves are the nodes that lead to a cycle. -/
theorem exists_sweep (hwf : net.WellFormed) :
    ∃ s, ReflTransGen net.SweepNext net.sweepStart s ∧ s.queue = [] ∧
      s.left net = net.cycleNodes := by
  -- Every step takes a node, and no more are taken than there are.
  have hrun : ∀ k taken s, net.Sweeping taken s → net.size ≤ taken.length + k →
      ∃ s', ReflTransGen net.SweepNext s s' ∧ s'.queue = [] ∧ s'.left net = net.cycleNodes := by
    intro k
    induction k with
    | zero =>
      intro taken s h hk
      cases hqueue : s.queue with
      | nil => exact ⟨s, .refl, hqueue, h.left_eq hwf hqueue⟩
      | cons n rest =>
        obtain ⟨s', -, hnext⟩ := h.step hqueue
        have := hnext.length_le
        rw [List.length_cons] at this
        omega
    | succ k ih =>
      intro taken s h hk
      cases hqueue : s.queue with
      | nil => exact ⟨s, .refl, hqueue, h.left_eq hwf hqueue⟩
      | cons n rest =>
        obtain ⟨s', hstep, hnext⟩ := h.step hqueue
        obtain ⟨last, hrun, hlast⟩ := ih _ s' hnext (by rw [List.length_cons]; omega)
        exact ⟨last, .head hstep hrun, hlast⟩
  exact hrun net.size [] _ (sweeping_start net) (Nat.le_add_left _ _)

/-! ### The search -/

/-- A search has nodes to look at, the latest first, and marks on those that it went on from, or it
has ended. -/
inductive Search where
  | looking (stack : List NodeId) (w : Walk)
  | ended (found : Bool)

/-- One step. The search ends when it comes to `target` or has nothing to look at. It passes over a
node that it went on from before, and goes on from any other node to its fanins. -/
def searchStep (net : Network) (target : NodeId) : Search → Option Search
  | .ended _ => none
  | .looking [] _ => some (.ended false)
  | .looking (n :: rest) w =>
    if n = target then some (.ended true)
    else
      match w.seen[n]? with
      | some false => some (.looking ((net.faninNodes n).reverse ++ rest) (w.see n))
      | some true => some (.looking rest w)
      | none => none

/-- One state of the search follows another. -/
def SearchNext (net : Network) (target : NodeId) (s s' : Search) : Prop :=
  net.searchStep target s = some s'

/-- The search starts at its root. -/
def searchStart (net : Network) (root : NodeId) : Search := .looking [root] (Walk.start net)

/-- The nodes to look at exist and are reached from the root. What is read by the nodes that the
search went on from is to be looked at, unless the search went on from it as well, and `target` is
none of these nodes. -/
structure Searching (net : Network) (root target : NodeId) (stack : List NodeId) (w : Walk) :
    Prop where
  size : w.seen.size = net.size
  lt : ∀ n ∈ stack, n < net.size
  reached : ∀ n ∈ stack, ReflTransGen net.Reads root n
  root : root ∈ stack ∨ w.Sees root
  closed : ∀ m n, w.Sees m → net.Reads m n → n ∈ stack ∨ w.Sees n
  missed : ¬ w.Sees target

theorem searching_start (hroot : root < net.size) :
    net.Searching root target [root] (Walk.start net) :=
  ⟨Walk.size_start net, List.forall_mem_singleton.mpr hroot, List.forall_mem_singleton.mpr .refl,
    .inl (List.mem_singleton_self root), fun _ _ hm => absurd hm (Walk.not_sees_start net _),
    Walk.not_sees_start net target⟩

theorem Searching.skip {rest : List NodeId} {w : Walk}
    (h : net.Searching root target (n :: rest) w) (hn : w.Sees n) :
    net.Searching root target rest w := by
  have hmem : ∀ m, m ∈ n :: rest ∨ w.Sees m → m ∈ rest ∨ w.Sees m := by
    rintro m (hm | hm)
    · rcases List.mem_cons.mp hm with rfl | hm
      · exact .inr hn
      · exact .inl hm
    · exact .inr hm
  exact ⟨h.size, (List.forall_mem_cons.mp h.lt).2, (List.forall_mem_cons.mp h.reached).2,
    hmem root h.root, fun m k hm hreads => hmem k (h.closed m k hm hreads), h.missed⟩

theorem Searching.enter {rest : List NodeId} {w : Walk} (hwf : net.WellFormed)
    (h : net.Searching root target (n :: rest) w) (hne : n ≠ target) :
    net.Searching root target ((net.faninNodes n).reverse ++ rest) (w.see n) := by
  obtain ⟨hn, hlt⟩ := List.forall_mem_cons.mp h.lt
  obtain ⟨hpath, hreached⟩ := List.forall_mem_cons.mp h.reached
  have hsees : ∀ m, (w.see n).Sees m ↔ m = n ∨ w.Sees m := fun m => by
    rw [Walk.sees_see, h.size]
    exact or_congr_left (and_iff_left hn)
  have hfanins : ∀ m ∈ (net.faninNodes n).reverse, net.Reads n m := fun _ => List.mem_reverse.mp
  have hmem : ∀ m, m ∈ n :: rest ∨ w.Sees m →
      m ∈ (net.faninNodes n).reverse ++ rest ∨ (w.see n).Sees m := by
    rintro m (hm | hm)
    · rcases List.mem_cons.mp hm with rfl | hm
      · exact .inr ((hsees m).mpr (.inl rfl))
      · exact .inl (List.mem_append_right _ hm)
    · exact .inr ((hsees m).mpr (.inr hm))
  refine ⟨(w.size_see n).trans h.size, ?_, ?_, hmem root h.root, ?_, ?_⟩
  · exact List.forall_mem_append.mpr ⟨fun m hm => hwf.reads_lt (hfanins m hm), hlt⟩
  · exact List.forall_mem_append.mpr ⟨fun m hm => hpath.tail (hfanins m hm), hreached⟩
  · intro m k hm hreads
    rcases (hsees m).mp hm with rfl | hm
    · exact .inl (List.mem_append_left _ (List.mem_reverse.mpr hreads))
    · exact hmem k (h.closed m k hm hreads)
  · rw [hsees, not_or]
    exact ⟨hne.symm, h.missed⟩

/-- With nothing to look at, the search has gone on from all that its root reaches. -/
theorem Searching.not_reached {w : Walk} (h : net.Searching root target [] w) :
    ¬ ReflTransGen net.Reads root target := by
  have hsees : ∀ m, ReflTransGen net.Reads root m → w.Sees m := by
    intro m hpath
    induction hpath with
    | refl => exact h.root.resolve_left List.not_mem_nil
    | tail _ hreads ih => exact (h.closed _ _ ih hreads).resolve_left List.not_mem_nil
  exact fun hpath => h.missed (hsees target hpath)

/-- The search ends: at each step it goes on from one more node, or has one node less to look at. -/
theorem Searching.exists_ended (hwf : net.WellFormed) {stack : List NodeId} {w : Walk}
    (h : net.Searching root target stack w) :
    ∃ found, ReflTransGen (net.SearchNext target) (.looking stack w) (.ended found) ∧
      (found = true ↔ ReflTransGen net.Reads root target) := by
  match stack, h with
  | [], h =>
    exact ⟨false, .single rfl, iff_of_false Bool.false_ne_true h.not_reached⟩
  | n :: rest, h =>
    by_cases hne : n = target
    · refine ⟨true, .single ?_, iff_of_true rfl ?_⟩
      · rw [SearchNext, searchStep, if_pos hne]
      · exact hne ▸ h.reached n List.mem_cons_self
    have hlt : n < w.seen.size := h.size ▸ h.lt n List.mem_cons_self
    have hget := Array.getElem?_eq_getElem hlt
    cases hseen : w.seen[n] with
    | true =>
      rw [hseen] at hget
      obtain ⟨found, hrun, hfound⟩ := (h.skip hget).exists_ended hwf
      refine ⟨found, .head ?_ hrun, hfound⟩
      rw [SearchNext, searchStep, if_neg hne, hget]
    | false =>
      rw [hseen] at hget
      have hless := Walk.remaining_see (Walk.isNew_iff.mpr hget)
      obtain ⟨found, hrun, hfound⟩ := (h.enter hwf hne).exists_ended hwf
      refine ⟨found, .head ?_ hrun, hfound⟩
      rw [SearchNext, searchStep, if_neg hne, hget]
  termination_by (w.remaining, stack.length)

theorem exists_search (hwf : net.WellFormed) (hroot : root < net.size) (target : NodeId) :
    ∃ found, ReflTransGen (net.SearchNext target) (net.searchStart root) (.ended found) ∧
      (found = true ↔ ReflTransGen net.Reads root target) :=
  (searching_start hroot).exists_ended hwf

/-- The two searches are exact, whether the network is acyclic or not. The search for cycles gives
the nodes from which a fanin path leads to a node on a cycle, in ascending order, and none just
when the network is acyclic. The sweep with a queue ends with the same nodes. The search for a node
tells whether it is the root or read by it, however indirectly, and so does the search with a
stack, which ends as well. -/
theorem searches_exact (hbuilt : net.Built) :
    (∀ n, n ∈ net.cycleNodes ↔ net.LeadsToCycle n) ∧ net.cycleNodes.Pairwise (· < ·) ∧
    (net.cycleNodes = [] ↔ net.Acyclic) ∧
    (∃ s, ReflTransGen net.SweepNext net.sweepStart s ∧ s.queue = [] ∧
      s.left net = net.cycleNodes) ∧
    ∀ root < net.size, ∀ target, ∃ found, net.inTransitiveFanin root target = .ok found ∧
      (found = true ↔ target = root ∨ TransGen net.Reads root target) ∧
      ReflTransGen (net.SearchNext target) (net.searchStart root) (.ended found) := by
  have hwf := hbuilt.wellFormed
  refine ⟨fun n => mem_cycleNodes_iff hwf, pairwise_cycleNodes net, cycleNodes_eq_nil_iff hwf,
    exists_sweep hwf, fun root hroot target => ?_⟩
  obtain ⟨found, hresult, hfound⟩ := inTransitiveFanin_eq hwf hroot target
  obtain ⟨found', hrun, hfound'⟩ := exists_search hwf hroot target
  obtain rfl : found = found' := Bool.eq_iff_iff.mpr (hfound.trans hfound'.symm)
  exact ⟨found, hresult, hfound.trans reflTransGen_iff_eq_or_transGen, hrun⟩

/-- Three gates in a row, each of which reads the one before and an input. -/
def conjunctionChain : Network :=
  (conjunctionOfThree.appendGate [⟨1, false⟩, ⟨5, false⟩] Basis.gateLiteral).2

theorem built_conjunctionChain : conjunctionChain.Built :=
  built_conjunctionOfThree.appendPair rfl (by cbv) (by decide)

/-- Replacing the first gate of the chain by the last one closes a cycle, to which the first gate
does not lead. -/
theorem searches_exact_conjunctionChain : ∃ net',
    conjunctionChain.substitute 4 ⟨6, false⟩ = .ok net' ∧ 5 ∈ net'.cycleNodes ∧
      4 ∉ net'.cycleNodes ∧ net'.inTransitiveFanin 5 1 = .ok true ∧
      net'.inTransitiveFanin 4 5 = .ok false := by
  obtain ⟨net', hrun, hspec, -⟩ := @exists_substitute _ 4 ⟨6, false⟩
    built_conjunctionChain.wellFormed (by decide) (by decide) (by decide)
  obtain ⟨hcycle, -, -, -, hreaches⟩ := searches_exact (built_conjunctionChain.substitute hrun)
  have hkept : ∀ n ∈ [1, 2, 4, 6], net'.faninNodes n = conjunctionChain.faninNodes n := by
    intro n hn
    rw [faninNodes, hspec.fanins_eq, reroute_of_not (by revert n; decide)]
    rfl
  have hfive : net'.fanins 5 = [⟨3, false⟩, ⟨6, false⟩] := by
    rw [hspec.fanins_eq, reroute, if_pos (by decide)]
    exact (if_pos rfl).trans ((Signal.sort_pair ⟨3, false⟩ ⟨6, false⟩).trans (if_pos (by decide)))
  have h56 : net'.Reads 5 6 := reads_iff.mpr ⟨⟨6, false⟩, by rw [hfive]; decide, rfl⟩
  have h65 : net'.Reads 6 5 := by rw [Reads, hkept 6 (by decide)]; decide
  have h61 : net'.Reads 6 1 := by rw [Reads, hkept 6 (by decide)]; decide
  -- The first gate reads two inputs, and they read nothing.
  have hinput : ∀ m, net'.Reads 4 m → ∀ k, ¬ net'.Reads m k := by
    intro m hm k
    rw [Reads, hkept 4 (by decide), show conjunctionChain.faninNodes 4 = [1, 2] from rfl] at hm
    obtain rfl | rfl : m = 1 ∨ m = 2 := by simpa using hm
    · rw [Reads, hkept 1 (by decide)]
      exact List.not_mem_nil
    · rw [Reads, hkept 2 (by decide)]
      exact List.not_mem_nil
  have hsize : net'.size = 7 := hspec.size
  refine ⟨net', hrun, ?_, ?_, ?_, ?_⟩
  · exact (hcycle 5).mpr ⟨5, .refl, .tail (.single h56) h65⟩
  · rw [hcycle, ← grounded_iff]
    exact .of_fanins fun m hm => .of_fanins fun k hk => absurd hk (hinput m hm k)
  · obtain ⟨found, hresult, hfound, -⟩ := hreaches 5 (by omega) 1
    rw [hresult, hfound.mpr (.inr (.tail (.single h56) h61))]
  · obtain ⟨found, hresult, hfound, -⟩ := hreaches 4 (by omega) 5
    rw [hresult]
    refine congrArg Except.ok (Bool.eq_false_iff.mpr fun htrue => ?_)
    obtain ⟨m, hm, hpath⟩ := TransGen.head'_iff.mp ((hfound.mp htrue).resolve_left (by decide))
    rcases hpath.cases_head with rfl | ⟨k, hk, -⟩
    · rw [Reads, hkept 4 (by decide)] at hm
      revert hm
      decide
    · exact hinput m hm k hk

end LogicSynthesis.Network
