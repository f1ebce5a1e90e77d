import LogicSynthesis.Proofs.Network.TopologicalOrder

/-!
# Depth-first walks under other numbers

A walk lists nodes in an order. When the listed nodes are numbered by their places in it and the
fanins of each are put into ascending order of these numbers, a walk of the renumbered network lists
the same nodes in the same order: those fanins that are still new when a node is entered are listed
in the order in which they stand, if they stand in ascending order before as well. This holds where
nodes read earlier nodes, for then entering a fanin lists none that stand after it.

## Main definitions

- `Network.Below` — a walk from some nodes goes down
- `Network.FaninsMoved` — the fanins of a node under other numbers
- `Network.Alike` — two walks have been to the same nodes

## Main statements

- `walk_append` — walks in sequence
- `pairwise_idxOf_walk` — ascending nodes are listed in their order
- `walk_alike` — walks that are alike list the same nodes
-/

namespace LogicSynthesis.Network

variable {net net' : Network} {n m u : NodeId} {w w' : Walk} {tasks rest : List Task}

/-! ### Parts of walks -/

theorem walk_append (net : Network) (first second : List Task) (w : Walk) :
    net.walk (first ++ second) w = net.walk second (net.walk first w) := by
  induction first, w using walk.induct net with
  | case1 w => rw [List.nil_append, walk]
  | case2 w n rest ih => rw [List.cons_append, walk, walk, ih]
  | case3 w n rest hnew ih =>
    rw [List.cons_append, walk, walk, dif_pos hnew, dif_pos hnew, ← ih, List.append_assoc,
      List.cons_append]
  | case4 w n rest hnew ih => rw [List.cons_append, walk, walk, dif_neg hnew, dif_neg hnew, ih]

theorem walk_skip (hnew : w.isNew n = false) :
    net.walk (.enter n :: tasks) w = net.walk tasks w := by
  rw [walk, dif_neg (Bool.eq_false_iff.mp hnew)]

theorem walk_enter (hnew : w.isNew n = true) : net.walk (.enter n :: tasks) w =
    net.walk ((net.faninNodes n).map .enter ++ .list n :: tasks) (w.see n) := by
  rw [walk, dif_pos hnew]

theorem Walk.isNew_see : (w.see n).isNew m = (w.isNew m && m != n) := by
  rw [isNew, isNew, see, Array.getElem?_setIfInBounds]
  by_cases h : n = m
  · subst h
    by_cases hlt : n < w.seen.size <;> simp [hlt]
  · simp [h, Ne.symm h]

/-- What is listed stays listed. -/
theorem exists_order_walk (net : Network) (tasks : List Task) (w : Walk) :
    ∃ added, (net.walk tasks w).order.toList = w.order.toList ++ added := by
  apply walk_invariant fun _ w' => ∃ added, w'.order.toList = w.order.toList ++ added
  · rintro n rest w' ⟨added, h⟩
    exact ⟨added ++ [n], by rw [Walk.emit, Array.toList_push, h, List.append_assoc]⟩
  · exact fun _ _ _ _ h => h
  · exact fun _ _ _ _ h => h
  · exact ⟨[], (List.append_nil _).symm⟩

/-- A new node is listed when the walk is done with it. -/
theorem mem_order_walk_enter (hnew : w.isNew n = true) : n ∈ (net.walk [.enter n] w).order := by
  rw [walk_enter hnew, walk_append, walk, walk]
  exact Array.mem_push_self

/-! ### Walks down from a node -/

/-- The walk came from `w` and has been to nodes before `u` only. -/
structure Below (u : NodeId) (w : Walk) (tasks : List Task) (w' : Walk) : Prop where
  tasks : ∀ task ∈ tasks, task.node < u
  isNew : ∀ m, u ≤ m → w'.isNew m = w.isNew m
  order : ∀ m ∈ w'.order, m ∈ w.order ∨ m < u

/-- Where nodes read earlier nodes, walks go down. -/
theorem below_walk (hordered : ∀ n m, net.Reads n m → m < n)
    (htasks : ∀ task ∈ tasks, task.node < u) : Below u w [] (net.walk tasks w) := by
  apply walk_invariant (Below u w)
  · rintro n rest w' ⟨htasks, hisNew, horder⟩
    rw [List.forall_mem_cons] at htasks
    refine ⟨htasks.2, hisNew, fun m hm => ?_⟩
    rcases Array.mem_push.mp hm with hm | rfl
    · exact horder m hm
    · exact .inr htasks.1
  · rintro n rest w' - ⟨htasks, hisNew, horder⟩
    rw [List.forall_mem_cons] at htasks
    refine ⟨?_, fun m hm => ?_, horder⟩
    · refine List.forall_mem_append.mpr ⟨?_, List.forall_mem_cons.mpr htasks⟩
      exact List.forall_mem_map.mpr fun m hm => (hordered n m hm).trans htasks.1
    · have hne : m ≠ n := (lt_of_lt_of_le htasks.1 hm).ne'
      rw [Walk.isNew_see, hisNew m hm, bne_iff_ne.mpr hne, Bool.and_true]
  · rintro n rest w' - ⟨htasks, hisNew, horder⟩
    exact ⟨(List.forall_mem_cons.mp htasks).2, hisNew, horder⟩
  · exact ⟨htasks, fun _ _ => rfl, fun _ hm => .inl hm⟩

/-- Nodes that are entered in ascending order are listed, if they were new. -/
theorem mem_order_walk_ascending (hordered : ∀ n m, net.Reads n m → m < n) {us : List NodeId}
    (hus : us.Pairwise (· < ·)) (hu : u ∈ us) (hnew : w.isNew u = true) :
    u ∈ (net.walk (us.map .enter) w).order := by
  obtain ⟨before, after, rfl⟩ := List.append_of_mem hu
  have hbefore : ∀ task ∈ before.map Task.enter, task.node < u :=
    List.forall_mem_map.mpr fun m hm =>
      (List.pairwise_append.mp hus).2.2 m hm u List.mem_cons_self
  have hstill : (net.walk (before.map .enter) w).isNew u = true :=
    ((below_walk hordered hbefore).isNew u le_rfl).trans hnew
  obtain ⟨added, horder⟩ := exists_order_walk net (after.map .enter)
    (net.walk [.enter u] (net.walk (before.map .enter) w))
  rw [List.map_append, List.map_cons, ← List.singleton_append, walk_append, walk_append,
    Array.mem_def, horder]
  exact List.mem_append_left _ (Array.mem_def.mp (mem_order_walk_enter hstill))

/-- Nodes that are entered in ascending order are listed in that order, those that were new. -/
theorem pairwise_idxOf_walk (hordered : ∀ n m, net.Reads n m → m < n) {us : List NodeId}
    (hus : us.Pairwise (· < ·)) (hlisted : ∀ m ∈ w.order, w.isNew m = false) (rest : List Task)
    {order : List NodeId} (horder : (net.walk (us.map .enter ++ rest) w).order.toList = order) :
    (us.filter w.isNew).Pairwise (order.idxOf · < order.idxOf ·) := by
  induction us using List.reverseRecOn generalizing rest with
  | nil => exact List.Pairwise.nil
  | append_singleton us u ih =>
    obtain ⟨hfirst, -, hlt⟩ := List.pairwise_append.mp hus
    rw [List.map_append, List.append_assoc] at horder
    rw [List.filter_append, List.pairwise_append]
    refine ⟨ih hfirst _ horder, (List.pairwise_singleton _ u).sublist List.filter_sublist, ?_⟩
    intro v hv u' hu'
    obtain ⟨hv, hvnew⟩ := List.mem_filter.mp hv
    obtain ⟨hu', hunew⟩ := List.mem_filter.mp hu'
    obtain rfl := List.mem_singleton.mp hu'
    -- When the walk is done with `us`, it has listed `v` and not been to `u`.
    have hv' : v ∈ (net.walk (us.map .enter) w).order.toList :=
      Array.mem_def.mp (mem_order_walk_ascending hordered hfirst hv hvnew)
    have hu'' : u' ∉ (net.walk (us.map .enter) w).order.toList := by
      intro hmem
      have htasks : ∀ task ∈ us.map Task.enter, task.node < u' :=
        List.forall_mem_map.mpr fun m hm => hlt m hm u' (List.mem_singleton_self u')
      rcases (below_walk hordered htasks).order u' (Array.mem_def.mpr hmem) with hold | hlt
      · rw [hlisted u' hold] at hunew
        cases hunew
      · exact absurd hlt (lt_irrefl u')
    obtain ⟨added, hadded⟩ := exists_order_walk net ([.enter u'] ++ rest)
      (net.walk (us.map .enter) w)
    rw [walk_append] at horder
    rw [← horder]
    simp only [List.map_cons, List.map_nil]
    rw [hadded, List.idxOf_append_of_mem hv', List.idxOf_append_of_notMem hu'']
    have hidx := List.idxOf_lt_length_iff.mpr hv'
    omega

/-! ### Walks under other numbers -/

/-- The task about another node. -/
def Task.renumber (place : NodeId → NodeId) : Task → Task
  | enter n => .enter (place n)
  | list n => .list (place n)

namespace Walk

/-- Whether a task changes the walk. -/
def heeds (w : Walk) : Task → Bool
  | .enter n => w.isNew n
  | .list _ => true

/-- The tasks that change the walk. -/
def pending (w : Walk) (tasks : List Task) : List Task := tasks.filter w.heeds

theorem pending_append (w : Walk) (first second : List Task) :
    w.pending (first ++ second) = w.pending first ++ w.pending second := List.filter_append ..

theorem pending_enter (w : Walk) (ns : List NodeId) :
    w.pending (ns.map .enter) = (ns.filter w.isNew).map .enter := List.filter_map

/-- Seeing more leaves fewer tasks to take. -/
theorem pending_pending_see (w : Walk) (n : NodeId) (tasks : List Task) :
    (w.see n).pending (w.pending tasks) = (w.see n).pending tasks := by
  rw [pending, pending, pending, List.filter_filter]
  apply List.filter_congr
  intro task _
  cases task with
  | list m => rfl
  | enter m =>
    simp only [heeds, isNew_see]
    cases w.isNew m <;> simp

end Walk

/-- A walk comes to the first task that changes it. -/
theorem walk_of_pending (net : Network) (w : Walk) (tasks : List Task) :
    w.pending tasks = [] ∧ net.walk tasks w = w ∨
      ∃ task rest, w.heeds task = true ∧ w.pending tasks = task :: w.pending rest ∧
        net.walk tasks w = net.walk (task :: rest) w := by
  induction tasks with
  | nil => exact .inl ⟨rfl, by rw [walk]⟩
  | cons task tasks ih =>
    cases hheeds : w.heeds task with
    | true => exact .inr ⟨task, tasks, hheeds, List.filter_cons_of_pos hheeds, rfl⟩
    | false =>
      have hpending : w.pending (task :: tasks) = w.pending tasks :=
        List.filter_cons_of_neg (Bool.eq_false_iff.mp hheeds)
      cases task with
      | list n => cases hheeds
      | enter n =>
        rw [hpending, walk_skip hheeds]
        exact ih

/-- The fanins of `n` stand under their new numbers, in the same order, or else both in ascending
order. -/
def FaninsMoved (net net' : Network) (place : NodeId → NodeId) (n : NodeId) : Prop :=
  net'.faninNodes (place n) = (net.faninNodes n).map place ∨
    (net'.faninNodes (place n)).Perm ((net.faninNodes n).map place) ∧
      (net'.faninNodes (place n)).Pairwise (· ≤ ·) ∧ (net.faninNodes n).Pairwise (· < ·)

/-- Two walks have been to the same nodes of `order`, each under its numbers. -/
structure Alike (order : List NodeId) (w w' : Walk) : Prop where
  isNew : ∀ n ∈ order, w'.isNew (order.idxOf n) = w.isNew n
  listed : w'.order.toList = w.order.toList.map order.idxOf

variable {order : List NodeId}

theorem Alike.emit (h : Alike order w w') : Alike order (w.emit n) (w'.emit (order.idxOf n)) := by
  refine ⟨h.isNew, ?_⟩
  rw [Walk.emit, Walk.emit, Array.toList_push, Array.toList_push, h.listed, List.map_append]
  rfl

theorem Alike.see (h : Alike order w w') (n : NodeId) :
    Alike order (w.see n) (w'.see (order.idxOf n)) := by
  refine ⟨fun m hm => ?_, h.listed⟩
  rw [Walk.isNew_see, Walk.isNew_see, h.isNew m hm]
  congr 1
  rw [Bool.eq_iff_iff, bne_iff_ne, bne_iff_ne, Ne, Ne, List.idxOf_inj hm]

theorem Alike.pending (h : Alike order w w') (htasks : ∀ task ∈ tasks, task.node ∈ order) :
    w'.pending (tasks.map (.renumber order.idxOf)) =
      (w.pending tasks).map (.renumber order.idxOf) := by
  rw [Walk.pending, List.filter_map]
  refine congrArg _ (List.filter_congr fun task htask => ?_)
  have hnode := htasks task htask
  cases task with
  | list m => rfl
  | enter m => exact h.isNew m hnode

/-- The fanins that are new to one walk are new to the other, in the same order. -/
theorem Alike.filter_faninNodes (h : Alike order w w')
    (hmoved : FaninsMoved net net' order.idxOf n) (hfanins : ∀ m ∈ net.faninNodes n, m ∈ order)
    (hascending : (net.faninNodes n).Pairwise (· < ·) →
      ((net.faninNodes n).filter w.isNew).Pairwise (order.idxOf · < order.idxOf ·)) :
    (net'.faninNodes (order.idxOf n)).filter w'.isNew =
      ((net.faninNodes n).filter w.isNew).map order.idxOf := by
  have hfilter : ((net.faninNodes n).map order.idxOf).filter w'.isNew =
      ((net.faninNodes n).filter w.isNew).map order.idxOf := by
    rw [List.filter_map]
    exact congrArg _ (List.filter_congr fun m hm => h.isNew m (hfanins m hm))
  rcases hmoved with heq | ⟨hperm, hsorted, hlt⟩
  · rw [heq, hfilter]
  · refine ((hperm.filter _).trans (.of_eq hfilter)).eq_of_pairwise
      (fun _ _ _ _ => Nat.le_antisymm) (hsorted.sublist List.filter_sublist) ?_
    exact List.pairwise_map.mpr ((hascending hlt).imp fun hlt => hlt.le)

/-- What is listed is not new. -/
theorem ListedOnce.isNew_eq_false (h : ListedOnce tasks w) (hm : m ∈ w.order) :
    w.isNew m = false := by
  have hseen := h.seen m (List.mem_append_left _ (Array.mem_def.mp hm))
  rw [Walk.Sees] at hseen
  rw [Walk.isNew, hseen]
  rfl

/-- Walks that are alike list the same nodes in the same order, each under its numbers: the new
fanins of a node are entered in the order in which they are numbered. -/
theorem walk_alike (hordered : ∀ n m, net.Reads n m → m < n)
    (hclosed : ∀ n ∈ order, ∀ m, net.Reads n m → m ∈ order)
    (hmoved : ∀ n ∈ order, FaninsMoved net net' order.idxOf n) {tasks tasks' : List Task}
    (horder : (net.walk tasks w).order.toList = order) (honce : ListedOnce tasks w)
    (htasks : ∀ task ∈ tasks, task.node ∈ order)
    (hpending : w'.pending tasks' = (w.pending tasks).map (.renumber order.idxOf))
    (halike : Alike order w w') :
    (net'.walk tasks' w').order.toList = order.map order.idxOf := by
  induction tasks, w using walk.induct net generalizing tasks' w' with
  | case1 w =>
    rw [walk] at horder
    rcases walk_of_pending net' w' tasks' with ⟨-, hwalk⟩ | ⟨task, rest, -, hcons, -⟩
    · rw [hwalk, halike.listed, horder]
    · cases hcons.symm.trans hpending
  | case2 w n rest ih =>
    rw [walk] at horder
    rcases walk_of_pending net' w' tasks' with ⟨hnil, -⟩ | ⟨task, rest', -, hcons, hwalk⟩
    · cases hnil.symm.trans hpending
    · obtain ⟨rfl, hrest⟩ := List.cons_eq_cons.mp (hcons.symm.trans hpending)
      rw [hwalk, Task.renumber, walk]
      exact ih horder honce.emit (List.forall_mem_cons.mp htasks).2 hrest halike.emit
  | case3 w n rest hnew ih =>
    rw [walk_enter hnew] at horder
    have hn : n ∈ order := htasks _ List.mem_cons_self
    have hrest := (List.forall_mem_cons.mp htasks).2
    have hheeds : w.pending (.enter n :: rest) = .enter n :: w.pending rest :=
      List.filter_cons_of_pos hnew
    rw [hheeds] at hpending
    rcases walk_of_pending net' w' tasks' with ⟨hnil, -⟩ | ⟨task, rest', hheeds', hcons, hwalk⟩
    · cases hnil.symm.trans hpending
    · obtain ⟨rfl, hpending'⟩ := List.cons_eq_cons.mp (hcons.symm.trans hpending)
      have hentered := @ListedOnce.enter net n rest w hnew honce
      have hsee := halike.see n
      rw [hwalk, Task.renumber, walk_enter hheeds']
      refine ih horder hentered ?_ ?_ hsee
      · refine List.forall_mem_append.mpr ⟨?_, List.forall_mem_cons.mpr ⟨hn, hrest⟩⟩
        exact List.forall_mem_map.mpr fun m hm => hclosed n hn m hm
      · have hfanins := hsee.filter_faninNodes (hmoved n hn) (hclosed n hn) fun hlt =>
          pairwise_idxOf_walk hordered hlt (fun m hm => hentered.isNew_eq_false hm) _ horder
        have hrest' : ∀ task ∈ w.pending rest, task.node ∈ order := fun task htask =>
          hrest task (List.mem_of_mem_filter htask)
        have htail := hsee.pending hrest'
        rw [← hpending', Walk.pending_pending_see, Walk.pending_pending_see] at htail
        rw [Walk.pending_append, Walk.pending_append, Walk.pending_enter, Walk.pending_enter,
          hfanins, List.map_append, List.map_map, List.map_map]
        congr 1
        exact congrArg (List.cons _) htail
  | case4 w n rest hnew ih =>
    rw [walk_skip (Bool.eq_false_iff.mpr hnew)] at horder
    have hheeds : w.pending (.enter n :: rest) = w.pending rest := List.filter_cons_of_neg hnew
    rw [hheeds] at hpending
    exact ih horder ⟨honce.nodup, honce.seen⟩ (List.forall_mem_cons.mp htasks).2 hpending halike

end LogicSynthesis.Network
