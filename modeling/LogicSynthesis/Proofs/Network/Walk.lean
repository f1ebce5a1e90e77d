import LogicSynthesis.Network.Walk
import LogicSynthesis.Proofs.Network.WellFormed

/-!
# What walks visit

A walk sees exactly what its roots reach without passing the boundary, whether the network is
acyclic or not. In an acyclic network it lists every node after the nodes it reads.

## Main definitions

- `Network.Task.node` — the node of a task
- `Network.Explored`, `Network.Listed` — the invariants of a walk

## Main statements

- `walk_invariant` — the rule for walks
- `reaches_iff` — reaching is being in the transitive fanin
- `mem_of_coneOrder_eq` — the order in which a cone is listed
-/

namespace LogicSynthesis.Network

open Relation

variable {net : Network}

/-- The node that a task is about. -/
def Task.node : Task → NodeId
  | enter n => n
  | list n => n

/-- What every step of a walk keeps holds at its end. -/
theorem walk_invariant (inv : List Task → Walk → Prop)
    (hlist : ∀ n rest w, inv (.list n :: rest) w → inv rest (w.emit n))
    (henter : ∀ n rest w, w.isNew n = true → inv (.enter n :: rest) w →
      inv ((net.faninNodes n).map .enter ++ .list n :: rest) (w.see n))
    (hskip : ∀ n rest w, w.isNew n = false → inv (.enter n :: rest) w → inv rest w)
    (tasks : List Task) (w : Walk) (h : inv tasks w) : inv [] (net.walk tasks w) := by
  induction tasks, w using walk.induct net with
  | case1 w =>
    rw [walk]
    exact h
  | case2 w n rest ih =>
    rw [walk]
    exact ih (hlist n rest w h)
  | case3 w n rest hnew ih =>
    rw [walk, dif_pos hnew]
    exact ih (henter n rest w hnew h)
  | case4 w n rest hnew ih =>
    rw [walk, dif_neg hnew]
    exact ih (hskip n rest w (Bool.eq_false_iff.mpr hnew) h)

namespace Walk

/-- Whether `n` was seen. -/
def Sees (w : Walk) (n : NodeId) : Prop := w.seen[n]? = some true

theorem isNew_iff {w : Walk} {n : NodeId} : w.isNew n = true ↔ w.seen[n]? = some false := by
  rw [isNew, beq_iff_eq]

theorem lt_of_isNew {w : Walk} {n : NodeId} (h : w.isNew n = true) : n < w.seen.size :=
  (Array.getElem?_eq_some_iff.mp (isNew_iff.mp h)).1

/-- A node in range is seen or new. -/
theorem sees_of_not_isNew {w : Walk} {n : NodeId} (h : w.isNew n = false) (hn : n < w.seen.size) :
    w.Sees n := by
  have hget := Array.getElem?_eq_getElem hn
  rw [Sees, hget]
  cases hseen : w.seen[n] with
  | true => rfl
  | false =>
    rw [hseen] at hget
    rw [isNew_iff.mpr hget] at h
    cases h

theorem sees_see {w : Walk} {n m : NodeId} :
    (w.see n).Sees m ↔ (m = n ∧ n < w.seen.size) ∨ w.Sees m := by
  rw [Sees, Sees, see, Array.getElem?_setIfInBounds]
  by_cases h : n = m
  · subst h
    by_cases hlt : n < w.seen.size
    · simp [hlt]
    · simp [hlt]
  · simp [h, Ne.symm h]

@[simp]
theorem size_see (w : Walk) (n : NodeId) : (w.see n).seen.size = w.seen.size :=
  Array.size_setIfInBounds

theorem size_seeAll (w : Walk) (ns : List NodeId) : (w.seeAll ns).seen.size = w.seen.size := by
  induction ns generalizing w with
  | nil => rfl
  | cons n ns ih => exact (ih (w.see n)).trans (w.size_see n)

theorem order_seeAll (w : Walk) (ns : List NodeId) : (w.seeAll ns).order = w.order := by
  induction ns generalizing w with
  | nil => rfl
  | cons n ns ih => exact ih (w.see n)

theorem sees_seeAll {w : Walk} {ns : List NodeId} {m : NodeId} :
    (w.seeAll ns).Sees m ↔ (m ∈ ns ∧ m < w.seen.size) ∨ w.Sees m := by
  induction ns generalizing w with
  | nil => simp [seeAll]
  | cons n ns ih =>
    rw [seeAll, List.foldl_cons, ← seeAll, ih, sees_see, size_see, List.mem_cons]
    constructor
    · rintro (⟨hm, hlt⟩ | ⟨rfl, hlt⟩ | hs)
      · exact .inl ⟨.inr hm, hlt⟩
      · exact .inl ⟨.inl rfl, hlt⟩
      · exact .inr hs
    · rintro (⟨rfl | hm, hlt⟩ | hs)
      · exact .inr (.inl ⟨rfl, hlt⟩)
      · exact .inl ⟨hm, hlt⟩
      · exact .inr (.inr hs)

theorem not_sees_start (net : Network) (m : NodeId) : ¬ (start net).Sees m := by
  rw [Sees, start, Array.getElem?_replicate]
  split <;> simp

theorem size_start (net : Network) : (start net).seen.size = net.size := Array.size_replicate

/-- The walk that starts with a boundary sees just the boundary. -/
theorem sees_boundary {boundary : List NodeId} {m : NodeId} :
    ((start net).seeAll boundary).Sees m ↔ m ∈ boundary ∧ m < net.size := by
  rw [sees_seeAll, size_start]
  exact or_iff_left (not_sees_start net m)

end Walk

/-! ### What is seen -/

/-- A walk from `roots` within the nodes of property `p`, where `boundary` was seen first. -/
structure Explored (net : Network) (boundary : NodeId → Prop) (p : NodeId → Prop)
    (roots : List NodeId) (tasks : List Task) (w : Walk) : Prop where
  size : w.seen.size = net.size
  started : ∀ m, boundary m → m < net.size → w.Sees m
  closed : ∀ m k, w.Sees m → ¬ boundary m → net.Reads m k → k < net.size →
    w.Sees k ∨ Task.enter k ∈ tasks
  roots : ∀ r ∈ roots, r < net.size → w.Sees r ∨ Task.enter r ∈ tasks
  seen : ∀ m, w.Sees m → boundary m ∨ p m
  within : ∀ task ∈ tasks, p task.node
  order : ∀ m ∈ w.order, p m ∧ ¬ boundary m ∧ m < net.size
  waiting : ∀ m, Task.list m ∈ tasks → ¬ boundary m ∧ m < net.size

theorem Explored.emit {boundary p : NodeId → Prop} {roots : List NodeId} {n : NodeId}
    {rest : List Task} {w : Walk}
    (h : Explored net boundary p roots (.list n :: rest) w) :
    Explored net boundary p roots rest (w.emit n) := by
  have hmem : ∀ k, Task.enter k ∈ Task.list n :: rest → Task.enter k ∈ rest := by
    intro k hk
    simpa using hk
  refine ⟨h.size, h.started, ?_, ?_, h.seen, ?_, ?_, ?_⟩
  · exact fun m k hm hb hreads hk => (h.closed m k hm hb hreads hk).imp_right (hmem k)
  · exact fun r hr hlt => (h.roots r hr hlt).imp_right (hmem r)
  · exact fun task htask => h.within task (List.mem_cons_of_mem _ htask)
  · intro m hm
    rcases Array.mem_push.mp hm with hm | rfl
    · exact h.order m hm
    · exact ⟨h.within _ List.mem_cons_self, h.waiting m List.mem_cons_self⟩
  · exact fun m hm => h.waiting m (List.mem_cons_of_mem _ hm)

theorem Explored.enter {boundary p : NodeId → Prop} {roots : List NodeId} {n : NodeId}
    {rest : List Task} {w : Walk} (hp : ∀ m k, p m → ¬ boundary m → net.Reads m k → p k)
    (hnew : w.isNew n = true) (h : Explored net boundary p roots (.enter n :: rest) w) :
    Explored net boundary p roots ((net.faninNodes n).map .enter ++ .list n :: rest) (w.see n) := by
  have hlt := Walk.lt_of_isNew hnew
  -- The boundary was seen at the start, so a new node is no part of it.
  have hn : ¬ boundary n := by
    intro hb
    have hsees := h.started n hb (h.size ▸ hlt)
    rw [Walk.Sees, Walk.isNew_iff.mp hnew] at hsees
    cases hsees
  have hpn : p n := h.within (.enter n) List.mem_cons_self
  have hmem : ∀ k, w.Sees k ∨ Task.enter k ∈ Task.enter n :: rest → (w.see n).Sees k ∨
      Task.enter k ∈ (net.faninNodes n).map Task.enter ++ Task.list n :: rest := by
    rintro k (hk | hk)
    · exact .inl (Walk.sees_see.mpr (.inr hk))
    · rcases List.mem_cons.mp hk with heq | hk
      · obtain rfl := Task.enter.inj heq
        exact .inl (Walk.sees_see.mpr (.inl ⟨rfl, hlt⟩))
      · exact .inr (List.mem_append_right _ (List.mem_cons_of_mem _ hk))
  refine ⟨(w.size_see n).trans h.size, ?_, ?_, ?_, ?_, ?_, h.order, ?_⟩
  · exact fun m hb hm => Walk.sees_see.mpr (.inr (h.started m hb hm))
  · intro m k hm hb hreads hk
    rcases Walk.sees_see.mp hm with ⟨rfl, -⟩ | hm
    · exact .inr (List.mem_append_left _ (List.mem_map_of_mem hreads))
    · exact hmem k (h.closed m k hm hb hreads hk)
  · exact fun r hr hlt => hmem r (h.roots r hr hlt)
  · intro m hm
    rcases Walk.sees_see.mp hm with ⟨rfl, -⟩ | hm
    · exact .inr hpn
    · exact h.seen m hm
  · intro task htask
    rcases List.mem_append.mp htask with htask | htask
    · obtain ⟨k, hk, rfl⟩ := List.mem_map.mp htask
      exact hp n k hpn hn hk
    · rcases List.mem_cons.mp htask with rfl | htask
      · exact hpn
      · exact h.within task (List.mem_cons_of_mem _ htask)
  · intro m hm
    rcases List.mem_append.mp hm with hm | hm
    · obtain ⟨k, -, heq⟩ := List.mem_map.mp hm
      cases heq
    · rcases List.mem_cons.mp hm with heq | hm
      · obtain rfl := Task.list.inj heq
        exact ⟨hn, h.size ▸ hlt⟩
      · exact h.waiting m (List.mem_cons_of_mem _ hm)

theorem Explored.skip {boundary p : NodeId → Prop} {roots : List NodeId} {n : NodeId}
    {rest : List Task} {w : Walk} (hnew : w.isNew n = false)
    (h : Explored net boundary p roots (.enter n :: rest) w) :
    Explored net boundary p roots rest w := by
  have hmem : ∀ k, k < net.size → w.Sees k ∨ Task.enter k ∈ Task.enter n :: rest →
      w.Sees k ∨ Task.enter k ∈ rest := by
    rintro k hk (hs | hs)
    · exact .inl hs
    · rcases List.mem_cons.mp hs with heq | hs
      · obtain rfl := Task.enter.inj heq
        exact .inl (Walk.sees_of_not_isNew hnew (h.size.symm ▸ hk))
      · exact .inr hs
  refine ⟨h.size, h.started, ?_, ?_, h.seen, ?_, h.order, ?_⟩
  · exact fun m k hm hb hreads hk => hmem k hk (h.closed m k hm hb hreads hk)
  · exact fun r hr hlt => hmem r hlt (h.roots r hr hlt)
  · exact fun task htask => h.within task (List.mem_cons_of_mem _ htask)
  · exact fun m hm => h.waiting m (List.mem_cons_of_mem _ hm)

/-- What a walk from `roots` above a boundary explores, within any property that passes from the
nodes above the boundary to what they read. -/
theorem explored_walkFrom (boundary roots : List NodeId) (p : NodeId → Prop)
    (hroots : ∀ r ∈ roots, p r)
    (hp : ∀ m k, p m → m ∉ boundary → net.Reads m k → p k) :
    Explored net (· ∈ boundary) p roots []
      (net.walkFrom roots ((Walk.start net).seeAll boundary)) := by
  apply walk_invariant (Explored net (· ∈ boundary) p roots)
  · exact fun _ _ _ h => h.emit
  · exact fun _ _ _ hnew h => h.enter hp hnew
  · exact fun _ _ _ hnew h => h.skip hnew
  · refine ⟨?_, ?_, ?_, ?_, ?_, ?_, ?_, ?_⟩
    · rw [Walk.size_seeAll, Walk.size_start]
    · exact fun m hm hlt => Walk.sees_boundary.mpr ⟨hm, hlt⟩
    · exact fun m k hm hb => absurd (Walk.sees_boundary.mp hm).1 hb
    · exact fun r hr _ => .inr (List.mem_map_of_mem hr)
    · exact fun m hm => .inl (Walk.sees_boundary.mp hm).1
    · intro task htask
      obtain ⟨r, hr, rfl⟩ := List.mem_map.mp htask
      exact hroots r hr
    · intro m hm
      rw [Walk.order_seeAll] at hm
      exact absurd hm (Array.not_mem_empty m)
    · intro m hm
      obtain ⟨r, -, heq⟩ := List.mem_map.mp hm
      cases heq

/-- A walk from one root reaches just its transitive fanin. -/
theorem reaches_iff (h : net.WellFormed) {root target : NodeId} (hroot : root < net.size) :
    net.reaches root target = true ↔ ReflTransGen net.Reads root target := by
  have hdone : Explored net (· ∈ []) (ReflTransGen net.Reads root) [root] []
      (net.walkFrom [root] ((Walk.start net).seeAll [])) := by
    apply explored_walkFrom
    · intro r hr
      rw [List.mem_singleton.mp hr]
    · exact fun m k hm _ hreads => hm.tail hreads
  rw [reaches, beq_iff_eq]
  constructor
  · exact fun hseen => (hdone.seen target hseen).resolve_left List.not_mem_nil
  · intro hpath
    induction hpath with
    | refl => exact (hdone.roots root List.mem_cons_self hroot).resolve_right List.not_mem_nil
    | tail _ hreads ih =>
      exact (hdone.closed _ _ ih List.not_mem_nil hreads (h.reads_lt hreads)).resolve_right
        List.not_mem_nil

theorem inTransitiveFanin_eq (h : net.WellFormed) {root : NodeId} (hroot : root < net.size)
    (target : NodeId) :
    ∃ b, net.inTransitiveFanin root target = .ok b ∧
      (b = true ↔ ReflTransGen net.Reads root target) := by
  unfold inTransitiveFanin
  by_cases heq : root = target
  · refine ⟨true, ?_, ?_⟩
    · rw [if_pos heq]
      rfl
    · subst heq
      exact ⟨fun _ => .refl, fun _ => rfl⟩
  · refine ⟨net.reaches root target, ?_, reaches_iff h hroot⟩
    have hcheck : net.checkNodes [root] = .ok () := by
      apply checkNodes_of
      intro n hn
      rw [List.mem_singleton.mp hn]
      exact hroot
    rw [if_neg heq, hcheck]
    rfl

/-! ### The order of listing -/

/-- Every listed node comes after what it reads, and the tasks keep it so: a node that waits to be
listed reads what is listed or stands before it, and everything before it is in its fanin. -/
structure Listed (net : Network) (boundary : NodeId → Prop) (tasks : List Task) (w : Walk) :
    Prop where
  seen : ∀ m, w.Sees m → boundary m ∨ m ∈ w.order ∨ Task.list m ∈ tasks
  size : w.seen.size = net.size
  closed : ∀ before m after, w.order.toList = before ++ m :: after → ∀ k, net.Reads m k →
    boundary k ∨ k ∈ before
  pending : ∀ before m after, tasks = before ++ .list m :: after → ∀ k, net.Reads m k →
    boundary k ∨ k ∈ w.order ∨ ∃ task ∈ before, task.node = k
  above : ∀ before m after, tasks = before ++ .list m :: after → ∀ task ∈ before,
    TransGen net.Reads m task.node

theorem Listed.emit {boundary : NodeId → Prop} {n : NodeId} {rest : List Task} {w : Walk}
    (h : Listed net boundary (.list n :: rest) w) : Listed net boundary rest (w.emit n) := by
  have hmem : ∀ k, k ∈ (w.emit n).order ↔ k ∈ w.order ∨ k = n := by
    intro k
    exact Array.mem_push
  refine ⟨?_, h.size, ?_, ?_, ?_⟩
  · intro m hm
    rcases h.seen m hm with hb | ho | ht
    · exact .inl hb
    · exact .inr (.inl ((hmem m).mpr (.inl ho)))
    · rcases List.mem_cons.mp ht with heq | ht
      · obtain rfl := Task.list.inj heq
        exact .inr (.inl ((hmem m).mpr (.inr rfl)))
      · exact .inr (.inr ht)
  · intro before m after heq k hreads
    rw [Walk.emit, Array.toList_push] at heq
    -- Either `m` is the node just listed, or it was listed before.
    rcases List.eq_nil_or_concat after with rfl | ⟨after', last, rfl⟩
    · obtain ⟨rfl, hlast⟩ := List.append_inj' heq rfl
      obtain rfl : n = m := by simpa using hlast
      rcases h.pending [] n rest rfl k hreads with hb | ho | ⟨task, htask, -⟩
      · exact .inl hb
      · exact .inr (Array.mem_def.mp ho)
      · cases htask
    · rw [List.concat_eq_append, ← List.cons_append, ← List.append_assoc] at heq
      obtain ⟨hbefore, -⟩ := List.append_inj' heq rfl
      exact h.closed before m after' hbefore k hreads
  · intro before m after heq k hreads
    have htasks : Task.list n :: rest = (.list n :: before) ++ .list m :: after := by
      rw [heq]
      rfl
    rcases h.pending _ m after htasks k hreads with hb | ho | ⟨task, htask, rfl⟩
    · exact .inl hb
    · exact .inr (.inl ((hmem k).mpr (.inl ho)))
    · rcases List.mem_cons.mp htask with rfl | htask
      · exact .inr (.inl ((hmem _).mpr (.inr rfl)))
      · exact .inr (.inr ⟨task, htask, rfl⟩)
  · intro before m after heq task htask
    have htasks : Task.list n :: rest = (.list n :: before) ++ .list m :: after := by
      rw [heq]
      rfl
    exact h.above _ m after htasks task (List.mem_cons_of_mem _ htask)

/-- Where a waiting node stands once the fanins of `n` and `n` itself are put in front. -/
theorem split_tasks {ns : List NodeId} {n m : NodeId} {rest before after : List Task}
    (h : ns.map Task.enter ++ .list n :: rest = before ++ .list m :: after) :
    (before = ns.map Task.enter ∧ n = m ∧ rest = after) ∨
      ∃ middle, before = ns.map Task.enter ++ .list n :: middle ∧
        rest = middle ++ .list m :: after := by
  rcases List.append_eq_append_iff.mp h with ⟨middle, hbefore, hrest⟩ | ⟨middle, hns, hrest⟩
  · cases middle with
    | nil =>
      obtain ⟨hnode, hafter⟩ := List.cons.inj hrest
      exact .inl ⟨by rw [hbefore, List.append_nil], Task.list.inj hnode, hafter⟩
    | cons task middle =>
      obtain ⟨rfl, hafter⟩ := List.cons.inj hrest
      exact .inr ⟨middle, hbefore, hafter⟩
  · cases middle with
    | nil =>
      obtain ⟨hnode, hafter⟩ := List.cons.inj hrest
      exact .inl ⟨by rw [hns, List.append_nil], (Task.list.inj hnode).symm, hafter.symm⟩
    | cons task middle =>
      obtain ⟨rfl, -⟩ := List.cons.inj hrest
      have hmem : Task.list m ∈ ns.map Task.enter := by
        rw [hns]
        exact List.mem_append_right _ List.mem_cons_self
      obtain ⟨k, -, heq⟩ := List.mem_map.mp hmem
      cases heq

theorem Listed.enter {boundary : NodeId → Prop} {n : NodeId} {rest : List Task} {w : Walk}
    (h : Listed net boundary (.enter n :: rest) w) :
    Listed net boundary ((net.faninNodes n).map .enter ++ .list n :: rest) (w.see n) := by
  refine ⟨?_, (w.size_see n).trans h.size, h.closed, ?_, ?_⟩
  · intro m hm
    rcases Walk.sees_see.mp hm with ⟨rfl, -⟩ | hm
    · exact .inr (.inr (List.mem_append_right _ List.mem_cons_self))
    · rcases h.seen m hm with hb | ho | ht
      · exact .inl hb
      · exact .inr (.inl ho)
      · have ht' : Task.list m ∈ rest := by simpa using ht
        exact .inr (.inr (List.mem_append_right _ (List.mem_cons_of_mem _ ht')))
  · intro before m after heq k hreads
    rcases split_tasks heq with ⟨rfl, rfl, rfl⟩ | ⟨middle, rfl, rfl⟩
    · exact .inr (.inr ⟨.enter k, List.mem_map_of_mem hreads, rfl⟩)
    · rcases h.pending (.enter n :: middle) m after rfl k hreads with hb | ho | ⟨task, htask, rfl⟩
      · exact .inl hb
      · exact .inr (.inl ho)
      · rcases List.mem_cons.mp htask with rfl | htask
        · exact .inr (.inr ⟨.list n, List.mem_append_right _ List.mem_cons_self, rfl⟩)
        · exact .inr (.inr ⟨task, List.mem_append_right _ (List.mem_cons_of_mem _ htask), rfl⟩)
  · intro before m after heq task htask
    rcases split_tasks heq with ⟨rfl, rfl, rfl⟩ | ⟨middle, rfl, rfl⟩
    · obtain ⟨k, hk, rfl⟩ := List.mem_map.mp htask
      exact .single hk
    · have hn : TransGen net.Reads m n :=
        h.above (.enter n :: middle) m after rfl (.enter n) List.mem_cons_self
      rcases List.mem_append.mp htask with htask | htask
      · obtain ⟨k, hk, rfl⟩ := List.mem_map.mp htask
        exact hn.tail hk
      · rcases List.mem_cons.mp htask with rfl | htask
        · exact hn
        · exact h.above (.enter n :: middle) m after rfl task (List.mem_cons_of_mem _ htask)

/-- A node that was seen before is done: were it still waiting, it would read itself. -/
theorem Listed.skip {boundary : NodeId → Prop} {n : NodeId} {rest : List Task} {w : Walk}
    (hwf : net.WellFormed) (hac : net.Acyclic) (hnew : w.isNew n = false)
    (h : Listed net boundary (.enter n :: rest) w) : Listed net boundary rest w := by
  have hnot : Task.list n ∉ rest := by
    intro hmem
    obtain ⟨before, after, rfl⟩ := List.append_of_mem hmem
    exact hac n (h.above (.enter n :: before) n after rfl (.enter n) List.mem_cons_self)
  refine ⟨?_, h.size, h.closed, ?_, ?_⟩
  · intro m hm
    rcases h.seen m hm with hb | ho | ht
    · exact .inl hb
    · exact .inr (.inl ho)
    · exact .inr (.inr (by simpa using ht))
  · intro before m after heq k hreads
    have htasks : Task.enter n :: rest = (.enter n :: before) ++ .list m :: after := by
      rw [heq]
      rfl
    rcases h.pending _ m after htasks k hreads with hb | ho | ⟨task, htask, rfl⟩
    · exact .inl hb
    · exact .inr (.inl ho)
    · rcases List.mem_cons.mp htask with rfl | htask
      · have hlt : n < w.seen.size := h.size.symm ▸ hwf.reads_lt hreads
        rcases h.seen n (Walk.sees_of_not_isNew hnew hlt) with hb | ho | ht
        · exact .inl hb
        · exact .inr (.inl ho)
        · exact absurd (by simpa using ht) hnot
      · exact .inr (.inr ⟨task, htask, rfl⟩)
  · intro before m after heq task htask
    have htasks : Task.enter n :: rest = (.enter n :: before) ++ .list m :: after := by
      rw [heq]
      rfl
    exact h.above _ m after htasks task (List.mem_cons_of_mem _ htask)

theorem listed_walkFrom (hwf : net.WellFormed) (hac : net.Acyclic) (boundary roots : List NodeId) :
    Listed net (· ∈ boundary) [] (net.walkFrom roots ((Walk.start net).seeAll boundary)) := by
  apply walk_invariant (Listed net (· ∈ boundary))
  · exact fun _ _ _ h => h.emit
  · exact fun _ _ _ _ h => h.enter
  · exact fun _ _ _ hnew h => h.skip hwf hac hnew
  · have hnot : ∀ before (m : NodeId) after,
        roots.map Task.enter ≠ before ++ .list m :: after := by
      intro before m after heq
      have hmem : Task.list m ∈ roots.map Task.enter := by
        rw [heq]
        exact List.mem_append_right _ List.mem_cons_self
      obtain ⟨k, -, hk⟩ := List.mem_map.mp hmem
      cases hk
    refine ⟨?_, ?_, ?_, ?_, ?_⟩
    · exact fun m hm => .inl (Walk.sees_boundary.mp hm).1
    · rw [Walk.size_seeAll, Walk.size_start]
    · intro before m after heq
      rw [Walk.order_seeAll] at heq
      cases before <;> cases heq
    · exact fun before m after heq => absurd heq (hnot before m after)
    · exact fun before m after heq => absurd heq (hnot before m after)

/-- Every node of a cone exists and is none of the boundary. -/
theorem mem_coneOrder {boundary roots : List NodeId} {m : NodeId}
    (h : m ∈ net.coneOrder boundary roots) : m ∉ boundary ∧ m < net.size := by
  have hdone : Explored net (· ∈ boundary) (fun _ => True) roots [] _ :=
    explored_walkFrom boundary roots (fun _ => True) (fun _ _ => trivial)
      fun _ _ _ _ _ => trivial
  exact (hdone.order m (Array.mem_def.mpr h)).2

/-- What passes from nodes above the boundary to what they read holds throughout the cone. -/
theorem of_mem_coneOrder {boundary roots : List NodeId} {p : NodeId → Prop}
    (hroots : ∀ r ∈ roots, p r) (hp : ∀ m k, p m → m ∉ boundary → net.Reads m k → p k)
    {m : NodeId} (h : m ∈ net.coneOrder boundary roots) : p m :=
  ((explored_walkFrom boundary roots p hroots hp).order m (Array.mem_def.mpr h)).1

/-- A node of a cone is listed after everything that it reads above the boundary. -/
theorem mem_of_coneOrder_eq (hwf : net.WellFormed) (hac : net.Acyclic)
    {boundary roots before after : List NodeId} {m k : NodeId}
    (h : net.coneOrder boundary roots = before ++ m :: after) (hreads : net.Reads m k) :
    k ∈ boundary ∨ k ∈ before :=
  (listed_walkFrom hwf hac boundary roots).closed before m after h k hreads

/-- The roots of a cone belong to it unless they are on the boundary. -/
theorem root_mem_coneOrder (hwf : net.WellFormed) (hac : net.Acyclic)
    {boundary roots : List NodeId} {r : NodeId} (hr : r ∈ roots) (hlt : r < net.size) :
    r ∈ boundary ∨ r ∈ net.coneOrder boundary roots := by
  have hseen := ((explored_walkFrom boundary roots (fun _ => True) (fun _ _ => trivial)
    fun _ _ _ _ _ => trivial).roots r hr hlt).resolve_right List.not_mem_nil
  rcases (listed_walkFrom hwf hac boundary roots).seen r hseen with hb | ho | ht
  · exact .inl hb
  · exact .inr (Array.mem_def.mp ho)
  · cases ht

end LogicSynthesis.Network
