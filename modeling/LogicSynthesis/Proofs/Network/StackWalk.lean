import LogicSynthesis.Proofs.Network.Assembly
import LogicSynthesis.Proofs.Network.DepthFirst
import LogicSynthesis.Proofs.Network.Separation

/-!
# Walks by an explicit stack

A depth-first walk can keep a stack of the nodes that it is in the middle of, each with the place of
the fanin that is next, and mark a node when it is done with it rather than when it comes to it. A
node may then stand on the stack several times. In an acyclic network this changes nothing: while
the fanins of a node are walked the node is not met, so it does not matter when it is marked. Every
such walk ends, and it ends as the walk of tasks does.

The orders that walks list are then characterized by fanin paths.

## Main definitions

- `Network.stackStep` — one step of the walk on a stack
- `Network.Sweeps` — the walk from some roots in turn has ended
- `Network.Lists` — a list of some nodes, each once and after what it reads

## Main statements

- `walk_see` — nodes that a walk does not meet may be marked before or after it
- `sweeps_iff` — the walk on a stack ends with what the walk of tasks gives
- `mem_coneOrder_iff` — a cone holds what paths around the boundary lead to
- `walks_list_what_they_reach` — the three orders of a network
-/

namespace LogicSynthesis.Network

open Relation

variable {net : Network} {n m u : NodeId} {w : Walk} {tasks : List Task} {path : List NodeId}

/-! ### The stack -/

/-- The nodes that a walk is in the middle of, the latest first, each with the place of its next
fanin. -/
abbrev Stack := List (NodeId × Nat)

/-- Puts a node on the stack, unless it was seen. -/
def Walk.opened (w : Walk) (n : NodeId) (below : Stack) : Stack :=
  if w.isNew n then (n, 0) :: below else below

/-- One step: to the next fanin of the node on top, or out of a node that has no more of them or
was seen in the meantime. There is none from an empty stack. -/
def stackStep (net : Network) : Stack × Walk → Option (Stack × Walk)
  | ([], _) => none
  | ((n, next) :: below, w) =>
    if w.isNew n then
      match (net.faninNodes n)[next]? with
      | some m => some (w.opened m ((n, next + 1) :: below), w)
      | none => some (below, (w.see n).emit n)
    else some (below, w)

/-- One state of the walk follows another. -/
def StackNext (net : Network) (a b : Stack × Walk) : Prop := net.stackStep a = some b

/-- From each root in turn the steps lead to an empty stack. -/
inductive Sweeps (net : Network) : List NodeId → Walk → Walk → Prop
  | nil (w : Walk) : Sweeps net [] w w
  | cons {root : NodeId} {roots : List NodeId} {w mid done : Walk}
      (hrun : ReflTransGen net.StackNext (w.opened root [], w) ([], mid))
      (hrest : Sweeps net roots mid done) : Sweeps net (root :: roots) w done

theorem walk_cons (net : Network) (task : Task) (rest : List Task) (w : Walk) :
    net.walk (task :: rest) w = net.walk rest (net.walk [task] w) :=
  walk_append net [task] rest w

/-! ### Nodes that are not met -/

/-- No task leads to `u`. -/
def Avoids (net : Network) (u : NodeId) (tasks : List Task) : Prop :=
  ∀ task ∈ tasks, ¬ ReflTransGen net.Reads task.node u

theorem Avoids.enter {rest : List Task} (h : net.Avoids u (.enter n :: rest)) :
    net.Avoids u ((net.faninNodes n).map .enter ++ .list n :: rest) := by
  obtain ⟨hn, hrest⟩ := List.forall_mem_cons.mp h
  refine List.forall_mem_append.mpr ⟨?_, List.forall_mem_cons.mpr ⟨hn, hrest⟩⟩
  exact List.forall_mem_map.mpr fun m hm hpath => hn (.head hm hpath)

/-- In an acyclic network the fanins of a node do not lead back to it. -/
theorem Acyclic.avoids_fanins (hac : net.Acyclic) {ms : List NodeId}
    (hms : ms.Sublist (net.faninNodes n)) : net.Avoids n (ms.map .enter) :=
  List.forall_mem_map.mpr fun _ hm hpath => hac n (.head' (hms.subset hm) hpath)

theorem isNew_walk (havoids : net.Avoids u tasks) : (net.walk tasks w).isNew u = w.isNew u := by
  have hdone : net.Avoids u [] ∧ (net.walk tasks w).isNew u = w.isNew u := by
    apply walk_invariant fun tasks' w' => net.Avoids u tasks' ∧ w'.isNew u = w.isNew u
    · exact fun n rest w' h => ⟨(List.forall_mem_cons.mp h.1).2, h.2⟩
    · intro n rest w' _ h
      have hne : u ≠ n := by
        rintro rfl
        exact h.1 (.enter u) List.mem_cons_self .refl
      refine ⟨h.1.enter, ?_⟩
      rw [Walk.isNew_see, bne_iff_ne.mpr hne, Bool.and_true, h.2]
    · exact fun n rest w' _ h => ⟨(List.forall_mem_cons.mp h.1).2, h.2⟩
    · exact ⟨havoids, rfl⟩
  exact hdone.2

theorem Walk.see_comm (w : Walk) (hne : n ≠ m) : (w.see n).see m = (w.see m).see n := by
  simp only [see, Array.setIfInBounds_comm true true hne]

/-- A node that a walk does not meet may be marked before the walk or after it. -/
theorem walk_see (havoids : net.Avoids u tasks) :
    net.walk tasks (w.see u) = (net.walk tasks w).see u := by
  induction tasks, w using walk.induct net with
  | case1 w => rw [walk, walk]
  | case2 w n rest ih =>
    rw [walk, walk, ← ih (List.forall_mem_cons.mp havoids).2]
    rfl
  | case3 w n rest hnew ih =>
    have hne : n ≠ u := by
      rintro rfl
      exact havoids (.enter n) List.mem_cons_self .refl
    have hnew' : (w.see u).isNew n = true := by
      rw [Walk.isNew_see, hnew, bne_iff_ne.mpr hne, Bool.and_true]
    rw [walk_enter hnew', walk_enter hnew, ← ih havoids.enter, Walk.see_comm w hne.symm]
  | case4 w n rest hnew ih =>
    have hskip := Bool.eq_false_iff.mpr hnew
    have hskip' : (w.see u).isNew n = false := by
      rw [Walk.isNew_see, hskip, Bool.false_and]
    rw [walk_skip hskip', walk_skip hskip, ih (List.forall_mem_cons.mp havoids).2]

/-! ### The walk on a stack ends as the walk of tasks does -/

theorem stackNext_fanin {next : Nat} {below : Stack} (hnew : w.isNew n = true)
    (hm : (net.faninNodes n)[next]? = some m) :
    net.StackNext ((n, next) :: below, w) (w.opened m ((n, next + 1) :: below), w) := by
  rw [StackNext, stackStep, if_pos hnew, hm]

theorem stackNext_done {next : Nat} {below : Stack} (hnew : w.isNew n = true)
    (hend : (net.faninNodes n)[next]? = none) :
    net.StackNext ((n, next) :: below, w) (below, (w.see n).emit n) := by
  rw [StackNext, stackStep, if_pos hnew, hend]

/-- The fanins of `n` from some place on are walked in turn, and `n` is still new after each. -/
theorem stack_fanins (hac : net.Acyclic)
    (hfanins : ∀ m, net.Reads n m → ∀ below w,
      ReflTransGen net.StackNext (w.opened m below, w) (below, net.walk [.enter m] w))
    (ms : List NodeId) (next : Nat) (hms : (net.faninNodes n).drop next = ms) (below : Stack)
    (w : Walk) (hnew : w.isNew n = true) :
    ReflTransGen net.StackNext ((n, next) :: below, w)
      ((n, next + ms.length) :: below, net.walk (ms.map .enter) w) := by
  induction ms generalizing next w with
  | nil =>
    rw [List.map_nil, walk]
    exact .refl
  | cons m ms ih =>
    have hm : (net.faninNodes n)[next]? = some m := by
      rw [← List.head?_drop, hms, List.head?_cons]
    have hrest : (net.faninNodes n).drop (next + 1) = ms := by
      rw [← List.tail_drop, hms, List.tail_cons]
    have hreads : net.Reads n m := List.mem_of_getElem? hm
    have havoids : net.Avoids n ([m].map .enter) :=
      hac.avoids_fanins (List.singleton_sublist.mpr hreads)
    have hnew' : (net.walk [.enter m] w).isNew n = true := (isNew_walk havoids).trans hnew
    rw [List.map_cons, walk_cons, List.length_cons, Nat.add_comm ms.length, ← Nat.add_assoc]
    exact .head (stackNext_fanin hnew hm)
      ((hfanins m hreads _ w).trans (ih (next + 1) hrest _ hnew'))

/-- A node and all below it are walked while the rest of the stack waits. -/
theorem stack_walk (hac : net.Acyclic) (n : NodeId) (below : Stack) (w : Walk) :
    ReflTransGen net.StackNext (w.opened n below, w) (below, net.walk [.enter n] w) := by
  induction n using hac.induction generalizing below w with
  | step n ih =>
    cases hnew : w.isNew n with
    | false =>
      rw [Walk.opened, hnew, walk_skip hnew, walk]
      exact .refl
    | true =>
      have hall := stack_fanins hac ih (net.faninNodes n) 0 List.drop_zero below w hnew
      have havoids := hac.avoids_fanins (List.Sublist.refl (net.faninNodes n))
      have hnew' := (isNew_walk (w := w) havoids).trans hnew
      have hend : (net.faninNodes n)[0 + (net.faninNodes n).length]? = none := by
        rw [Nat.zero_add, List.getElem?_length]
      have hwalk : net.walk [.enter n] w =
          ((net.walk ((net.faninNodes n).map .enter) w).see n).emit n := by
        rw [walk_enter hnew, walk_append, walk_see havoids, walk, walk]
      rw [Walk.opened, if_pos hnew, hwalk]
      exact hall.tail (stackNext_done hnew' hend)

/-- Where the steps lead to an empty stack, they lead nowhere else. -/
theorem stack_empty_unique {a : Stack × Walk} {w w' : Walk}
    (h : ReflTransGen net.StackNext a ([], w)) (h' : ReflTransGen net.StackNext a ([], w')) :
    w = w' := by
  have hdet : Relator.RightUnique net.StackNext := fun _ _ _ hb hc =>
    Option.some.inj (hb.symm.trans hc)
  have hend : ∀ {v v' : Walk}, ReflTransGen net.StackNext ([], v) ([], v') → v = v' := by
    intro v v' hpath
    rcases hpath.cases_head with heq | ⟨_, hstep, -⟩
    · exact (Prod.mk.inj heq).2
    · cases hstep
  rcases ReflTransGen.total_of_right_unique hdet h h' with hpath | hpath
  · exact hend hpath
  · exact (hend hpath).symm

/-- The walk on a stack ends, and what it gives is what the walk of tasks gives. -/
theorem sweeps_iff (hac : net.Acyclic) {roots : List NodeId} {w done : Walk} :
    net.Sweeps roots w done ↔ done = net.walkFrom roots w := by
  induction roots generalizing w with
  | nil =>
    rw [walkFrom, List.map_nil, walk]
    constructor
    · rintro ⟨⟩
      rfl
    · rintro rfl
      exact .nil _
  | cons root roots ih =>
    have hroot := stack_walk hac root [] w
    rw [walkFrom, List.map_cons, walk_cons, ← walkFrom, ← ih]
    constructor
    · rintro (_ | ⟨hrun, hrest⟩)
      rwa [stack_empty_unique hroot hrun]
    · exact .cons hroot

/-! ### What is listed -/

theorem FaninPath.snoc (h : net.FaninPath n m path) (hreads : net.Reads m u) :
    net.FaninPath n u (path ++ [u]) := by
  refine ⟨?_, ?_, List.getLast?_concat⟩
  · refine List.isChain_append.mpr ⟨h.chain, List.isChain_singleton u, fun k hk l hl => ?_⟩
    obtain rfl := Option.some.inj (h.last.symm.trans hk)
    obtain rfl := Option.some.inj hl
    exact hreads
  · rw [List.head?_append, h.first, Option.some_or]

/-- A path to a gate leads through gates. -/
theorem FaninPath.isGate (h : net.FaninPath n m path) (hwf : net.WellFormed)
    (hm : net.isGate m = true) : ∀ k ∈ path, net.isGate k = true := by
  induction path generalizing n with
  | nil => exact List.forall_mem_nil _
  | cons k path ih =>
    rcases h.cases_first with ⟨heq, rfl⟩ | ⟨l, rest, heq, hreads, hrest⟩
    · rw [heq]
      exact List.forall_mem_singleton.mpr hm
    · obtain ⟨rfl, rfl⟩ := List.cons.inj heq
      exact List.forall_mem_cons.mpr ⟨hwf.isGate_of_reads hreads, ih hrest⟩

/-- Some fanin path leads from a root to `n` and meets no node of the boundary. -/
def ReachedAround (net : Network) (boundary roots : List NodeId) (n : NodeId) : Prop :=
  ∃ root ∈ roots, ∃ path, net.FaninPath root n path ∧ ∀ m ∈ path, m ∉ boundary

/-- A cone holds just the nodes to which paths around the boundary lead. -/
theorem mem_coneOrder_iff (hwf : net.WellFormed) (hac : net.Acyclic) {boundary roots : List NodeId}
    (hroots : ∀ r ∈ roots, r < net.size) :
    n ∈ net.coneOrder boundary roots ↔ net.ReachedAround boundary roots n := by
  constructor
  · intro hn
    -- A node that the walk comes to stands on the boundary or is reached around it.
    have hreached : n ∈ boundary ∨ net.ReachedAround boundary roots n := by
      refine of_mem_coneOrder (p := fun k => k ∈ boundary ∨ net.ReachedAround boundary roots k)
        ?_ ?_ hn
      · intro r hr
        by_cases hb : r ∈ boundary
        · exact .inl hb
        · exact .inr ⟨r, hr, [r], faninPath_self net r, List.forall_mem_singleton.mpr hb⟩
      · intro m k hm hb hreads
        by_cases hk : k ∈ boundary
        · exact .inl hk
        obtain ⟨r, hr, path, hpath, haround⟩ := hm.resolve_left hb
        exact .inr ⟨r, hr, path ++ [k], hpath.snoc hreads,
          List.forall_mem_append.mpr ⟨haround, List.forall_mem_singleton.mpr hk⟩⟩
    exact hreached.resolve_left (mem_coneOrder hn).1
  · rintro ⟨r, hr, path, hpath, haround⟩
    have hfirst : r ∈ net.coneOrder boundary roots :=
      (root_mem_coneOrder hwf hac hr (hroots r hr)).resolve_left
        (haround r (List.mem_of_head? hpath.first))
    clear hr
    induction path generalizing r with
    | nil => cases hpath.first
    | cons k path ih =>
      rcases hpath.cases_first with ⟨-, rfl⟩ | ⟨m, rest, heq, hreads, hrest⟩
      · exact hfirst
      · obtain ⟨rfl, rfl⟩ := List.cons.inj heq
        have haround' := (List.forall_mem_cons.mp haround).2
        obtain ⟨before, after, hsplit⟩ := List.append_of_mem hfirst
        have hm := (mem_of_coneOrder_eq hwf hac hsplit hreads).resolve_left
          (haround' m (List.mem_of_head? hrest.first))
        exact ih m hrest haround' (hsplit ▸ List.mem_append_left _ hm)

/-- A list of the nodes of a property, each of them once and after everything that it reads outside
the boundary. -/
structure Lists (net : Network) (boundary p : NodeId → Prop) (order : List NodeId) : Prop where
  nodup : order.Nodup
  mem_iff : ∀ n, n ∈ order ↔ p n
  fanins_first : ∀ before n after, order = before ++ n :: after →
    ∀ m, net.Reads n m → boundary m ∨ m ∈ before

theorem lists_coneOrder (hwf : net.WellFormed) (hac : net.Acyclic) (boundary roots : List NodeId)
    (hroots : ∀ r ∈ roots, r < net.size) :
    net.Lists (· ∈ boundary) (net.ReachedAround boundary roots) (net.coneOrder boundary roots) :=
  ⟨nodup_coneOrder net boundary roots, fun _ => mem_coneOrder_iff hwf hac hroots,
    fun _ _ _ heq _ hreads => mem_of_coneOrder_eq hwf hac heq hreads⟩

theorem mem_cutGates_iff (hwf : net.WellFormed) (hac : net.Acyclic) (leaves : List NodeId)
    {root : NodeId} (hroot : root < net.size) :
    n ∈ net.cutGates leaves root ↔
      net.isGate n = true ∧ net.ReachedAround leaves [root] n := by
  have hterminal : ∀ m, m ∈ net.nodeIds.filter net.isTerminal ↔ net.isTerminal m = true :=
    fun m => mem_nodesOf
  have hroots : ∀ r ∈ [root], r < net.size := List.forall_mem_singleton.mpr hroot
  rw [cutGates, mem_coneOrder_iff hwf hac hroots]
  constructor
  · rintro ⟨r, hr, path, hpath, haround⟩
    have hn := haround n (List.mem_of_getLast? hpath.last)
    have hlt : n < net.size := by
      have hmem := (mem_coneOrder_iff hwf hac hroots).mpr ⟨r, hr, path, hpath, haround⟩
      exact (mem_coneOrder hmem).2
    rw [List.mem_append, not_or, hterminal] at hn
    refine ⟨isGate_of_not_isTerminal hlt hn.2, r, hr, path, hpath, fun m hm hleaf => ?_⟩
    exact haround m hm (List.mem_append_left _ hleaf)
  · rintro ⟨hgate, r, hr, path, hpath, haround⟩
    refine ⟨r, hr, path, hpath, fun m hm hmem => ?_⟩
    -- Every node of the path is a gate, so none of them is a terminal.
    have hm' := hpath.isGate hwf hgate m hm
    rcases List.mem_append.mp hmem with hleaf | hterm
    · exact haround m hm hleaf
    · rw [hterminal, isTerminal_eq_not_isGate (lt_size_of_kindIs hm'), hm'] at hterm
      cases hterm

theorem lists_cutGates (hwf : net.WellFormed) (hac : net.Acyclic) (leaves : List NodeId)
    {root : NodeId} (hroot : root < net.size) :
    net.Lists (fun m => m ∈ leaves ∨ net.isTerminal m = true)
      (fun n => net.isGate n = true ∧ net.ReachedAround leaves [root] n)
      (net.cutGates leaves root) := by
  refine ⟨nodup_coneOrder net _ _, fun n => mem_cutGates_iff hwf hac leaves hroot, ?_⟩
  intro before n after heq m hreads
  refine (mem_of_coneOrder_eq hwf hac heq hreads).imp_left fun hm => ?_
  exact (List.mem_append.mp hm).imp_right mem_nodesOf.mp

/-- The walks of an acyclic network list just what they reach. The topological order holds the
constants, the primary inputs and the register outputs, each in the order of creation, and then the
gates that some output depends on. A cone holds the nodes to which a fanin path leads from a root
around the boundary, and the gates of a cut are those reached from the root around the leaves. Each
order holds a node once, and after what the node reads. The walk on a stack that makes the orders
ends, and gives them. -/
theorem walks_list_what_they_reach (hbuilt : net.Built) (hac : net.Acyclic) :
    (∃ gates, net.topoOrder = net.nodesOf NodeKind.isConstant ++
        net.nodesOf (· == .primaryInput) ++ net.nodesOf (· == .registerOutput) ++ gates ∧
      net.Lists (fun m => net.isTerminal m = true) (fun n => net.isGate n = true ∧ net.Live n)
        gates) ∧
    net.Lists (fun _ => False)
      (fun n => net.isTerminal n = true ∨ net.isGate n = true ∧ net.Live n) net.topoOrder ∧
    (∀ boundary roots, (∀ r ∈ roots, r < net.size) →
      net.Lists (· ∈ boundary) (net.ReachedAround boundary roots)
        (net.coneOrder boundary roots)) ∧
    (∀ leaves root, root < net.size →
      net.Lists (fun m => m ∈ leaves ∨ net.isTerminal m = true)
        (fun n => net.isGate n = true ∧ net.ReachedAround leaves [root] n)
        (net.cutGates leaves root)) ∧
    ∀ roots w done, net.Sweeps roots w done ↔ done = net.walkFrom roots w := by
  have hwf := hbuilt.wellFormed
  have hinv := hbuilt.inventory
  have hgates : ∀ n, n ∈ net.coneOrder net.terminals (net.cos.map Signal.node) ↔
      net.isGate n = true ∧ net.Live n := fun n =>
    (mem_coneOrder_cos_iff hwf hac hinv).trans mem_liveGates
  refine ⟨⟨_, ?_, nodup_coneOrder net _ _, hgates, ?_⟩, ⟨nodup_topoOrder hinv, ?_, ?_⟩,
    lists_coneOrder hwf hac, fun leaves _ => lists_cutGates hwf hac leaves,
    fun _ _ _ => sweeps_iff hac⟩
  · rw [topoOrder_eq, hinv.pis, hinv.ros, List.append_assoc (net.nodesOf _) net.pis.toList]
    rfl
  · intro before n after heq m hreads
    exact (mem_of_coneOrder_eq hwf hac heq hreads).imp_left hinv.mem_terminals_iff.mp
  · intro n
    rw [mem_topoOrder_iff hwf hac hinv, mem_liveGates]
  · exact fun before n after heq m hreads => .inr (mem_of_topoOrder_eq hwf hac hinv heq hreads)

theorem walks_list_what_they_reach_tappedConjunction :
    4 ∈ tappedConjunction.topoOrder ∧ 4 ∈ tappedConjunction.cutGates [3] 5 ∧
      5 ∉ tappedConjunction.cutGates [3, 5] 5 ∧
        ∀ before after, tappedConjunction.coneOrder [] [5] = before ++ 5 :: after → 4 ∈ before := by
  obtain ⟨-, htopo, hcone, hcut, -⟩ := walks_list_what_they_reach
    assembled_tappedConjunction.built acyclic_tappedConjunction
  have hreads : tappedConjunction.Reads 5 4 := reads_iff.mpr ⟨⟨4, false⟩, by decide, rfl⟩
  refine ⟨?_, ?_, ?_, ?_⟩
  · exact (htopo.mem_iff 4).mpr (.inr ⟨by decide, ⟨4, true⟩, List.mem_singleton_self _, .refl⟩)
  · have hpath := (faninPath_self tappedConjunction 4).cons hreads
    exact ((hcut [3] 5 (by decide)).mem_iff 4).mpr
      ⟨by decide, 5, List.mem_singleton_self 5, [5, 4], hpath, by decide⟩
  · intro hmem
    obtain ⟨-, r, hr, path, hpath, haround⟩ := ((hcut [3, 5] 5 (by decide)).mem_iff 5).mp hmem
    exact haround 5 (List.mem_of_getLast? hpath.last) (by decide)
  · intro before after heq
    exact ((hcone [] [5] (by decide)).fanins_first before 5 after heq 4 hreads).resolve_left
      List.not_mem_nil

end LogicSynthesis.Network
