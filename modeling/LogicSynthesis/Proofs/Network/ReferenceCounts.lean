import LogicSynthesis.Network.FanoutFreeCone
import LogicSynthesis.Proofs.Network.Growth

/-!
# Reference counts

Acquiring a node adds the edges of its cone to the counts, and releasing a node takes them away.
The cone is the same in both directions: the node, and every gate without other references that a
gate of the cone reads. So a release undoes an acquisition exactly, and an acquisition a release,
even when gates were created in between.

## Main definitions

- `Scratch.Revalued` — a scratch state with other values
- `Network.loads` — the edges from some nodes to a node
- `Network.Cone` — the cone of a node with respect to counts
- `Network.Meets` — some nodes reach a node in at most one step
- `Network.Affordable`, `Network.Roomy` — costs and counts are in range for all sets of gates
- `Network.AffordableWithin`, `Network.RoomyWithin`, `Network.ReleasableWithin` — they are for the
  gates of a bound, or the fault is permitted

## Main statements

- `acquireLoop_ends`, `releaseLoop_ends` — what the two loops do to the counts
- `cone_unique` — counts determine the cone
-/

namespace LogicSynthesis

namespace Scratch

/-- The state `s'` is `s` with the values `v`. -/
structure Revalued (s : Scratch) (v : NodeId → Nat) (s' : Scratch) : Prop where
  size : s'.values.size = s.values.size
  marks : s'.marks = s.marks
  walk : s'.walk = s.walk
  valueAt : s'.valueAt = v

variable {s s' s'' : Scratch} {v v' : NodeId → Nat} {n : NodeId}

theorem Revalued.refl (s : Scratch) : s.Revalued s.valueAt s := ⟨rfl, rfl, rfl, rfl⟩

theorem Revalued.trans (h : s.Revalued v s') (h' : s'.Revalued v' s'') : s.Revalued v' s'' :=
  ⟨h'.size.trans h.size, h'.marks.trans h.marks, h'.walk.trans h.walk, h'.valueAt⟩

theorem Revalued.past (h : s.Revalued v s') (hpast : s.Past) : s'.Past := by
  intro n
  rw [markAt, h.marks, h.walk]
  exact hpast n

/-- The values determine the state. -/
theorem Revalued.unique (h : s.Revalued v s') (h' : s.Revalued v s'') : s' = s'' := by
  have hvalues : s'.values = s''.values := by
    apply Array.ext (h.size.trans h'.size.symm)
    intro i hi hi'
    have heq := congrFun (h.valueAt.trans h'.valueAt.symm) i
    rwa [Scratch.valueAt, Scratch.valueAt, Array.getElem?_eq_getElem hi,
      Array.getElem?_eq_getElem hi'] at heq
  have hmarks := h.marks.trans h'.marks.symm
  have hwalk := h.walk.trans h'.walk.symm
  cases s'
  cases s''
  simp only at hvalues hmarks hwalk
  rw [hvalues, hmarks, hwalk]

theorem value_eq_ok (h : n < s.values.size) : s.value n = .ok (s.valueAt n) := by
  rw [value, Scratch.valueAt, Array.getElem?_eq_getElem h]
  rfl

theorem revalued_set (h : n < s.values.size) (x : Nat) :
    s.Revalued (Function.update s.valueAt n x)
      { s with values := s.values.setIfInBounds n x } := by
  refine ⟨Array.size_setIfInBounds, rfl, rfl, ?_⟩
  funext m
  rw [Scratch.valueAt, Array.getElem?_setIfInBounds]
  by_cases heq : n = m
  · subst heq
    rw [if_pos rfl, if_pos h, Function.update_self]
    rfl
  · rw [if_neg heq, Function.update_of_ne (Ne.symm heq)]
    rfl

theorem increment_ends {permitted : Fault → Prop} (h : n < s.values.size)
    (hroom : s.valueAt n + 1 < valueBound ∨ permitted .overflow) :
    Ends permitted (s.increment n) fun r =>
      r.1 = s.valueAt n ∧ s.Revalued (Function.update s.valueAt n (s.valueAt n + 1)) r.2 := by
  rw [increment, value_eq_ok h, ok_bind]
  apply (Ends.require (hroom.imp_left decide_eq_true)).bind
  intro _ _
  exact ⟨rfl, revalued_set h _⟩

theorem decrement_ends {permitted : Fault → Prop} (h : n < s.values.size)
    (hpos : 0 < s.valueAt n ∨ permitted (.counterUnderflow n)) :
    Ends permitted (s.decrement n) fun r => 0 < s.valueAt n ∧
      r.1 = s.valueAt n - 1 ∧ s.Revalued (Function.update s.valueAt n (s.valueAt n - 1)) r.2 := by
  rw [decrement, value_eq_ok h, ok_bind]
  apply (Ends.require (hpos.imp_left decide_eq_true)).bind
  intro _ hcond
  exact ⟨of_decide_eq_true hcond, rfl, revalued_set h _⟩

end Scratch

namespace Network

open Relation

variable {net : Network} {permitted : Fault → Prop}

/-! ### Edges -/

/-- How often the edges read `m`. -/
def count (edges : List Signal) (m : NodeId) : Nat := edges.countP (·.node == m)

theorem count_cons (s : Signal) (edges : List Signal) (m : NodeId) :
    count (s :: edges) m = count edges m + if s.node = m then 1 else 0 := by
  simp only [count, List.countP_cons, beq_iff_eq]

theorem count_pos_iff {edges : List Signal} {m : NodeId} :
    0 < count edges m ↔ ∃ s ∈ edges, s.node = m := by
  simp only [count, List.countP_pos_iff, beq_iff_eq]

theorem count_fanins_pos {n m : NodeId} : 0 < count (net.fanins n) m ↔ net.Reads n m := by
  rw [count_pos_iff, reads_iff]

/-- The outcome of acquiring edges: the gates that had no reference join the list. -/
structure Acquired (net : Network) (edges : List Signal) (pending : List NodeId) (s : Scratch)
    (r : Worklist) : Prop where
  values : s.Revalued (fun m => s.valueAt m + count edges m) r.2
  joined : ∃ joined, r.1 = joined ++ pending ∧ joined.Nodup ∧ ∀ m, m ∈ joined ↔
    net.isTerminal m = false ∧ s.valueAt m = 0 ∧ 0 < count edges m

/-- The outcome of releasing edges: the gates that lost their last reference join the list. -/
structure Released (net : Network) (edges : List Signal) (pending : List NodeId) (s : Scratch)
    (r : Worklist) : Prop where
  values : s.Revalued (fun m => s.valueAt m - count edges m) r.2
  joined : ∃ joined, r.1 = joined ++ pending ∧ joined.Nodup ∧ ∀ m, m ∈ joined ↔
    net.isTerminal m = false ∧ s.valueAt m = count edges m ∧ 0 < count edges m

theorem acquireEdge_ends {e : Signal} {pending : List NodeId} {s : Scratch}
    (he : e.node < s.values.size)
    (hroom : s.valueAt e.node + 1 < Scratch.valueBound ∨ permitted .overflow) :
    Ends permitted (net.acquireEdge (pending, s) e) fun r =>
      r.1 = (if s.valueAt e.node = 0 ∧ net.isTerminal e.node = false then [e.node] else []) ++
          pending ∧
        s.Revalued (Function.update s.valueAt e.node (s.valueAt e.node + 1)) r.2 := by
  apply (Scratch.increment_ends he hroom).bind
  rintro ⟨former, s'⟩ ⟨rfl, hs'⟩
  refine ⟨?_, hs'⟩
  by_cases hzero : s.valueAt e.node = 0 <;> cases net.isTerminal e.node <;> simp [hzero]

theorem releaseEdge_ends {e : Signal} {pending : List NodeId} {s : Scratch}
    (he : e.node < s.values.size)
    (hpos : 0 < s.valueAt e.node ∨ permitted (.counterUnderflow e.node)) :
    Ends permitted (net.releaseEdge (pending, s) e) fun r => 0 < s.valueAt e.node ∧
      r.1 = (if s.valueAt e.node = 1 ∧ net.isTerminal e.node = false then [e.node] else []) ++
          pending ∧
        s.Revalued (Function.update s.valueAt e.node (s.valueAt e.node - 1)) r.2 := by
  apply (Scratch.decrement_ends he hpos).bind
  rintro ⟨left, s'⟩ ⟨hpos, rfl, hs'⟩
  refine ⟨hpos, ?_, hs'⟩
  have hone : s.valueAt e.node - 1 = 0 ↔ s.valueAt e.node = 1 := by omega
  by_cases hlast : s.valueAt e.node = 1 <;> cases net.isTerminal e.node <;> simp [hone, hlast]

/-- A node joins the worklist with its first edge, when its count is still zero. -/
theorem Acquired.cons {e : Signal} {edges : List Signal} {pending : List NodeId} {s s' : Scratch}
    (hs' : s.Revalued (Function.update s.valueAt e.node (s.valueAt e.node + 1)) s') {r : Worklist}
    (h : Acquired net edges ((if s.valueAt e.node = 0 ∧ net.isTerminal e.node = false
      then [e.node] else []) ++ pending) s' r) : Acquired net (e :: edges) pending s r := by
  obtain ⟨hvalues, joined, hr, hnodup, hmem⟩ := h
  have hself : e.node ∉ joined := by
    intro hin
    have hzero := ((hmem e.node).mp hin).2.1
    rw [hs'.valueAt, Function.update_self] at hzero
    omega
  refine ⟨?_, joined ++ (if s.valueAt e.node = 0 ∧ net.isTerminal e.node = false
    then [e.node] else []), ?_, ?_, ?_⟩
  · have hsum : (fun m => s.valueAt m + count (e :: edges) m) =
        fun m => s'.valueAt m + count edges m := by
      funext m
      rw [hs'.valueAt, count_cons]
      by_cases heq : m = e.node
      · subst heq
        rw [Function.update_self, if_pos rfl]
        omega
      · rw [Function.update_of_ne heq, if_neg (Ne.symm heq)]
        omega
    rw [hsum]
    exact hs'.trans hvalues
  · rw [hr, List.append_assoc]
  · split
    · exact hnodup.append (List.nodup_singleton _) (List.disjoint_singleton.mpr hself)
    · rwa [List.append_nil]
  · intro m
    rw [List.mem_append, hmem, hs'.valueAt, count_cons]
    by_cases heq : m = e.node
    · subst heq
      rw [Function.update_self, if_pos rfl]
      by_cases hzero : s.valueAt e.node = 0 <;> cases net.isTerminal e.node <;> simp [hzero]
    · rw [Function.update_of_ne heq, if_neg (Ne.symm heq)]
      split <;> simp [heq]

theorem foldlM_acquireEdge_ends {edges : List Signal} {pending : List NodeId} {s : Scratch}
    (hlt : ∀ e ∈ edges, e.node < s.values.size)
    (hroom : (∀ m, s.valueAt m + count edges m < Scratch.valueBound) ∨ permitted .overflow) :
    Ends permitted (edges.foldlM net.acquireEdge (pending, s)) (Acquired net edges pending s) := by
  induction edges generalizing pending s with
  | nil =>
    refine ⟨.refl s, [], rfl, List.nodup_nil, ?_⟩
    intro m
    simp [count]
  | cons e edges ih =>
    have hhead : s.valueAt e.node + 1 < Scratch.valueBound ∨ permitted .overflow := by
      refine hroom.imp_left fun h => ?_
      have hroom := h e.node
      rw [count_cons, if_pos rfl] at hroom
      omega
    rw [List.foldlM_cons]
    apply (acquireEdge_ends (hlt e List.mem_cons_self) hhead).bind
    rintro ⟨next, s'⟩ ⟨rfl, hs'⟩
    refine (ih ?_ ?_).mono fun r hr => hr.cons hs'
    · exact fun e' he' => hs'.size.symm ▸ hlt e' (List.mem_cons_of_mem _ he')
    · refine hroom.imp_left fun h m => ?_
      have hroom := h m
      rw [count_cons] at hroom
      rw [hs'.valueAt]
      by_cases heq : m = e.node
      · subst heq
        rw [if_pos rfl] at hroom
        rw [Function.update_self]
        omega
      · rw [Function.update_of_ne heq]
        omega

/-- Releasing an edge takes one from the count of its driver. -/
theorem valueAt_add_of_released {e : Signal} {s s' : Scratch} (hpos : 0 < s.valueAt e.node)
    (hs' : s.Revalued (Function.update s.valueAt e.node (s.valueAt e.node - 1)) s') (m : NodeId) :
    s'.valueAt m + (if e.node = m then 1 else 0) = s.valueAt m := by
  rw [hs'.valueAt]
  by_cases heq : m = e.node
  · subst heq
    rw [Function.update_self, if_pos rfl]
    omega
  · rw [Function.update_of_ne heq, if_neg (Ne.symm heq)]
    rfl

/-- A node joins the worklist with its last edge, when its count becomes zero. -/
theorem Released.cons {e : Signal} {edges : List Signal} {pending : List NodeId} {s s' : Scratch}
    (hroom : ∀ m, count (e :: edges) m ≤ s.valueAt m) (hpos : 0 < s.valueAt e.node)
    (hs' : s.Revalued (Function.update s.valueAt e.node (s.valueAt e.node - 1)) s') {r : Worklist}
    (h : Released net edges ((if s.valueAt e.node = 1 ∧ net.isTerminal e.node = false
      then [e.node] else []) ++ pending) s' r) : Released net (e :: edges) pending s r := by
  obtain ⟨hvalues, joined, hr, hnodup, hmem⟩ := h
  have hvalue := valueAt_add_of_released hpos hs'
  refine ⟨?_, joined ++ (if s.valueAt e.node = 1 ∧ net.isTerminal e.node = false
    then [e.node] else []), ?_, ?_, ?_⟩
  · have hsum : (fun m => s.valueAt m - count (e :: edges) m) =
        fun m => s'.valueAt m - count edges m := by
      funext m
      have hvalue := hvalue m
      rw [count_cons]
      omega
    rw [hsum]
    exact hs'.trans hvalues
  · rw [hr, List.append_assoc]
  · split
    · next hlast =>
      apply hnodup.append (List.nodup_singleton _)
      rw [List.disjoint_singleton]
      intro hin
      have hcount := ((hmem e.node).mp hin).2
      have hvalue := hvalue e.node
      rw [if_pos rfl] at hvalue
      omega
    · rwa [List.append_nil]
  · intro m
    have hvalue := hvalue m
    rw [List.mem_append, hmem, count_cons]
    by_cases heq : m = e.node
    · subst heq
      have hroom := hroom e.node
      rw [count_cons, if_pos rfl] at hroom
      rw [if_pos rfl] at hvalue ⊢
      cases net.isTerminal e.node with
      | true => simp
      | false =>
        by_cases hlast : s.valueAt e.node = 1
        · simp [hlast]
          omega
        · simp [hlast]
          omega
    · rw [if_neg (Ne.symm heq)] at hvalue ⊢
      rw [Nat.add_zero] at hvalue ⊢
      rw [hvalue]
      split <;> simp [heq]

theorem foldlM_releaseEdge_ends {edges : List Signal} {pending : List NodeId} {s : Scratch}
    (hlt : ∀ e ∈ edges, e.node < s.values.size)
    (hroom : (∀ m, count edges m ≤ s.valueAt m) ∨ ∀ m, permitted (.counterUnderflow m)) :
    Ends permitted (edges.foldlM net.releaseEdge (pending, s)) fun r =>
      (∀ m, count edges m ≤ s.valueAt m) ∧ Released net edges pending s r := by
  induction edges generalizing pending s with
  | nil =>
    refine ⟨fun m => Nat.zero_le _, .refl s, [], rfl, List.nodup_nil, ?_⟩
    intro m
    simp [count]
  | cons e edges ih =>
    have hhead : 0 < s.valueAt e.node ∨ permitted (.counterUnderflow e.node) := by
      refine hroom.imp (fun hroom => ?_) fun h => h e.node
      have hroom := hroom e.node
      rw [count_cons, if_pos rfl] at hroom
      omega
    rw [List.foldlM_cons]
    apply (releaseEdge_ends (hlt e List.mem_cons_self) hhead).bind
    rintro ⟨next, s'⟩ ⟨hpos, rfl, hs'⟩
    have hvalue : ∀ m, s'.valueAt m + (if e.node = m then 1 else 0) = s.valueAt m :=
      valueAt_add_of_released hpos hs'
    refine (ih ?_ ?_).mono fun r ⟨hcount, hr⟩ => ?_
    · exact fun e' he' => hs'.size.symm ▸ hlt e' (List.mem_cons_of_mem _ he')
    · refine hroom.imp_left fun hroom m => ?_
      have hroom := hroom m
      have hvalue := hvalue m
      rw [count_cons] at hroom
      show count edges m ≤ s'.valueAt m
      omega
    · have hcount' : ∀ m, count (e :: edges) m ≤ s.valueAt m := by
        intro m
        have hcount : count edges m ≤ s'.valueAt m := hcount m
        have hvalue := hvalue m
        rw [count_cons]
        omega
      exact ⟨hcount', hr.cons hcount' hpos hs'⟩

/-! ### Cones -/

/-- The number of edges from the nodes `ns` to `m`. -/
def loads (net : Network) (ns : List NodeId) (m : NodeId) : Nat :=
  (ns.map fun n => count (net.fanins n) m).sum

/-- What the nodes `ns` cost. -/
def costOf (cost : NodeCost) (ns : List NodeId) : Nat := (ns.map cost).sum

theorem loads_cons (n : NodeId) (ns : List NodeId) (m : NodeId) :
    net.loads (n :: ns) m = count (net.fanins n) m + net.loads ns m := List.sum_cons

theorem loads_pos_iff {ns : List NodeId} {m : NodeId} :
    0 < net.loads ns m ↔ ∃ n ∈ ns, net.Reads n m := by
  induction ns with
  | nil => simp [loads]
  | cons n ns ih =>
    rw [loads_cons, List.exists_mem_cons_iff, ← ih, ← count_fanins_pos]
    omega

theorem loads_perm {ns ns' : List NodeId} (h : ns.Perm ns') (m : NodeId) :
    net.loads ns m = net.loads ns' m := (h.map _).sum_eq

theorem sum_map_le {ns ns' : List NodeId} (hnodup : ns.Nodup) (hsub : ns ⊆ ns')
    (f : NodeId → Nat) : (ns.map f).sum ≤ (ns'.map f).sum := by
  obtain ⟨l, hperm, hl⟩ := List.subperm_of_subset hnodup hsub
  rw [← (hperm.map f).sum_eq]
  exact (hl.map f).sum_le_sum fun _ _ => Nat.zero_le _

/-- More nodes have more edges. -/
theorem loads_le {ns ns' : List NodeId} (hnodup : ns.Nodup) (hsub : ns ⊆ ns') (m : NodeId) :
    net.loads ns m ≤ net.loads ns' m := sum_map_le hnodup hsub _

/-- Only the readers of a node count. -/
theorem loads_congr {ns ns' : List NodeId} (hnodup : ns.Nodup) (hnodup' : ns'.Nodup) {m : NodeId}
    (h : ∀ n, net.Reads n m → (n ∈ ns ↔ n ∈ ns')) : net.loads ns m = net.loads ns' m := by
  have hfilter : ∀ ns : List NodeId, net.loads ns m =
      net.loads (ns.filter fun n => 0 < count (net.fanins n) m) m := by
    intro ns
    induction ns with
    | nil => rfl
    | cons n ns ih =>
      rw [loads_cons, ih, List.filter_cons]
      split
      · rw [loads_cons]
      · next hzero =>
        rw [decide_eq_true_eq, Nat.not_lt, Nat.le_zero] at hzero
        rw [hzero, Nat.zero_add]
  rw [hfilter ns, hfilter ns']
  apply loads_perm
  rw [List.perm_ext_iff_of_nodup (hnodup.filter _) (hnodup'.filter _)]
  intro n
  rw [List.mem_filter, List.mem_filter, decide_eq_true_eq, count_fanins_pos]
  exact and_congr_left (h n)

/-- The cone of `n` when the nodes have the counts `v`: the node, and every gate without
references that the cone reads. -/
structure Cone (net : Network) (v : NodeId → Nat) (n : NodeId) (cone : List NodeId) : Prop where
  nodup : cone.Nodup
  root : n ∈ cone
  mem_iff : ∀ m, m ≠ n → (m ∈ cone ↔
    net.isTerminal m = false ∧ v m = 0 ∧ ∃ x ∈ cone, net.Reads x m)
  path : ∀ m ∈ cone, ReflTransGen net.Reads n m

/-- Two cones of a node are the same when the counts of a node agree as soon as its readers belong
to both or to none. -/
theorem Cone.mem_iff_mem (hac : net.Acyclic) {v v' : NodeId → Nat} {n : NodeId}
    {cone cone' : List NodeId} (h : net.Cone v n cone) (h' : net.Cone v' n cone')
    (hv : ∀ m, (∀ x, net.Reads x m → (x ∈ cone ↔ x ∈ cone')) → v m = v' m) (m : NodeId) :
    m ∈ cone ↔ m ∈ cone' := by
  induction m using hac.induction_readers with
  | _ m ih =>
    by_cases heq : m = n
    · subst heq
      exact ⟨fun _ => h'.root, fun _ => h.root⟩
    · have hreaders : (∃ x ∈ cone, net.Reads x m) ↔ ∃ x ∈ cone', net.Reads x m :=
        exists_congr fun x => and_congr_left fun hreads => ih x hreads
      rw [h.mem_iff m heq, h'.mem_iff m heq, hv m ih, hreaders]

theorem Cone.perm (hac : net.Acyclic) {v : NodeId → Nat} {n : NodeId} {cone cone' : List NodeId}
    (h : net.Cone v n cone) (h' : net.Cone v n cone') : cone.Perm cone' :=
  (List.perm_ext_iff_of_nodup h.nodup h'.nodup).mpr
    (h.mem_iff_mem hac h' fun _ _ => rfl)

/-- Counts that differ by their own cones from the same counts are the same. -/
theorem cone_unique (hac : net.Acyclic) {v v' : NodeId → Nat} {n : NodeId}
    {cone cone' : List NodeId} (h : net.Cone v n cone) (h' : net.Cone v' n cone')
    (hsum : ∀ m, v m + net.loads cone m = v' m + net.loads cone' m) :
    v = v' ∧ cone.Perm cone' := by
  have hstep : ∀ m, (∀ x, net.Reads x m → (x ∈ cone ↔ x ∈ cone')) → v m = v' m := by
    intro m hreaders
    have hloads := loads_congr h.nodup h'.nodup hreaders
    have hsum := hsum m
    omega
  have hmem := h.mem_iff_mem hac h' hstep
  exact ⟨funext fun m => hstep m fun x _ => hmem x,
    (List.perm_ext_iff_of_nodup h.nodup h'.nodup).mpr hmem⟩

/-! ### Acquiring -/

/-- An acquisition under way: `done` was processed, and `pending` waits. -/
structure Acquiring (net : Network) (v : NodeId → Nat) (n : NodeId) (pending done : List NodeId)
    (s : Scratch) : Prop where
  values : ∀ m, s.valueAt m = v m + net.loads done m
  nodup : (pending ++ done).Nodup
  root : n ∈ pending ++ done
  member : ∀ m ∈ pending ++ done, m ≠ n →
    net.isTerminal m = false ∧ v m = 0 ∧ ∃ x ∈ done, net.Reads x m
  complete : ∀ m, m ≠ n → net.isTerminal m = false → v m = 0 → (∃ x ∈ done, net.Reads x m) →
    m ∈ pending ++ done
  path : ∀ m ∈ pending ++ done, ReflTransGen net.Reads n m

theorem acquiring_start {n : NodeId} (s : Scratch) :
    net.Acquiring s.valueAt n [n] [] s := by
  refine ⟨fun _ => rfl, List.nodup_singleton n, List.mem_singleton_self n, ?_, ?_, ?_⟩
  · exact fun m hm hne => absurd (List.mem_singleton.mp hm) hne
  · rintro m - - - ⟨x, hx, -⟩
    cases hx
  · intro m hm
    rw [List.mem_singleton.mp hm]

/-- Nodes that an acquisition of `n` does not leave. -/
structure Acquirable (net : Network) (v : NodeId → Nat) (n : NodeId) (bound : List NodeId) :
    Prop where
  root : n ∈ bound
  closed : ∀ m, net.isTerminal m = false → v m = 0 → (∃ x ∈ bound, net.Reads x m) → m ∈ bound

theorem Cone.acquirable {v : NodeId → Nat} {n : NodeId} {cone : List NodeId}
    (h : net.Cone v n cone) : net.Acquirable v n cone := by
  refine ⟨h.root, fun m hterm hzero hreads => ?_⟩
  by_cases heq : m = n
  · exact heq ▸ h.root
  · exact (h.mem_iff m heq).mpr ⟨hterm, hzero, hreads⟩

theorem Acquiring.bounded (hac : net.Acyclic) {v : NodeId → Nat} {n : NodeId}
    {bound pending done : List NodeId} {s : Scratch} (hbound : net.Acquirable v n bound)
    (h : net.Acquiring v n pending done s) : pending ++ done ⊆ bound := by
  intro m
  induction m using hac.induction_readers with
  | _ m ih =>
    intro hm
    by_cases heq : m = n
    · exact heq ▸ hbound.root
    · obtain ⟨hterm, hzero, x, hx, hreads⟩ := h.member m hm heq
      exact hbound.closed m hterm hzero ⟨x, ih x hreads (List.mem_append_right _ hx), hreads⟩

theorem Acquiring.cone {v : NodeId → Nat} {n : NodeId} {done : List NodeId} {s : Scratch}
    (h : net.Acquiring v n [] done s) : net.Cone v n done :=
  ⟨h.nodup, h.root, fun m hne => ⟨fun hm => h.member m hm hne,
    fun ⟨hgate, hzero, hreads⟩ => h.complete m hne hgate hzero hreads⟩, h.path⟩

/-- A gate that joins was not there before. -/
theorem Acquiring.step (hac : net.Acyclic) {v : NodeId → Nat} {n x : NodeId}
    {pending done : List NodeId} {s : Scratch} {r : Worklist}
    (h : net.Acquiring v n (x :: pending) done s)
    (hr : net.Acquired (net.fanins x) pending s r) : net.Acquiring v n r.1 (x :: done) r.2 := by
  obtain ⟨hvalues, joined, hjoined, hnodup, hmem⟩ := hr
  have hperm : (r.1 ++ x :: done).Perm (joined ++ (x :: pending ++ done)) := by
    rw [hjoined, List.append_assoc]
    exact List.Perm.append_left _ List.perm_middle
  have hxpath := h.path x List.mem_cons_self
  have hfresh : ∀ m ∈ joined, m ∉ x :: pending ++ done := by
    intro m hm hin
    obtain ⟨-, hzero, hcount⟩ := (hmem m).mp hm
    have hreads := count_fanins_pos.mp hcount
    have hne : m ≠ n := by
      rintro rfl
      exact hac m (.tail' hxpath hreads)
    obtain ⟨-, -, y, hy, hyreads⟩ := h.member m hin hne
    have hpos := loads_pos_iff.mpr ⟨y, hy, hyreads⟩
    have hvalue := h.values m
    omega
  refine ⟨?_, ?_, ?_, ?_, ?_, ?_⟩
  · intro m
    have hvalue := h.values m
    rw [hvalues.valueAt, loads_cons]
    show s.valueAt m + count (net.fanins x) m = _
    omega
  · rw [hperm.nodup_iff]
    exact hnodup.append h.nodup fun m hm hin => hfresh m hm hin
  · rw [hperm.mem_iff]
    exact List.mem_append_right _ h.root
  · intro m hm hne
    rw [hperm.mem_iff, List.mem_append] at hm
    rcases hm with hm | hm
    · obtain ⟨hgate, hzero, hcount⟩ := (hmem m).mp hm
      have hvalue := h.values m
      exact ⟨hgate, by omega, x, List.mem_cons_self, count_fanins_pos.mp hcount⟩
    · obtain ⟨hgate, hzero, y, hy, hyreads⟩ := h.member m hm hne
      exact ⟨hgate, hzero, y, List.mem_cons_of_mem _ hy, hyreads⟩
  · rintro m hne hgate hzero ⟨y, hy, hyreads⟩
    rw [hperm.mem_iff, List.mem_append]
    by_cases hpos : 0 < net.loads done m
    · exact .inr (h.complete m hne hgate hzero (loads_pos_iff.mp hpos))
    · rcases List.mem_cons.mp hy with rfl | hy
      · left
        have hvalue := h.values m
        exact (hmem m).mpr ⟨hgate, by omega, count_fanins_pos.mpr hyreads⟩
      · exact absurd (loads_pos_iff.mpr ⟨y, hy, hyreads⟩) hpos
  · intro m hm
    rw [hperm.mem_iff, List.mem_append] at hm
    rcases hm with hm | hm
    · exact hxpath.tail (count_fanins_pos.mp ((hmem m).mp hm).2.2)
    · exact h.path m hm

/-- One of the nodes is `m` or reads it. -/
def Meets (net : Network) (ns : List NodeId) (m : NodeId) : Prop := ∃ x ∈ ns, x = m ∨ net.Reads x m

theorem meets_nil (m : NodeId) : ¬ net.Meets [] m := by
  rintro ⟨x, hx, -⟩
  cases hx

theorem meets_cons {x : NodeId} {ns : List NodeId} {m : NodeId} :
    net.Meets (x :: ns) m ↔ (x = m ∨ net.Reads x m) ∨ net.Meets ns m := List.exists_mem_cons_iff ..

theorem meets_perm {ns ns' : List NodeId} (h : ns.Perm ns') (m : NodeId) :
    net.Meets ns m ↔ net.Meets ns' m := exists_congr fun _ => and_congr_left fun _ => h.mem_iff

/-- The search goes on with one more node. -/
theorem found_next {found : Bool} {ns : List NodeId} {x target : NodeId}
    (h : found = true ↔ net.Meets ns target) :
    (found || x == target || (net.faninNodes x).contains target) = true ↔
      net.Meets (x :: ns) target := by
  rw [Bool.or_eq_true, Bool.or_eq_true, h, beq_iff_eq, List.contains_iff_mem, meets_cons, or_assoc,
    or_comm]
  exact Iff.rfl

theorem acquireLoop_cons (cost : NodeCost) (target total : Nat) (found : Bool) (x : NodeId)
    (rest : List NodeId) (s : Scratch) :
    net.acquireLoop cost target total found (x :: rest, s) = (do
      let total ← addCost total (cost x)
      let next ← (net.fanins x).foldlM net.acquireEdge (rest, s)
      net.acquireLoop cost target total
        (found || x == target || (net.faninNodes x).contains target) next) := by
  rw [acquireLoop]
  cases addCost total (cost x) <;> cases (net.fanins x).foldlM net.acquireEdge (rest, s) <;> rfl

theorem addCost_ends {a b : Nat} (h : a + b < costBound ∨ permitted .overflow) :
    Ends permitted (addCost a b) fun total => total = a + b := by
  apply (Ends.require (h.imp_left decide_eq_true)).bind
  intro _ _
  rfl

/-- The gates of a network cost less than the bound, unless an overflow is permitted. -/
def Affordable (permitted : Fault → Prop) (net : Network) (cost : NodeCost) : Prop :=
  (∀ ns : List NodeId, ns.Nodup → (∀ n ∈ ns, net.isGate n = true) → costOf cost ns < costBound) ∨
    permitted .overflow

/-- The counts `v` leave room for the edges of the network, unless an overflow is permitted. -/
def Roomy (permitted : Fault → Prop) (net : Network) (v : NodeId → Nat) : Prop :=
  (∀ ns : List NodeId, ns.Nodup → ∀ m, v m + net.loads ns m < Scratch.valueBound) ∨
    permitted .overflow

/-- The gates among the nodes of `bound` cost less than the limit, unless an overflow is
permitted. -/
def AffordableWithin (permitted : Fault → Prop) (net : Network) (cost : NodeCost)
    (bound : List NodeId) : Prop :=
  (∀ ns : List NodeId, ns.Nodup → ns ⊆ bound → (∀ n ∈ ns, net.isGate n = true) →
    costOf cost ns < costBound) ∨ permitted .overflow

/-- The counts `v` leave room for the edges from the nodes of `bound`, unless an overflow is
permitted. -/
def RoomyWithin (permitted : Fault → Prop) (net : Network) (v : NodeId → Nat)
    (bound : List NodeId) : Prop :=
  (∀ ns : List NodeId, ns.Nodup → ns ⊆ bound → ∀ m,
    v m + net.loads ns m < Scratch.valueBound) ∨ permitted .overflow

theorem Affordable.within {cost : NodeCost} (h : Affordable permitted net cost)
    (bound : List NodeId) : AffordableWithin permitted net cost bound :=
  h.imp_left fun h ns hnodup _ hgates => h ns hnodup hgates

theorem Roomy.within {v : NodeId → Nat} (h : Roomy permitted net v) (bound : List NodeId) :
    RoomyWithin permitted net v bound :=
  h.imp_left fun h ns hnodup _ => h ns hnodup

theorem affordableWithin_of_costOf {cost : NodeCost} {bound : List NodeId}
    (h : costOf cost bound < costBound ∨ permitted .overflow) :
    AffordableWithin permitted net cost bound :=
  h.imp_left fun h _ hnodup hsub _ => Nat.lt_of_le_of_lt (sum_map_le hnodup hsub cost) h

theorem roomyWithin_of_loads {v : NodeId → Nat} {bound : List NodeId}
    (h : (∀ m, v m + net.loads bound m < Scratch.valueBound) ∨ permitted .overflow) :
    RoomyWithin permitted net v bound :=
  h.imp_left fun h _ hnodup hsub m =>
    Nat.lt_of_le_of_lt (Nat.add_le_add_left (loads_le hnodup hsub m) _) (h m)

section Loops

variable (hac : net.Acyclic) (hlt : ∀ n m, net.Reads n m → m < net.size)

include hlt in
theorem isGate_of_reads_of_not_terminal {x m : NodeId} (hreads : net.Reads x m)
    (hgate : net.isTerminal m = false) : net.isGate m = true := by
  rw [isTerminal_eq_not_isGate (hlt x m hreads)] at hgate
  simpa using hgate

include hlt in
theorem fanins_lt (x : NodeId) : ∀ e ∈ net.fanins x, e.node < net.size :=
  fun e he => hlt x e.node (reads_iff.mpr ⟨e, he, rfl⟩)

theorem next_subset {x : NodeId} {pending done bound : List NodeId}
    (h : x :: pending ++ done ⊆ bound) : x :: done ⊆ bound :=
  fun _ hy => h ((List.Sublist.cons_cons x (List.sublist_append_right pending done)).subset hy)

theorem nodup_next {x : NodeId} {pending done : List NodeId}
    (h : (x :: pending ++ done).Nodup) : (x :: done).Nodup :=
  h.sublist (List.Sublist.cons_cons x (List.sublist_append_right pending done))

include hlt in
/-- The cost of the next node is added. All nodes on the worklist are gates that cost little
together. -/
theorem addCost_next_ends {cost : NodeCost} {n x : NodeId} {bound pending done : List NodeId}
    (hn : net.isGate n = true) (hcost : AffordableWithin permitted net cost bound)
    (hnodup : (x :: pending ++ done).Nodup) (hsub : x :: done ⊆ bound)
    (hmember : ∀ m ∈ x :: pending ++ done, m ≠ n →
      net.isTerminal m = false ∧ ∃ y, net.Reads y m) :
    Ends permitted (addCost (costOf cost done) (cost x)) fun total =>
      total = costOf cost (x :: done) := by
  have hcons : costOf cost (x :: done) = costOf cost done + cost x := by
    rw [costOf, costOf, List.map_cons, List.sum_cons, Nat.add_comm]
  have hgates : ∀ y ∈ x :: done, net.isGate y = true := by
    intro y hy
    by_cases heq : y = n
    · rw [heq]
      exact hn
    · have hmem : y ∈ x :: pending ++ done := by
        rcases List.mem_cons.mp hy with rfl | hy
        · exact List.mem_cons_self
        · exact List.mem_append_right _ hy
      obtain ⟨hgate, z, hreads⟩ := hmember y hmem heq
      exact isGate_of_reads_of_not_terminal hlt hreads hgate
  rw [hcons]
  apply addCost_ends
  refine hcost.imp_left fun hcost => ?_
  rw [← hcons]
  exact hcost (x :: done) (nodup_next hnodup) hsub hgates

include hac hlt in
theorem acquireLoop_ends (target : NodeId) (found : Bool) {cost : NodeCost} {v : NodeId → Nat}
    {n : NodeId} {total : Nat} {bound pending done : List NodeId} {s : Scratch}
    (hn : net.isGate n = true) (hbound : net.Acquirable v n bound)
    (hroom : RoomyWithin permitted net v bound)
    (hcost : AffordableWithin permitted net cost bound)
    (h : net.Acquiring v n pending done s) (hsize : s.values.size = net.size)
    (htotal : total = costOf cost done) (hfound : found = true ↔ net.Meets done target) :
    Ends permitted (net.acquireLoop cost target total found (pending, s)) fun r =>
      ∃ cone, net.Cone v n cone ∧ r.1.1 = costOf cost cone ∧
        (r.1.2 = true ↔ net.Meets cone target) ∧
        s.Revalued (fun m => v m + net.loads cone m) r.2 := by
  -- A node leaves the worklist in each round, and one that joins is no longer unreferenced.
  induction hk : pending.length + s.unreferenced using Nat.strong_induction_on
    generalizing total found pending done s with
  | _ k ih =>
    cases pending with
    | nil =>
      rw [acquireLoop]
      refine ⟨done, h.cone, htotal, hfound, rfl, rfl, rfl, ?_⟩
      funext m
      exact h.values m
    | cons x pending =>
      rw [acquireLoop_cons]
      rw [htotal]
      have hmember : ∀ m ∈ x :: pending ++ done, m ≠ n →
          net.isTerminal m = false ∧ ∃ y, net.Reads y m := by
        intro m hm hne
        obtain ⟨hgate, -, y, -, hreads⟩ := h.member m hm hne
        exact ⟨hgate, y, hreads⟩
      have hsub : x :: done ⊆ bound := next_subset (h.bounded hac hbound)
      refine (addCost_next_ends hlt hn hcost h.nodup hsub hmember).bind ?_
      rintro total' htotal'
      refine (foldlM_acquireEdge_ends (hsize ▸ fanins_lt hlt x) ?_).bind_eq ?_
      · refine hroom.imp_left fun hroom m => ?_
        have hle := hroom (x :: done) (nodup_next h.nodup) hsub m
        have hvalue := h.values m
        rw [loads_cons] at hle
        omega
      rintro ⟨pending', s'⟩ hrun hnext
      have hmeasure := foldlM_measure (fun r : Worklist => r.1.length + r.2.unreferenced)
        net.acquireEdge (fun _ _ _ => acquireEdge_measure) hrun
      refine (ih _ ?_ _ (h.step hac hnext) (hnext.values.size.trans hsize) htotal'
        (found_next hfound) rfl).mono ?_
      · change pending'.length + s'.unreferenced ≤ pending.length + s.unreferenced at hmeasure
        change pending'.length + s'.unreferenced < k
        rw [List.length_cons] at hk
        omega
      · rintro r ⟨cone, hcone, htotal, hfound, hvalues⟩
        exact ⟨cone, hcone, htotal, hfound, hnext.values.trans hvalues⟩

end Loops

/-! ### Releasing -/

/-- A release under way: `done` was processed, and `pending` waits. The nodes concerned are among
those of `bound`. -/
structure Releasing (net : Network) (v : NodeId → Nat) (bound : List NodeId) (n : NodeId)
    (pending done : List NodeId) (s : Scratch) : Prop where
  values : ∀ m, s.valueAt m + net.loads done m = v m
  nodup : (pending ++ done).Nodup
  root : n ∈ pending ++ done
  member : ∀ m ∈ pending ++ done, m ≠ n →
    net.isTerminal m = false ∧ s.valueAt m = 0 ∧ ∃ x ∈ done, net.Reads x m
  complete : ∀ m, m ≠ n → net.isTerminal m = false → s.valueAt m = 0 →
    (∃ x ∈ done, net.Reads x m) → m ∈ pending ++ done
  path : ∀ m ∈ pending ++ done, ReflTransGen net.Reads n m
  bounded : pending ++ done ⊆ bound

/-- Nodes that can be released together: their edges are counted, and every other gate that they
read has further references. -/
structure Releasable (net : Network) (v : NodeId → Nat) (bound : List NodeId) : Prop where
  counted : ∀ m, net.loads bound m ≤ v m
  closed : ∀ m, net.isTerminal m = false → m ∉ bound → (∃ x ∈ bound, net.Reads x m) →
    net.loads bound m < v m

theorem releasing_start {bound : List NodeId} {n : NodeId} (hn : n ∈ bound) (s : Scratch) :
    net.Releasing s.valueAt bound n [n] [] s := by
  refine ⟨fun _ => rfl, List.nodup_singleton n, List.mem_singleton_self n, ?_, ?_, ?_, ?_⟩
  · exact fun m hm hne => absurd (List.mem_singleton.mp hm) hne
  · rintro m - - - ⟨x, hx, -⟩
    cases hx
  · intro m hm
    rw [List.mem_singleton.mp hm]
  · intro m hm
    rw [List.mem_singleton.mp hm]
    exact hn

theorem Releasing.cone {v : NodeId → Nat} {bound : List NodeId} {n : NodeId} {done : List NodeId}
    {s : Scratch} (h : net.Releasing v bound n [] done s) : net.Cone s.valueAt n done :=
  ⟨h.nodup, h.root, fun m hne => ⟨fun hm => h.member m hm hne,
    fun ⟨hgate, hzero, hreads⟩ => h.complete m hne hgate hzero hreads⟩, h.path⟩

/-- Releases within `bound` go through: its nodes can be released together, or it has all nodes
and a count may run out. -/
def ReleasableWithin (permitted : Fault → Prop) (net : Network) (v : NodeId → Nat)
    (bound : List NodeId) : Prop :=
  net.Releasable v bound ∨
    (∀ m < net.size, m ∈ bound) ∧ ∀ m, permitted (.counterUnderflow m)

/-- The edges of the next node are counted. -/
theorem Releasing.count_le {v : NodeId → Nat} {bound : List NodeId} {n x : NodeId}
    {pending done : List NodeId} {s : Scratch} (hbound : net.Releasable v bound)
    (h : net.Releasing v bound n (x :: pending) done s) (m : NodeId) :
    net.loads (x :: done) m ≤ net.loads bound m ∧ count (net.fanins x) m ≤ s.valueAt m := by
  have hsub := List.Sublist.cons_cons x (List.sublist_append_right pending done)
  have hle : net.loads (x :: done) m ≤ net.loads bound m :=
    loads_le (h.nodup.sublist hsub) (fun y hy => h.bounded (hsub.subset hy)) m
  have hcounted := hbound.counted m
  have hvalue := h.values m
  refine ⟨hle, ?_⟩
  rw [loads_cons] at hle
  omega

/-- A gate outside the bound would have a reference left. -/
theorem Releasing.joins {v : NodeId → Nat} {bound : List NodeId} {n x m : NodeId}
    {pending done : List NodeId} {s : Scratch} (hlt : ∀ n m, net.Reads n m → m < net.size)
    (hbound : ReleasableWithin permitted net v bound)
    (h : net.Releasing v bound n (x :: pending) done s) (hgate : net.isTerminal m = false)
    (hlast : s.valueAt m = count (net.fanins x) m) (hreads : net.Reads x m) : m ∈ bound := by
  rcases hbound with hbound | ⟨hall, -⟩
  · by_contra hout
    have hmore := hbound.closed m hgate hout ⟨x, h.bounded List.mem_cons_self, hreads⟩
    have hle := (h.count_le hbound m).1
    have hformer := h.values m
    rw [loads_cons] at hle
    omega
  · exact hall m (hlt x m hreads)

theorem Releasing.step (hac : net.Acyclic) (hlt : ∀ n m, net.Reads n m → m < net.size)
    {v : NodeId → Nat} {bound : List NodeId} {n x : NodeId} {pending done : List NodeId}
    {s : Scratch} {r : Worklist} (hbound : ReleasableWithin permitted net v bound)
    (h : net.Releasing v bound n (x :: pending) done s)
    (hcount : ∀ m, count (net.fanins x) m ≤ s.valueAt m)
    (hr : net.Released (net.fanins x) pending s r) :
    net.Releasing v bound n r.1 (x :: done) r.2 := by
  obtain ⟨hvalues, joined, hjoined, hnodup, hmem⟩ := hr
  have hperm : (r.1 ++ x :: done).Perm (joined ++ (x :: pending ++ done)) := by
    rw [hjoined, List.append_assoc]
    exact List.Perm.append_left _ List.perm_middle
  have hxpath := h.path x List.mem_cons_self
  have hvalue : ∀ m, r.2.valueAt m + count (net.fanins x) m = s.valueAt m := by
    intro m
    have hle := hcount m
    rw [hvalues.valueAt]
    show s.valueAt m - count (net.fanins x) m + _ = _
    omega
  have hfresh : ∀ m ∈ joined, m ∉ x :: pending ++ done := by
    intro m hm hin
    obtain ⟨-, hlast, hcount⟩ := (hmem m).mp hm
    have hne : m ≠ n := by
      rintro rfl
      exact hac m (.tail' hxpath (count_fanins_pos.mp hcount))
    obtain ⟨-, hzero, -⟩ := h.member m hin hne
    omega
  refine ⟨?_, ?_, ?_, ?_, ?_, ?_, ?_⟩
  · intro m
    have hformer := h.values m
    have hnow := hvalue m
    rw [loads_cons]
    omega
  · rw [hperm.nodup_iff]
    exact hnodup.append h.nodup fun m hm hin => hfresh m hm hin
  · rw [hperm.mem_iff]
    exact List.mem_append_right _ h.root
  · intro m hm hne
    have hnow := hvalue m
    rw [hperm.mem_iff, List.mem_append] at hm
    rcases hm with hm | hm
    · obtain ⟨hgate, hlast, hcount⟩ := (hmem m).mp hm
      exact ⟨hgate, by omega, x, List.mem_cons_self, count_fanins_pos.mp hcount⟩
    · obtain ⟨hgate, hzero, y, hy, hyreads⟩ := h.member m hm hne
      exact ⟨hgate, by omega, y, List.mem_cons_of_mem _ hy, hyreads⟩
  · rintro m hne hgate hzero ⟨y, hy, hyreads⟩
    have hnow := hvalue m
    rw [hperm.mem_iff, List.mem_append]
    by_cases hpos : 0 < count (net.fanins x) m
    · exact .inl ((hmem m).mpr ⟨hgate, by omega, hpos⟩)
    · rcases List.mem_cons.mp hy with rfl | hy
      · exact absurd (count_fanins_pos.mpr hyreads) hpos
      · exact .inr (h.complete m hne hgate (by omega) ⟨y, hy, hyreads⟩)
  · intro m hm
    rw [hperm.mem_iff, List.mem_append] at hm
    rcases hm with hm | hm
    · exact hxpath.tail (count_fanins_pos.mp ((hmem m).mp hm).2.2)
    · exact h.path m hm
  · intro m hm
    rw [hperm.mem_iff, List.mem_append] at hm
    rcases hm with hm | hm
    · obtain ⟨hgate, hlast, hpos⟩ := (hmem m).mp hm
      exact h.joins hlt hbound hgate hlast (count_fanins_pos.mp hpos)
    · exact h.bounded hm

theorem releaseLoop_cons (cost : NodeCost) (total : Nat) (x : NodeId) (rest : List NodeId)
    (s : Scratch) :
    net.releaseLoop cost total (x :: rest, s) = (do
      let total ← addCost total (cost x)
      let next ← (net.fanins x).foldlM net.releaseEdge (rest, s)
      net.releaseLoop cost total next) := by
  rw [releaseLoop]
  cases addCost total (cost x) <;> cases (net.fanins x).foldlM net.releaseEdge (rest, s) <;> rfl

section Loops

variable (hac : net.Acyclic) (hlt : ∀ n m, net.Reads n m → m < net.size)

include hac hlt in
theorem releaseLoop_ends {cost : NodeCost} {v : NodeId → Nat} {bound : List NodeId}
    {n : NodeId} {total : Nat} {pending done : List NodeId} {s : Scratch}
    (hn : net.isGate n = true) (hbound : ReleasableWithin permitted net v bound)
    (hcost : AffordableWithin permitted net cost bound) (h : net.Releasing v bound n pending done s)
    (hsize : s.values.size = net.size)
    (htotal : total = costOf cost done) :
    Ends permitted (net.releaseLoop cost total (pending, s)) fun r =>
      ∃ v' cone, net.Cone v' n cone ∧ r.1 = costOf cost cone ∧
        (∀ m, v' m + net.loads cone m = v m) ∧ s.Revalued v' r.2 := by
  -- A node leaves the worklist in each round, and one that joins has lost a reference.
  induction hk : pending.length + s.references using Nat.strong_induction_on
    generalizing total pending done s with
  | _ k ih =>
    cases pending with
    | nil =>
      rw [releaseLoop]
      exact ⟨s.valueAt, done, h.cone, htotal, h.values, .refl s⟩
    | cons x pending =>
      rw [releaseLoop_cons]
      rw [htotal]
      have hmember : ∀ m ∈ x :: pending ++ done, m ≠ n →
          net.isTerminal m = false ∧ ∃ y, net.Reads y m := by
        intro m hm hne
        obtain ⟨hgate, -, y, -, hreads⟩ := h.member m hm hne
        exact ⟨hgate, y, hreads⟩
      refine (addCost_next_ends hlt hn hcost h.nodup (next_subset h.bounded) hmember).bind ?_
      rintro total' htotal'
      refine (foldlM_releaseEdge_ends (hsize ▸ fanins_lt hlt x) ?_).bind_eq ?_
      · exact hbound.imp (fun hbound m => (h.count_le hbound m).2) And.right
      rintro ⟨pending', s'⟩ hrun ⟨hcount, hnext⟩
      have hmeasure := foldlM_measure (fun r : Worklist => r.1.length + r.2.references)
        net.releaseEdge (fun _ _ _ => releaseEdge_measure) hrun
      refine (ih _ ?_ (h.step hac hlt hbound hcount hnext) (hnext.values.size.trans hsize) htotal'
        rfl).mono ?_
      · change pending'.length + s'.references ≤ pending.length + s.references at hmeasure
        change pending'.length + s'.references < k
        rw [List.length_cons] at hk
        omega
      · rintro r ⟨v', cone, hcone, htotal, hsum, hvalues⟩
        exact ⟨v', cone, hcone, htotal, hsum, hnext.values.trans hvalues⟩

end Loops

end Network

end LogicSynthesis
