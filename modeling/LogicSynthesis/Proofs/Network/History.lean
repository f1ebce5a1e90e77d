import LogicSynthesis.Proofs.Network.Assembly

/-!
# What watchers are told

The watchers of a network learn of every change to it. Each node that is appended is told once, in
the order of the numbers, and a gate that is found instead of appended is not told. A substitution
tells of the nodes whose fanins it changed, in ascending order and with the former fanins, once all
of them are changed. What was told since some moment is therefore enough to undo the edits since:
the fanins that were reported are put back, the latest first.

## Main definitions

- `Change`, `Network.changes` — what an operation did, read off the networks before and after it
- `Events.told` — what the watchers know when they are told of some changes
- `Network.History` — a run of operations with the changes that they made
- `Notification.undo` — puts the reported fanins back

## Main statements

- `Operates.events_eq` — an operation tells of its changes and of nothing else
- `undoAll_changes` — what it tells undoes its edits
- `watchers_told_whole_history` — the same for runs
-/

namespace LogicSynthesis

/-- A node was appended, or the fanins of a node were edited. -/
inductive Change where
  | added (n : NodeId)
  | edited (n : NodeId) (formerFanins : List Signal)
  deriving DecidableEq

/-- The node that was appended. -/
def Change.added? : Change → Option NodeId
  | added n => some n
  | edited _ _ => none

namespace Events

/-- The notifications of a change, one for each watcher of its kind, in the order of their
registration. -/
def tell (e : Events) : Change → List Notification
  | .added n => e.addWatchers.toList.map (.added · n)
  | .edited n former => e.modifiedWatchers.toList.map (.modified · n former)

/-- The watchers are told of one change after the other. -/
def told (e : Events) (changes : List Change) : Events :=
  { e with log := e.log ++ (changes.flatMap e.tell).toArray }

variable {e : Events} {changes : List Change}

theorem told_nil (e : Events) : e.told [] = e := by
  rw [told, List.flatMap_nil, Array.append_empty]

theorem told_told (e : Events) (changes later : List Change) :
    (e.told changes).told later = e.told (changes ++ later) := by
  have htell : (e.told changes).tell = e.tell := by
    funext c
    cases c <;> rfl
  rw [told, htell, told, told, List.flatMap_append, ← List.append_toArray, ← Array.append_assoc]

theorem notifyAdded_eq (e : Events) (n : NodeId) : e.notifyAdded n = e.told [.added n] := by
  rw [notifyAdded, told, Array.foldl_push_eq_append rfl, List.flatMap_singleton, tell,
    ← Array.toList_map, Array.toArray_toList]

theorem notifyModified_eq (e : Events) (n : NodeId) (former : List Signal) :
    e.notifyModified n former = e.told [.edited n former] := by
  rw [notifyModified, told, Array.foldl_push_eq_append rfl, List.flatMap_singleton, tell,
    ← Array.toList_map, Array.toArray_toList]

theorem foldl_notifyModified (e : Events) (edited : List (NodeId × List Signal)) :
    edited.foldl (fun events (n, former) => events.notifyModified n former) e =
      e.told (edited.map fun (n, former) => .edited n former) := by
  induction edited generalizing e with
  | nil => exact (told_nil e).symm
  | cons entry edited ih =>
    obtain ⟨n, former⟩ := entry
    rw [List.foldl_cons, ih]
    simp only [notifyModified_eq, told_told]
    rfl

end Events

/-! ### Undoing -/

/-- Puts back the fanins that were reported. -/
def Notification.undo : Notification → (NodeId → List Signal) → NodeId → List Signal
  | .added _ _, fanins => fanins
  | .modified _ n former, fanins => Function.update fanins n former

/-- Undoes what was told, the latest first. -/
def undoAll (told : List Notification) (fanins : NodeId → List Signal) : NodeId → List Signal :=
  told.foldr Notification.undo fanins

section Undo

variable {told : List Notification} {fanins fanins' former : NodeId → List Signal} {n : NodeId}

theorem undoAll_append (first second : List Notification) (fanins : NodeId → List Signal) :
    undoAll (first ++ second) fanins = undoAll first (undoAll second fanins) := List.foldr_append

/-- Each node is treated by itself. -/
theorem undoAll_congr (h : fanins n = fanins' n) :
    undoAll told fanins n = undoAll told fanins' n := by
  induction told with
  | nil => exact h
  | cons note told ih =>
    cases note with
    | added _ _ => exact ih
    | modified _ m edit =>
      rw [undoAll, undoAll, List.foldr_cons, List.foldr_cons, Notification.undo,
        Notification.undo, Function.update_apply, Function.update_apply]
      split
      · rfl
      · exact ih

/-- Where all reports of a node agree, it gets what they say, and it keeps its fanins if there are
none. -/
theorem undoAll_eq (hreports : ∀ w m edit, .modified w m edit ∈ told → edit = former m)
    (hother : (∃ w, .modified w n (former n) ∈ told) ∨ fanins n = former n) :
    undoAll told fanins n = former n := by
  induction told with
  | nil => exact hother.resolve_left fun ⟨_, hw⟩ => List.not_mem_nil hw
  | cons note told ih =>
    have hreports' : ∀ w m edit, .modified w m edit ∈ told → edit = former m :=
      fun w m edit hmem => hreports w m edit (List.mem_cons_of_mem _ hmem)
    cases note with
    | added v m =>
      refine ih hreports' (hother.imp_left fun ⟨w, hw⟩ => ⟨w, ?_⟩)
      exact (List.mem_cons.mp hw).resolve_left nofun
    | modified v m edit =>
      rw [undoAll, List.foldr_cons, Notification.undo, Function.update_apply]
      split
      · next heq => rw [heq, hreports v m edit List.mem_cons_self]
      · next hne =>
        refine ih hreports' (hother.imp_left fun ⟨w, hw⟩ => ⟨w, ?_⟩)
        refine (List.mem_cons.mp hw).resolve_left fun heq => hne ?_
        cases heq
        rfl

end Undo

namespace Network

variable {net mid net' : Network} {old : NodeId} {new : Signal} {past later : List Change}
  {n : NodeId}

/-! ### The changes -/

/-- The nodes whose fanins are others in `net'`, in ascending order. -/
def editedNodes (net net' : Network) : List NodeId :=
  net.nodeIds.filter fun n => net'.fanins n ≠ net.fanins n

/-- The nodes that `net'` has in addition, in ascending order. -/
def appendedNodes (net net' : Network) : List NodeId :=
  List.range' net.size (net'.size - net.size)

/-- What was done to `net`. -/
def changes (net net' : Network) : List Change :=
  (net.editedNodes net').map (fun n => .edited n (net.fanins n)) ++
    (net.appendedNodes net').map .added

theorem mem_editedNodes :
    n ∈ net.editedNodes net' ↔ n < net.size ∧ net'.fanins n ≠ net.fanins n := by
  rw [editedNodes, List.mem_filter, nodeIds, List.mem_range, decide_eq_true_iff]

theorem editedNodes_eq_nil (h : ∀ n < net.size, net'.fanins n = net.fanins n) :
    net.editedNodes net' = [] :=
  List.eq_nil_iff_forall_not_mem.mpr fun n hn =>
    (mem_editedNodes.mp hn).2 (h n (mem_editedNodes.mp hn).1)

theorem appendedNodes_of_size_eq (h : net'.size = net.size) : net.appendedNodes net' = [] := by
  rw [appendedNodes, h, Nat.sub_self, List.range'_zero]

theorem appendedNodes_append (h : net.size ≤ mid.size) (h' : mid.size ≤ net'.size) :
    net.appendedNodes mid ++ mid.appendedNodes net' = net.appendedNodes net' := by
  have hmid : mid.size = net.size + (mid.size - net.size) := by omega
  have hnet' : net'.size - net.size = mid.size - net.size + (net'.size - mid.size) := by omega
  rw [appendedNodes, appendedNodes, appendedNodes, hnet', ← List.range'_append_1, ← hmid]

theorem appendedNodes_succ (h : net'.size = net.size + 1) :
    net.appendedNodes net' = [net.size] := by
  rw [appendedNodes, h, Nat.add_sub_cancel_left, List.range'_one]

theorem filterMap_added_changes (net net' : Network) :
    (net.changes net').filterMap Change.added? = net.appendedNodes net' := by
  have hedited : ((net.editedNodes net').map fun n =>
      Change.edited n (net.fanins n)).filterMap Change.added? = [] :=
    List.filterMap_eq_nil_iff.mpr (List.forall_mem_map.mpr fun _ _ => rfl)
  have hadded : ((net.appendedNodes net').map Change.added).filterMap Change.added? =
      net.appendedNodes net' := by
    rw [List.filterMap_map]
    exact List.filterMap_some
  rw [changes, List.filterMap_append, hedited, hadded, List.nil_append]

/-! ### Constructions -/

theorem events_appendGate (net : Network) (fanins : List Signal) (literal : Nat) :
    (net.appendGate fanins literal).2.events = net.events.told [.added net.size] := by
  have hevents : (net.appendGate fanins literal).2.events =
      net.events.notifyAdded (countReaders net.nodes fanins).size := rfl
  rw [hevents, size_countReaders, Events.notifyAdded_eq, size]

/-- Growing tells of the new gates. -/
theorem GrowsTo.events_eq (h : net.GrowsTo net') (hwf : net.WellFormed) :
    net'.events = net.events.told ((net.appendedNodes net').map .added) := by
  induction h with
  | refl => rw [appendedNodes_of_size_eq rfl, List.map_nil, Events.told_nil]
  | @gate mid net' fanins literal _ former hfits hcreate ih =>
    rcases createNode_eq_ok hcreate with ⟨-, rfl⟩ | ⟨-, rfl, -⟩
    · exact ih
    · have hsize := size_appendGate mid fanins literal
      have happended := appendedNodes_append (former.extends hwf).size_le
        (hsize.symm ▸ Nat.le_succ mid.size : mid.size ≤ (mid.appendGate fanins literal).2.size)
      rw [events_appendGate, ih, Events.told_told, ← happended, appendedNodes_succ hsize,
        List.map_append]
      rfl
  | function _ _ ih => exact ih

/-- A construction tells of the nodes that it appended, and edits none. -/
theorem Constructs.events_eq (h : net.Constructs net') (hwf : net.WellFormed) :
    net'.events = net.events.told ((net.appendedNodes net').map .added) := by
  cases h with
  | pi =>
    have hsize : net.addPi.2.size = net.size + 1 := Array.size_push _
    rw [appendedNodes_succ hsize]
    exact net.events.notifyAdded_eq net.size
  | ro =>
    have hsize : net.addRo.2.size = net.size + 1 := Array.size_push _
    rw [appendedNodes_succ hsize]
    exact net.events.notifyAdded_eq net.size
  | po _ hadd =>
    rw [appendedNodes_of_size_eq (addsOutput_of_addPo hadd).size, List.map_nil, Events.told_nil]
    obtain ⟨-, -, heq⟩ := bind_eq_ok hadd
    obtain ⟨-, rfl⟩ := Prod.mk.inj (Except.ok.inj heq)
    rfl
  | ri _ hadd =>
    rw [appendedNodes_of_size_eq (addsOutput_of_addRi hadd).size, List.map_nil, Events.told_nil]
    obtain ⟨-, -, heq⟩ := bind_eq_ok hadd
    obtain ⟨-, rfl⟩ := Prod.mk.inj (Except.ok.inj heq)
    rfl
  | operator hop hrun => exact (hop.grows hwf hrun).events_eq hwf
  | clone hmodel _ _ hrun => exact (Build.grows_of_cloneNode hmodel hwf hrun).events_eq hwf

/-- The nodes that were there keep their fanins. -/
theorem Constructs.size_le_and_fanins_eq (h : net.Constructs net') (hwf : net.WellFormed) :
    net.size ≤ net'.size ∧ ∀ n < net.size, net'.fanins n = net.fanins n := by
  have hinput : ∀ kind (net' : Network), net'.nodes = net.nodes.push (inputNode kind) →
      net.size ≤ net'.size ∧ ∀ n < net.size, net'.fanins n = net.fanins n := by
    intro kind net' hnodes
    have hsize : net'.size = net.size + 1 := (congrArg Array.size hnodes).trans (Array.size_push _)
    refine ⟨hsize ▸ Nat.le_succ _, fun n hn => ?_⟩
    exact (@fanins_push net net' (inputNode kind) hnodes n).trans (if_neg hn.ne)
  cases h with
  | pi => exact hinput .primaryInput _ rfl
  | ro => exact hinput .registerOutput _ rfl
  | po _ hadd =>
    have hadds := addsOutput_of_addPo hadd
    exact ⟨hadds.size.ge, fun n _ => fanins_countReaders hadds.nodes n⟩
  | ri _ hadd =>
    have hadds := addsOutput_of_addRi hadd
    exact ⟨hadds.size.ge, fun n _ => fanins_countReaders hadds.nodes n⟩
  | operator hop hrun =>
    have hext := (hop.grows hwf hrun).extends hwf
    exact ⟨hext.size_le, fun _ => hext.fanins_eq⟩
  | clone hmodel _ _ hrun =>
    have hext := (Build.grows_of_cloneNode hmodel hwf hrun).extends hwf
    exact ⟨hext.size_le, fun _ => hext.fanins_eq⟩

theorem Constructs.changes_eq (h : net.Constructs net') (hwf : net.WellFormed) :
    net.changes net' = (net.appendedNodes net').map .added := by
  rw [changes, editedNodes_eq_nil (h.size_le_and_fanins_eq hwf).2, List.map_nil, List.nil_append]

/-! ### Substitutions -/

/-- A substitution after the gates below `k` were visited. -/
def partlyRerouted (net : Network) (old : NodeId) (new : Signal) (node : Node) (k : Nat) :
    Rerouting :=
  (List.range k).foldl (rerouteGate old new)
    ⟨{ net with index := forgetEntry net.index old node }, 0, []⟩

theorem partlyRerouted_succ (net : Network) (old : NodeId) (new : Signal) (node : Node) (k : Nat) :
    net.partlyRerouted old new node (k + 1) =
      rerouteGate old new (net.partlyRerouted old new node k) k := by
  rw [partlyRerouted, List.range_succ, List.foldl_append, List.foldl_cons, List.foldl_nil]
  rfl

/-- Nobody is told before the last gate is edited. -/
theorem events_partlyRerouted (net : Network) (old : NodeId) (new : Signal) (node : Node)
    (k : Nat) : (net.partlyRerouted old new node k).net.events = net.events := by
  induction k with
  | zero => rfl
  | succ k ih =>
    rw [partlyRerouted_succ, rerouteGate, ← ih]
    split
    · rfl
    · split <;> rfl

/-- Rerouting a node changes its fanins just when one of them read the replaced gate: none of the
new fanins does. -/
theorem reroute_ne_iff {basis : Basis} (hne : new.node ≠ old) {fanins : List Signal} :
    reroute basis old new n fanins ≠ fanins ↔
      n ≠ new.node ∧ fanins.any (·.node == old) = true := by
  constructor
  · intro hdiff
    by_contra hcond
    exact hdiff (reroute_of_not hcond)
  · rintro ⟨hn, hany⟩ heq
    obtain ⟨s, hs, hold⟩ := List.any_eq_true.mp hany
    rw [← heq] at hs
    obtain ⟨-, s', -, rfl⟩ := (mem_reroute hs).resolve_left fun hnew => hn hnew.1
    have hnode := eq_of_beq hold
    unfold redirect at hnode
    split at hnode
    · exact hne hnode
    · contradiction

theorem edited_rerouteGate {state : Rerouting} {k : NodeId} {node : Node}
    (hk : state.net.nodes[k]? = some node) :
    (rerouteGate old new state k).edited =
      if k ≠ new.node ∧ node.kind.isGate = true ∧ node.fanins.any (·.node == old) = true then
        (k, node.fanins) :: state.edited
      else state.edited := by
  simp only [rerouteGate, hk]
  split <;> rfl

/-- The nodes whose fanins change, in the order in which they are visited. -/
theorem edited_partlyRerouted (hwf : net.WellFormed) (hne : new.node ≠ old) (node : Node) {k : Nat}
    (hle : k ≤ net.size) :
    (net.partlyRerouted old new node k).edited.reverse =
      ((List.range k).filter fun n =>
        reroute net.basis old new n (net.fanins n) ≠ net.fanins n).map
          fun n => (n, net.fanins n) := by
  induction k with
  | zero => rfl
  | succ k ih =>
    obtain ⟨found, hfound⟩ := exists_node (Nat.lt_of_succ_le hle)
    have hfanins := fanins_eq hfound
    have hstate : Rerouted net old new k (net.partlyRerouted old new node k) :=
      rerouted_foldl hwf hne node k
    have hk := hstate.nodes k
    simp only [lt_irrefl, if_false, Option.map_id', hfound] at hk
    have hiff : (k ≠ new.node ∧ found.kind.isGate = true ∧
        found.fanins.any (·.node == old) = true) ↔
          reroute net.basis old new k (net.fanins k) ≠ net.fanins k := by
      rw [hfanins, reroute_ne_iff hne]
      refine and_congr_right fun _ => and_iff_right_of_imp fun hany => ?_
      obtain ⟨s, hs, -⟩ := List.any_eq_true.mp hany
      have hreads : net.Reads k s.node := reads_iff.mpr ⟨s, hfanins.symm ▸ hs, rfl⟩
      have hgate := hwf.isGate_of_reads hreads
      rwa [isGate, kindIs_eq hfound] at hgate
    rw [partlyRerouted_succ, List.range_succ, List.filter_append, List.map_append,
      ← ih (Nat.le_of_succ_le hle), edited_rerouteGate hk, List.filter_cons, List.filter_nil]
    by_cases hedit : reroute net.basis old new k (net.fanins k) ≠ net.fanins k
    · rw [if_pos (hiff.mpr hedit), if_pos (decide_eq_true hedit), List.reverse_cons, ← hfanins]
      rfl
    · rw [if_neg (mt hiff.mp hedit), if_neg (by rwa [decide_eq_true_iff]), List.map_nil,
        List.append_nil]

/-- A substitution tells of the nodes that it edited. -/
theorem events_substitute (hwf : net.WellFormed) (hsub : net.substitute old new = .ok net') :
    net'.events =
      net.events.told ((net.editedNodes net').map fun n => .edited n (net.fanins n)) := by
  obtain ⟨hold, ⟨-, rfl⟩ | ⟨hne, hnew, hspec, -⟩⟩ := substitute_spec hwf hsub
  · rw [editedNodes_eq_nil fun _ _ => rfl, List.map_nil, Events.told_nil]
  · obtain ⟨node, hnode, hkind⟩ := isGate_iff.mp hold
    have heq := Except.ok.inj ((substitute_eq hwf hnode hkind hnew hne).symm.trans hsub)
    have hevents : net'.events =
        (net.partlyRerouted old new node net.size).edited.reverse.foldl
          (fun events (n, former) => events.notifyModified n former)
            (net.partlyRerouted old new node net.size).net.events := by
      rw [← heq]
      rfl
    rw [hevents, events_partlyRerouted, edited_partlyRerouted hwf hne _ le_rfl,
      Events.foldl_notifyModified, List.map_map, editedNodes, nodeIds]
    simp only [hspec.fanins_eq]
    rfl

/-! ### Runs -/

/-- One operation that leaves the watchers alone: a construction, a substitution, or notes. -/
inductive Operates (net : Network) : Network → Prop
  | construct {net' : Network} (h : net.Constructs net') : Operates net net'
  | substitute {old : NodeId} {new : Signal} {net' : Network} (hnew : net.basis.Admits new)
      (hsub : net.substitute old new = .ok net') : Operates net net'
  | annotate {scratch : Scratch} (hvalues : scratch.values.size = net.size)
      (hmarks : scratch.marks.size = net.size) : Operates net (net.withScratch scratch)

theorem Operates.edits (h : net.Operates net') : net.Edits net' := by
  cases h with
  | construct h => exact .construct h
  | substitute hnew hsub => exact .substitute hnew hsub
  | annotate hvalues hmarks => exact .annotate hvalues hmarks

theorem Operates.size_le (h : net.Operates net') (hwf : net.WellFormed) : net.size ≤ net'.size := by
  cases h with
  | construct h => exact (h.size_le_and_fanins_eq hwf).1
  | substitute _ hsub =>
    rcases (substitute_spec hwf hsub).2 with ⟨-, rfl⟩ | ⟨-, -, hspec, -⟩
    · exact le_rfl
    · exact hspec.size.ge
  | annotate => exact le_rfl

/-- An operation tells of its changes, and of nothing else. -/
theorem Operates.events_eq (h : net.Operates net') (hwf : net.WellFormed) :
    net'.events = net.events.told (net.changes net') := by
  cases h with
  | construct h => rw [h.events_eq hwf, h.changes_eq hwf]
  | substitute _ hsub =>
    have hsize : net'.size = net.size := by
      rcases (substitute_spec hwf hsub).2 with ⟨-, rfl⟩ | ⟨-, -, hspec, -⟩
      · rfl
      · exact hspec.size
    rw [events_substitute hwf hsub, changes, appendedNodes_of_size_eq hsize, List.map_nil,
      List.append_nil]
  | @annotate scratch =>
    have hedited : net.editedNodes (net.withScratch scratch) = [] :=
      editedNodes_eq_nil fun _ _ => rfl
    have happended : net.appendedNodes (net.withScratch scratch) = [] :=
      appendedNodes_of_size_eq rfl
    rw [changes, hedited, happended]
    exact (Events.told_nil _).symm

/-- What is told of the changes of an operation undoes its edits. -/
theorem undoAll_changes (e : Events) (hwatched : e.modifiedWatchers ≠ #[]) (hn : n < net.size) :
    undoAll ((net.changes net').flatMap e.tell) net'.fanins n = net.fanins n := by
  have hmodified : ∀ w m edit,
      Notification.modified w m edit ∈ (net.changes net').flatMap e.tell ↔
        w ∈ e.modifiedWatchers.toList ∧ m ∈ net.editedNodes net' ∧ edit = net.fanins m := by
    intro w m edit
    simp only [changes, List.flatMap_append, List.flatMap_map, List.mem_append, List.mem_flatMap,
      Events.tell, List.mem_map, Notification.modified.injEq, reduceCtorEq, and_false, exists_false,
      or_false]
    constructor
    · rintro ⟨m', hm', w', hw', rfl, rfl, rfl⟩
      exact ⟨hw', hm', rfl⟩
    · rintro ⟨hw, hm, rfl⟩
      exact ⟨m, hm, w, hw, rfl, rfl, rfl⟩
  refine undoAll_eq (fun w m edit hmem => ((hmodified w m edit).mp hmem).2.2) ?_
  by_cases hedit : net'.fanins n = net.fanins n
  · exact .inr hedit
  · obtain ⟨w, hw⟩ := List.exists_mem_of_ne_nil _ fun hnil =>
      hwatched (Array.toList_eq_nil_iff.mp hnil)
    exact .inl ⟨w, (hmodified w n _).mpr ⟨hw, mem_editedNodes.mpr ⟨hn, hedit⟩, rfl⟩⟩

/-- A run of operations, with the changes that they made, the oldest first. -/
inductive History (net : Network) : List Change → Network → Prop
  | refl : History net [] net
  | step {past : List Change} {mid net' : Network} (former : History net past mid)
      (h : mid.Operates net') : History net (past ++ mid.changes net') net'

namespace History

theorem assembled (h : net.History past net') (hnet : net.Assembled) : net'.Assembled := by
  induction h with
  | refl => exact hnet
  | step _ h ih => exact ih.edit h.edits

theorem events_eq (h : net.History past net') (hnet : net.Assembled) :
    net'.events = net.events.told past := by
  induction h with
  | refl => exact (Events.told_nil _).symm
  | step former h ih =>
    rw [h.events_eq (former.assembled hnet).built.wellFormed, ih, Events.told_told]

theorem size_le (h : net.History past net') (hnet : net.Assembled) : net.size ≤ net'.size := by
  induction h with
  | refl => exact le_rfl
  | step former h ih => exact ih.trans (h.size_le (former.assembled hnet).built.wellFormed)

/-- Each node that was appended was told once, in the order of the numbers. -/
theorem filterMap_added (h : net.History past net') (hnet : net.Assembled) :
    past.filterMap Change.added? = net.appendedNodes net' := by
  induction h with
  | refl => exact (appendedNodes_of_size_eq rfl).symm
  | @step past mid net' former h ih =>
    rw [List.filterMap_append, ih, filterMap_added_changes]
    exact appendedNodes_append (former.size_le hnet)
      (h.size_le (former.assembled hnet).built.wellFormed)

theorem undoAll_eq (h : net.History past net') (hnet : net.Assembled) (e : Events)
    (hwatched : e.modifiedWatchers ≠ #[]) (hn : n < net.size) :
    undoAll (past.flatMap e.tell) net'.fanins n = net.fanins n := by
  induction h with
  | refl => rfl
  | @step past mid net' former h ih =>
    have hmid : undoAll ((mid.changes net').flatMap e.tell) net'.fanins n = mid.fanins n :=
      undoAll_changes e hwatched (hn.trans_le (former.size_le hnet))
    rw [List.flatMap_append, undoAll_append, undoAll_congr hmid, ih]

end History

/-- The watchers of a network are told its whole history. A construction tells of the nodes that it
appends, each once and in the order of the numbers, and a gate that is found is not told. A
substitution tells of the nodes whose fanins it changed, each once and in ascending order, with the
fanins from before the substitution, and nobody is told before all of them are edited. A run of
operations tells of its changes one after the other. Where edits are watched, undoing what was told
since any state of the run, the latest first, gives the fanins of that state. -/
theorem watchers_told_whole_history (hnet : net.Assembled) :
    (∀ net', net.Constructs net' →
      net'.events = net.events.told ((net.appendedNodes net').map .added)) ∧
    (∀ fanins literal found n net', net.index[(fanins, literal)]? = some found →
      net.createNode fanins literal = .ok (n, net') →
        net'.size = net.size ∧ net'.events = net.events) ∧
    (∀ old new net', net.substitute old new = .ok net' →
      net'.events =
          net.events.told ((net.editedNodes net').map fun n => .edited n (net.fanins n)) ∧
        ∀ node k, (net.partlyRerouted old new node k).net.events = net.events) ∧
    ∀ past mid, net.History past mid →
      mid.events = net.events.told past ∧
      past.filterMap Change.added? = net.appendedNodes mid ∧
      (net.events.modifiedWatchers ≠ #[] → ∀ later net', mid.History later net' →
        ∃ told, net'.events.log.toList = mid.events.log.toList ++ told ∧
          ∀ n < mid.size, undoAll told net'.fanins n = mid.fanins n) := by
  have hwf := hnet.built.wellFormed
  refine ⟨fun net' h => h.events_eq hwf, ?_, ?_, ?_⟩
  · intro fanins literal found n net' hfound hcreate
    obtain ⟨-, rfl⟩ := Prod.mk.inj
      (Except.ok.inj ((createNode_of_index hfound).symm.trans hcreate))
    exact ⟨rfl, rfl⟩
  · exact fun old new net' hsub => ⟨events_substitute hwf hsub, events_partlyRerouted net old new⟩
  · intro past mid hpast
    have hmid := hpast.assembled hnet
    have hevents := hpast.events_eq hnet
    refine ⟨hevents, hpast.filterMap_added hnet, fun hwatched later net' hlater => ?_⟩
    refine ⟨later.flatMap mid.events.tell, ?_, fun n hn => hlater.undoAll_eq hmid _ ?_ hn⟩
    · rw [hlater.events_eq hmid, Events.told, Array.toList_append]
    · rw [hevents]
      exact hwatched

/-- The conjunction of three inputs with a watcher of additions and two watchers of edits. -/
def watchedConjunction : Network :=
  { tappedConjunction with
    events := ((tappedConjunction.events.watchAdded "a").watchModified "b").watchModified "c" }

theorem watchers_told_whole_history_watchedConjunction :
    ∃ net' : Network, watchedConjunction.substitute 4 ⟨1, true⟩ = .ok net' ∧
      net'.events.log.toList =
        [.modified "b" 5 [⟨3, false⟩, ⟨4, false⟩], .modified "c" 5 [⟨3, false⟩, ⟨4, false⟩]] ∧
      net'.addPi.2.events.log.toList = net'.events.log.toList ++ [.added "a" 6] ∧
      ∃ told, net'.addPi.2.events.log.toList = watchedConjunction.events.log.toList ++ told ∧
        undoAll told net'.addPi.2.fanins 5 = [⟨3, false⟩, ⟨4, false⟩] := by
  have hnet : watchedConjunction.Assembled := assembled_tappedConjunction.edit (.watch _)
  obtain ⟨-, -, hsubstitute, hruns⟩ := watchers_told_whole_history hnet
  have hgate : watchedConjunction.isGate 4 = true := by decide
  have hnew : (⟨1, true⟩ : Signal).node < watchedConjunction.size := by decide
  have hne : (⟨1, true⟩ : Signal).node ≠ 4 := by decide
  obtain ⟨net', hsub, hspec, -⟩ := exists_substitute hnet.built.wellFormed hgate hnew hne
  have hedited : watchedConjunction.editedNodes net' = [5] := by
    simp only [editedNodes, hspec.fanins_eq, reroute_ne_iff hne]
    decide
  have htold := (hsubstitute 4 ⟨1, true⟩ net' hsub).1
  rw [hedited] at htold
  have hadmits : watchedConjunction.basis.Admits ⟨1, true⟩ := fun hlut => absurd hlut (by decide)
  have hrun : watchedConjunction.History _ net' := .step .refl (.substitute hadmits hsub)
  have hrun' : watchedConjunction.History _ net'.addPi.2 := .step hrun (.construct .pi)
  obtain ⟨told, hlog, hundo⟩ := (hruns [] _ .refl).2.2 (by decide) _ _ hrun'
  refine ⟨net', hsub, ?_, ?_, told, hlog, hundo 5 (by decide)⟩
  · rw [htold]
    rfl
  · have hsize : net'.nodes.size = 6 := hspec.size
    have hevents : net'.addPi.2.events = net'.events.told [.added net'.nodes.size] :=
      net'.events.notifyAdded_eq net'.nodes.size
    rw [hevents, hsize, htold]
    rfl

end Network

end LogicSynthesis
