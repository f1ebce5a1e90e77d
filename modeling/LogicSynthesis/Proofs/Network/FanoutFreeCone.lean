import LogicSynthesis.Proofs.Network.ReferenceCounts
import LogicSynthesis.Proofs.Network.Substitution

/-!
# Dropping and restoring cones

On networks whose values hold reference counts, releasing and acquiring never run out of
references, and each undoes the other to the last count. So the cost of a cone is found without a
mismatch and without a trace. With other counts a fault may stop them, but what they do and undo is
the same.

## Main definitions

- `Network.IsCone` — the cone of a gate; inputs and constants have none
- `Network.Detects` — the answer to the search for a node while another one is acquired
- `Network.FreedCost` — what the cone of a node costs
- `Network.totalCost` — the cost of all gates
- `Network.Bounded` — costs and edges are in range

## Main statements

- `release_within`, `acquireContaining_within` — the two operations, up to permitted faults
- `release_ends`, `acquireContaining_ends` — the two operations, with the counts of edges
- `IsAcquired.release`, `acquire_restores` — each undoes the other
- `coneCost_freed` — the cost of a cone
- `initReferenceCounts_ends` — the counts at the start of a pass
-/

namespace LogicSynthesis.Network

variable {net : Network} {permitted : Fault → Prop} {cost : NodeCost} {n : NodeId}

/-- The gates that come and go with `n`. -/
def IsCone (net : Network) (v : NodeId → Nat) (n : NodeId) (cone : List NodeId) : Prop :=
  if net.isTerminal n then cone = [] else net.Cone v n cone

theorem IsCone.perm (hac : net.Acyclic) {v : NodeId → Nat} {cone cone' : List NodeId}
    (h : net.IsCone v n cone) (h' : net.IsCone v n cone') : cone.Perm cone' := by
  unfold IsCone at h h'
  split at h
  · next hterm =>
    rw [if_pos hterm] at h'
    rw [h, h']
  · next hterm =>
    rw [if_neg hterm] at h'
    exact Cone.perm hac h h'

theorem IsCone.unique (hac : net.Acyclic) {v v' : NodeId → Nat} {cone cone' : List NodeId}
    (h : net.IsCone v n cone) (h' : net.IsCone v' n cone')
    (hsum : ∀ m, v m + net.loads cone m = v' m + net.loads cone' m) :
    v = v' ∧ cone.Perm cone' := by
  unfold IsCone at h h'
  split at h
  · next hterm =>
    rw [if_pos hterm] at h'
    subst h
    subst h'
    exact ⟨funext hsum, .refl _⟩
  · next hterm =>
    rw [if_neg hterm] at h'
    exact cone_unique hac h h' hsum

theorem IsCone.cone (hterm : net.isTerminal n = false) {v : NodeId → Nat} {cone : List NodeId}
    (h : net.IsCone v n cone) : net.Cone v n cone := by
  rwa [IsCone, hterm, if_neg Bool.false_ne_true] at h

theorem IsCone.nodup {v : NodeId → Nat} {cone : List NodeId} (h : net.IsCone v n cone) :
    cone.Nodup := by
  unfold IsCone at h
  split at h
  · rw [h]
    exact List.nodup_nil
  · exact Cone.nodup h

/-- A cone consists of gates. -/
theorem IsCone.isGate (hwf : net.WellFormed) (hn : n < net.size) {v : NodeId → Nat}
    {cone : List NodeId} (h : net.IsCone v n cone) : ∀ m ∈ cone, net.isGate m = true := by
  intro m hm
  unfold IsCone at h
  split at h
  · rw [h] at hm
    cases hm
  · next hterm =>
    by_cases heq : m = n
    · subst heq
      exact isGate_of_not_isTerminal hn hterm
    · obtain ⟨hgate, -, x, -, hreads⟩ := (h.mem_iff m heq).mp hm
      exact isGate_of_reads_of_not_terminal (fun _ _ h => hwf.reads_lt h) hreads hgate

/-- A cone stays a cone when the network is extended. -/
theorem IsCone.extends {net' : Network} (hext : net.Extends net') (hwf : net.WellFormed)
    {v : NodeId → Nat} {cone : List NodeId} (hn : n < net.size) (h : net.IsCone v n cone) :
    net'.IsCone v n cone ∧ ∀ m, net'.loads cone m = net.loads cone m := by
  have hterm : ∀ m, m < net.size → net'.isTerminal m = net.isTerminal m :=
    fun m hm => hext.kindIs_eq _ hm
  unfold IsCone at h ⊢
  rw [hterm n hn]
  split at h
  · next hn =>
    rw [if_pos hn, h]
    exact ⟨rfl, fun _ => rfl⟩
  · next hn' =>
    rw [if_neg hn']
    have hlt : ∀ m ∈ cone, m < net.size := by
      intro m hm
      by_cases heq : m = n
      · rw [heq]
        exact hn
      · obtain ⟨-, -, x, -, hreads⟩ := (h.mem_iff m heq).mp hm
        exact hwf.reads_lt hreads
    have hreaders : ∀ m, (∃ x ∈ cone, net'.Reads x m) ↔ ∃ x ∈ cone, net.Reads x m :=
      fun m => exists_congr fun x => and_congr_right fun hx => hext.reads_iff (hlt x hx)
    refine ⟨⟨h.nodup, h.root, ?_, ?_⟩, ?_⟩
    · intro m hne
      rw [h.mem_iff m hne, hreaders]
      constructor
      · rintro ⟨hgate, hzero, x, hx, hreads⟩
        exact ⟨(hterm m (hwf.reads_lt hreads)).trans hgate, hzero, x, hx, hreads⟩
      · rintro ⟨hgate, hzero, x, hx, hreads⟩
        exact ⟨(hterm m (hwf.reads_lt hreads)).symm.trans hgate, hzero, x, hx, hreads⟩
    · intro m hm
      have hpath := h.path m hm
      -- A path from an old node stays among the old nodes.
      have hstays : ∀ k, Relation.ReflTransGen net.Reads n k →
          Relation.ReflTransGen net'.Reads n k ∧ k < net.size := by
        intro k hk
        induction hk with
        | refl => exact ⟨.refl, hn⟩
        | tail _ hreads ih =>
          exact ⟨ih.1.tail ((hext.reads_iff ih.2).mpr hreads), hwf.reads_lt hreads⟩
      exact (hstays m hpath).1
    · intro m
      rw [loads, loads]
      congr 1
      exact List.map_congr_left fun x hx => by rw [hext.fanins_eq (hlt x hx)]

/-- What the gates of a cone meet is the same when the network is extended. -/
theorem IsCone.meets_extends {net' : Network} (hext : net.Extends net') (hwf : net.WellFormed)
    {v : NodeId → Nat} {cone : List NodeId} (hn : n < net.size) (h : net.IsCone v n cone)
    (m : NodeId) : net'.Meets cone m ↔ net.Meets cone m := by
  refine exists_congr fun x => and_congr_right fun hx => or_congr_right ?_
  exact hext.reads_iff (lt_size_of_kindIs (h.isGate hwf hn x hx))

/-! ### Totals in range -/

theorem addCost_lt {a b total : Nat} (h : addCost a b = .ok total) : total < costBound := by
  obtain ⟨_, hrange, heq⟩ := bind_eq_ok h
  obtain rfl := Except.ok.inj heq
  exact of_decide_eq_true (require_eq_ok hrange)

theorem releaseLoop_lt {total : Nat} {state : Worklist} {r : Nat × Scratch}
    (htotal : total < costBound) (h : net.releaseLoop cost total state = .ok r) :
    r.1 < costBound := by
  fun_induction net.releaseLoop cost total state with
  | case1 total scratch =>
    obtain rfl := Except.ok.inj h
    exact htotal
  | case2 total x rest scratch total' next _ hadd ih => exact ih (addCost_lt hadd) h
  | case3 => cases h
  | case4 => cases h

theorem acquireLoop_lt {target : NodeId} {total : Nat} {found : Bool} {state : Worklist}
    {r : (Nat × Bool) × Scratch} (htotal : total < costBound)
    (h : net.acquireLoop cost target total found state = .ok r) : r.1.1 < costBound := by
  fun_induction net.acquireLoop cost target total found state with
  | case1 total found scratch =>
    obtain rfl := Except.ok.inj h
    exact htotal
  | case2 total found x rest scratch total' next _ hadd ih => exact ih (addCost_lt hadd) h
  | case3 => cases h
  | case4 => cases h

theorem release_lt {r : Nat × Network} (h : net.release cost n = .ok r) : r.1 < costBound := by
  obtain ⟨node, -, h⟩ := bind_eq_ok h
  split at h
  · obtain rfl := Except.ok.inj h
    exact Nat.zero_lt_succ _
  · cases hloop : (net.withScratch {}).releaseLoop cost 0 ([n], net.scratch) with
    | error fault =>
      rw [onScratch, hloop] at h
      cases h
    | ok r' =>
      rw [onScratch, hloop] at h
      obtain rfl := Except.ok.inj h
      exact releaseLoop_lt (Nat.zero_lt_succ _) hloop

theorem acquireContaining_lt {target : NodeId} {r : (Nat × Bool) × Network}
    (h : net.acquireContaining cost n target = .ok r) : r.1.1 < costBound := by
  obtain ⟨node, -, h⟩ := bind_eq_ok h
  split at h
  · obtain rfl := Except.ok.inj h
    exact Nat.zero_lt_succ _
  · cases hloop : (net.withScratch {}).acquireLoop cost target 0 false ([n], net.scratch) with
    | error fault =>
      rw [onScratch, hloop] at h
      cases h
    | ok r' =>
      rw [onScratch, hloop] at h
      obtain rfl := Except.ok.inj h
      exact acquireLoop_lt (Nat.zero_lt_succ _) hloop

/-! ### Releasing and acquiring -/

theorem acyclic_withScratch (hac : net.Acyclic) (scratch : Scratch) :
    (net.withScratch scratch).Acyclic := hac

theorem withScratch_self (net : Network) : net.withScratch net.scratch = net := rfl

theorem cone_of_withScratch {scratch : Scratch} {v : NodeId → Nat} {cone : List NodeId}
    (h : (net.withScratch scratch).Cone v n cone) : net.Cone v n cone :=
  ⟨h.nodup, h.root, h.mem_iff, h.path⟩

theorem IsCone.of_withScratch {scratch : Scratch} {v : NodeId → Nat} {cone : List NodeId}
    (h : (net.withScratch scratch).IsCone v n cone) : net.IsCone v n cone := by
  unfold IsCone at h ⊢
  split at h
  · next hterm =>
    rw [if_pos (by exact hterm)]
    exact h
  · next hterm =>
    rw [if_neg (by exact hterm)]
    exact cone_of_withScratch h

/-- The state after a node was released: less its cone. -/
structure IsReleased (net : Network) (cost : NodeCost) (n : NodeId) (r : Nat × Network) : Prop where
  spec : ∃ v' cone scratch', net.IsCone v' n cone ∧ r.1 = costOf cost cone ∧
    (∀ m, v' m + net.loads cone m = net.scratch.valueAt m) ∧
    net.scratch.Revalued v' scratch' ∧ r.2 = net.withScratch scratch'

/-- The state after a node was acquired: more by its cone. -/
structure IsAcquired (net : Network) (cost : NodeCost) (n : NodeId) (r : (Nat × Bool) × Network) :
    Prop where
  spec : ∃ cone scratch', net.IsCone net.scratch.valueAt n cone ∧ r.1.1 = costOf cost cone ∧
    net.scratch.Revalued (fun m => net.scratch.valueAt m + net.loads cone m) scratch' ∧
    r.2 = net.withScratch scratch'

/-- The answer after `n` was acquired: whether its cone meets `target`. -/
def Detects (net : Network) (n target : NodeId) (found : Bool) : Prop :=
  ∀ cone, net.IsCone net.scratch.valueAt n cone → (found = true ↔ net.Meets cone target)

theorem releasable_withScratch {v : NodeId → Nat} {bound : List NodeId}
    (h : net.Releasable v bound) (scratch : Scratch) :
    (net.withScratch scratch).Releasable v bound := ⟨h.counted, h.closed⟩

theorem WellFormed.revalue (h : net.WellFormed) {v : NodeId → Nat} {scratch : Scratch}
    (hscratch : net.scratch.Revalued v scratch) : (net.withScratch scratch).WellFormed :=
  h.withScratch (hscratch.size.trans h.values) ((congrArg Array.size hscratch.marks).trans h.marks)

theorem isTerminal_eq_kind {node : Node} (hnode : net.nodes[n]? = some node) :
    node.kind.isTerminal = net.isTerminal n := (kindIs_eq hnode).symm

/-- Releasing is possible as soon as some nodes can be released that cost little together. -/
theorem release_within (hwf : net.WellFormed) (hac : net.Acyclic) (hn : n < net.size)
    (hbound : net.isGate n = true → ∃ bound, n ∈ bound ∧
      ReleasableWithin permitted net net.scratch.valueAt bound ∧
        AffordableWithin permitted net cost bound) :
    Ends permitted (net.release cost n) (net.IsReleased cost n) := by
  obtain ⟨node, hnode⟩ := exists_node hn
  rw [release, node_eq hnode, ok_bind, isTerminal_eq_kind hnode]
  cases hterm : net.isTerminal n with
  | true =>
    refine ⟨net.scratch.valueAt, [], net.scratch, ?_, rfl, fun _ => rfl, .refl _, rfl⟩
    rw [IsCone, if_pos hterm]
  | false =>
    have hgate := isGate_of_not_isTerminal hn (ne_true_of_eq_false hterm)
    obtain ⟨bound, hmem, hbound, hcost⟩ := hbound hgate
    have hbound' : ReleasableWithin permitted (net.withScratch {}) net.scratch.valueAt bound :=
      hbound.imp_left fun h => releasable_withScratch h {}
    have hends := releaseLoop_ends (acyclic_withScratch hac {}) (fun _ _ h => hwf.reads_lt h)
      hgate hbound' hcost (releasing_start hmem net.scratch) hwf.values rfl
    apply hends.map
    rintro ⟨total, scratch'⟩ ⟨v', cone, hcone, htotal, hsum, hvalues⟩
    refine ⟨v', cone, scratch', ?_, htotal, hsum, hvalues, rfl⟩
    rw [IsCone, hterm, if_neg Bool.false_ne_true]
    exact cone_of_withScratch hcone

theorem release_ends (hwf : net.WellFormed) (hac : net.Acyclic) (hn : n < net.size)
    (hbound : net.isGate n = true →
      ∃ bound, n ∈ bound ∧ net.Releasable net.scratch.valueAt bound)
    (hcost : Affordable permitted net cost) :
    Ends permitted (net.release cost n) (net.IsReleased cost n) := by
  apply release_within hwf hac hn
  intro hgate
  obtain ⟨bound, hmem, hbound⟩ := hbound hgate
  exact ⟨bound, hmem, .inl hbound, hcost.within bound⟩

/-- Acquiring is possible as soon as it stays among nodes that cost little together and whose edges
can be counted. -/
theorem acquireContaining_within (hwf : net.WellFormed) (hac : net.Acyclic) (hn : n < net.size)
    (hbound : net.isGate n = true → ∃ bound, net.Acquirable net.scratch.valueAt n bound ∧
      RoomyWithin permitted net net.scratch.valueAt bound ∧
        AffordableWithin permitted net cost bound) (target : NodeId) :
    Ends permitted (net.acquireContaining cost n target) fun r =>
      net.IsAcquired cost n r ∧ net.Detects n target r.1.2 := by
  obtain ⟨node, hnode⟩ := exists_node hn
  rw [acquireContaining, node_eq hnode, ok_bind, isTerminal_eq_kind hnode]
  cases hterm : net.isTerminal n with
  | true =>
    have hnone : net.IsCone net.scratch.valueAt n [] := by
      rw [IsCone, if_pos hterm]
    refine ⟨⟨[], net.scratch, hnone, rfl, .refl _, rfl⟩, fun cone hcone => ?_⟩
    rw [IsCone, if_pos hterm] at hcone
    rw [hcone]
    exact iff_of_false Bool.false_ne_true (meets_nil target)
  | false =>
    have hgate := isGate_of_not_isTerminal hn (ne_true_of_eq_false hterm)
    obtain ⟨bound, hbound, hroom, hcost⟩ := hbound hgate
    have hends := acquireLoop_ends (acyclic_withScratch hac {}) (fun _ _ h => hwf.reads_lt h)
      target false hgate ⟨hbound.root, hbound.closed⟩ hroom hcost (acquiring_start net.scratch)
      hwf.values rfl (iff_of_false Bool.false_ne_true (meets_nil target))
    apply hends.map
    rintro ⟨⟨total, found⟩, scratch'⟩ ⟨cone, hcone, htotal, hfound, hvalues⟩
    have hcone' : net.IsCone net.scratch.valueAt n cone := by
      rw [IsCone, hterm, if_neg Bool.false_ne_true]
      exact cone_of_withScratch hcone
    refine ⟨⟨cone, scratch', hcone', htotal, hvalues, rfl⟩, fun other hother => ?_⟩
    exact hfound.trans (meets_perm (hcone'.perm hac hother) target)

/-- An acquisition stays among the nodes of the network. -/
theorem acquirable_nodeIds (hwf : net.WellFormed) (hn : n < net.size) (v : NodeId → Nat) :
    net.Acquirable v n net.nodeIds := by
  refine ⟨List.mem_range.mpr hn, ?_⟩
  rintro m - - ⟨x, -, hreads⟩
  exact List.mem_range.mpr (hwf.reads_lt hreads)

theorem acquireContaining_ends (hwf : net.WellFormed) (hac : net.Acyclic) (hn : n < net.size)
    (hroom : Roomy permitted net net.scratch.valueAt) (hcost : Affordable permitted net cost)
    (target : NodeId) :
    Ends permitted (net.acquireContaining cost n target) fun r =>
      net.IsAcquired cost n r ∧ net.Detects n target r.1.2 :=
  acquireContaining_within hwf hac hn (fun _ => ⟨net.nodeIds, acquirable_nodeIds hwf hn _,
    hroom.within net.nodeIds, hcost.within net.nodeIds⟩) target

theorem acquire_within (hwf : net.WellFormed) (hac : net.Acyclic) (hn : n < net.size)
    (hbound : net.isGate n = true → ∃ bound, net.Acquirable net.scratch.valueAt n bound ∧
      RoomyWithin permitted net net.scratch.valueAt bound ∧
        AffordableWithin permitted net cost bound) :
    Ends permitted (net.acquire cost n) fun r => net.IsAcquired cost n ((r.1, false), r.2) := by
  apply (acquireContaining_within hwf hac hn hbound n).bind
  rintro ⟨⟨total, found⟩, net'⟩ ⟨⟨cone, scratch', hspec⟩, -⟩
  exact ⟨cone, scratch', hspec⟩

/-! ### Both in turn -/

/-- The gates of an acquired cone can be released. -/
theorem IsCone.releasable {v : NodeId → Nat} {cone : List NodeId} (hgate : net.isTerminal n = false)
    (h : net.IsCone v n cone) :
    n ∈ cone ∧ net.Releasable (fun m => v m + net.loads cone m) cone := by
  have h := h.cone hgate
  refine ⟨h.root, ?_, ?_⟩
  · exact fun m => Nat.le_add_left _ _
  · intro m hterm hout hreads
    have hne : m ≠ n := by
      rintro rfl
      exact hout h.root
    have hpos : v m ≠ 0 := fun hzero => hout ((h.mem_iff m hne).mpr ⟨hterm, hzero, hreads⟩)
    show _ < v m + _
    omega

/-- The cost of a cone is in range when that of all gates is. -/
theorem IsCone.affordable (hwf : net.WellFormed) (hn : n < net.size) {v : NodeId → Nat}
    {cone : List NodeId} (h : net.IsCone v n cone) (hcost : Affordable permitted net cost) :
    costOf cost cone < costBound ∨ permitted .overflow :=
  hcost.imp_left fun hcost => hcost cone (h.nodup) (h.isGate hwf hn)

/-- Releasing undoes an acquisition: afterwards the network is as before. -/
theorem IsAcquired.release (hwf : net.WellFormed) (hac : net.Acyclic) (hn : n < net.size)
    {r : (Nat × Bool) × Network} (hr : net.IsAcquired cost n r)
    (hcost : r.1.1 < costBound ∨ permitted .overflow) :
    Ends permitted (r.2.release cost n) fun r' => r'.1 = r.1.1 ∧ r'.2 = net := by
  obtain ⟨⟨total, found⟩, _⟩ := r
  obtain ⟨cone, scratch', hcone, rfl, hvalues, rfl⟩ := hr.spec
  have hwf' : (net.withScratch scratch').WellFormed := hwf.revalue hvalues
  have hbound : (net.withScratch scratch').isGate n = true → ∃ bound, n ∈ bound ∧
      ReleasableWithin permitted (net.withScratch scratch')
        (net.withScratch scratch').scratch.valueAt bound ∧
      AffordableWithin permitted (net.withScratch scratch') cost bound := by
    intro hgate
    change net.isGate n = true at hgate
    obtain ⟨hmem, hreleasable⟩ := hcone.releasable (isTerminal_of_isGate hgate)
    refine ⟨cone, hmem, .inl ?_, affordableWithin_of_costOf hcost⟩
    show (net.withScratch scratch').Releasable scratch'.valueAt cone
    rw [hvalues.valueAt]
    exact releasable_withScratch hreleasable scratch'
  apply (release_within hwf' (acyclic_withScratch hac scratch') hn hbound).mono
  rintro ⟨total, net'⟩ ⟨v', cone', scratch'', hcone', rfl, hsum, hvalues', rfl⟩
  have hsum' : ∀ m, v' m + net.loads cone' m = net.scratch.valueAt m + net.loads cone m := by
    intro m
    refine (hsum m).trans ?_
    show scratch'.valueAt m = _
    rw [hvalues.valueAt]
  -- The counts determine the cone, so what is released is what was acquired.
  obtain ⟨rfl, hperm⟩ := hcone'.of_withScratch.unique hac hcone hsum'
  have hsame : scratch'' = net.scratch := (hvalues.trans hvalues').unique (.refl _)
  refine ⟨(hperm.map cost).sum_eq, ?_⟩
  rw [hsame]
  rfl

/-- Acquiring undoes a release, even when the network has grown and other notes were taken in
between. -/
theorem acquire_restores {net' : Network} (hwf : net.WellFormed) (hext : net.Extends net')
    (hwf' : net'.WellFormed) (hac' : net'.Acyclic) (hn : n < net.size) {v v' : NodeId → Nat}
    {cone : List NodeId} (hcone : net.IsCone v' n cone)
    (hsum : ∀ m, v' m + net.loads cone m = v m) (hvalues : net'.scratch.valueAt = v')
    (hroom : (∀ m, v m < Scratch.valueBound) ∨ permitted .overflow)
    (hcost : costOf cost cone < costBound ∨ permitted .overflow) :
    Ends permitted (net'.acquire cost n) fun r => r.1 = costOf cost cone ∧
      ∃ scratch, net'.scratch.Revalued v scratch ∧ r.2 = net'.withScratch scratch := by
  subst hvalues
  obtain ⟨hgrown, hloads⟩ := hcone.extends hext hwf hn
  have hn' : n < net'.size := Nat.lt_of_lt_of_le hn hext.size_le
  have hbound : net'.isGate n = true → ∃ bound,
      net'.Acquirable net'.scratch.valueAt n bound ∧
      RoomyWithin permitted net' net'.scratch.valueAt bound ∧
        AffordableWithin permitted net' cost bound := by
    intro hgate
    refine ⟨cone, (hgrown.cone (isTerminal_of_isGate hgate)).acquirable, roomyWithin_of_loads ?_,
      affordableWithin_of_costOf hcost⟩
    refine hroom.imp_left fun hroom m => ?_
    rw [hloads, hsum]
    exact hroom m
  apply (acquire_within hwf' hac' hn' hbound).mono
  rintro ⟨total, _⟩ ⟨cone', scratch, hcone', rfl, hrevalued, rfl⟩
  have hperm := hcone'.perm hac' hgrown
  refine ⟨(hperm.map cost).sum_eq, scratch, ?_, rfl⟩
  have hv : (fun m => net'.scratch.valueAt m + net'.loads cone' m) = v := by
    funext m
    rw [loads_perm hperm, hloads]
    exact hsum m
  rw [← hv]
  exact hrevalued

theorem Roomy.lt {v : NodeId → Nat} (h : Roomy permitted net v) :
    (∀ m, v m < Scratch.valueBound) ∨ permitted .overflow :=
  h.imp_left fun h m => h [] List.nodup_nil m

/-- The cone that dies with `n` has the cost `k`, counted from the counts `v`. -/
def FreedCost (net : Network) (cost : NodeCost) (v : NodeId → Nat) (n : NodeId) (k : Nat) : Prop :=
  ∃ v' cone, net.IsCone v' n cone ∧ (∀ m, v' m + net.loads cone m = v m) ∧ k = costOf cost cone

/-- The cost of a cone is found without a mismatch, and afterwards the network is as before. -/
theorem coneCost_freed (hwf : net.WellFormed) (hac : net.Acyclic) (hn : n < net.size)
    (hbound : net.isGate n = true → ∃ bound, n ∈ bound ∧
      ReleasableWithin permitted net net.scratch.valueAt bound ∧
        AffordableWithin permitted net cost bound)
    (hroom : (∀ m, net.scratch.valueAt m < Scratch.valueBound) ∨ permitted .overflow) :
    Ends permitted (net.coneCost cost n) fun r =>
      r.2 = net ∧ r.1 < costBound ∧ net.FreedCost cost net.scratch.valueAt n r.1 := by
  refine (release_within hwf hac hn hbound).bind_eq ?_
  rintro ⟨released, _⟩ hrun ⟨v', cone, scratch', hcone, rfl, hsum, hvalues, rfl⟩
  have hlt := release_lt hrun
  have hwf' : (net.withScratch scratch').WellFormed := hwf.revalue hvalues
  refine (acquire_restores hwf (extends_withScratch net scratch') hwf'
    (acyclic_withScratch hac scratch') hn hcone hsum hvalues.valueAt hroom (.inl hlt)).bind ?_
  rintro ⟨restored, _⟩ ⟨rfl, scratch'', hvalues', rfl⟩
  have hsame : scratch'' = net.scratch := (hvalues.trans hvalues').unique (.refl _)
  subst hsame
  exact (Ends.require (.inl (beq_self_eq_true _))).bind
    fun _ _ => ⟨withScratch_self net, hlt, v', cone, hcone, hsum, rfl⟩

theorem coneCost_ends (hwf : net.WellFormed) (hac : net.Acyclic) (hn : n < net.size)
    (hbound : net.isGate n = true →
      ∃ bound, n ∈ bound ∧ net.Releasable net.scratch.valueAt bound)
    (hroom : Roomy permitted net net.scratch.valueAt) (hcost : Affordable permitted net cost) :
    Ends permitted (net.coneCost cost n) fun r => r.2 = net := by
  refine (coneCost_freed hwf hac hn (fun hgate => ?_) hroom.lt).mono fun _ h => h.1
  obtain ⟨bound, hmem, hbound⟩ := hbound hgate
  exact ⟨bound, hmem, .inl hbound, hcost.within bound⟩

theorem FreedCost.unique (hac : net.Acyclic) {v : NodeId → Nat} {k k' : Nat}
    (h : net.FreedCost cost v n k) (h' : net.FreedCost cost v n k') : k = k' := by
  obtain ⟨w, cone, hcone, hsum, rfl⟩ := h
  obtain ⟨w', cone', hcone', hsum', rfl⟩ := h'
  have hperm := (hcone.unique hac hcone' fun m => (hsum m).trans (hsum' m).symm).2
  exact (hperm.map cost).sum_eq

theorem FreedCost.extends {net' : Network} (hext : net.Extends net') (hwf : net.WellFormed)
    (hn : n < net.size) {v : NodeId → Nat} {k : Nat} (h : net.FreedCost cost v n k) :
    net'.FreedCost cost v n k := by
  obtain ⟨w, cone, hcone, hsum, rfl⟩ := h
  obtain ⟨hcone', hloads⟩ := hcone.extends hext hwf hn
  exact ⟨w, cone, hcone', fun m => (congrArg (w m + ·) (hloads m)).trans (hsum m), rfl⟩

/-- The cost of a cone is found when it is in range. -/
theorem FreedCost.coneCost (hwf : net.WellFormed) (hac : net.Acyclic) (hn : n < net.size) {k : Nat}
    (h : net.FreedCost cost net.scratch.valueAt n k) (hk : k < costBound)
    (hroom : ∀ m, net.scratch.valueAt m < Scratch.valueBound) :
    net.coneCost cost n = .ok (k, net) := by
  obtain ⟨v, cone, hcone, hsum, hcost⟩ := h
  have hbound : net.isGate n = true → ∃ bound, n ∈ bound ∧
      ReleasableWithin Never net net.scratch.valueAt bound ∧
        AffordableWithin Never net cost bound := by
    intro hgate
    obtain ⟨hmem, hreleasable⟩ := hcone.releasable (isTerminal_of_isGate hgate)
    rw [funext hsum] at hreleasable
    exact ⟨cone, hmem, .inl hreleasable, affordableWithin_of_costOf (.inl (hcost ▸ hk))⟩
  obtain ⟨⟨k', _⟩, hrun, rfl, -, hfreed⟩ :=
    ends_never_iff.mp (coneCost_freed hwf hac hn hbound (.inl hroom))
  obtain rfl : k = k' := FreedCost.unique hac ⟨v, cone, hcone, hsum, hcost⟩ hfreed
  exact hrun

/-! ### Bounds for whole networks -/

theorem loads_nodeIds (net : Network) (m : NodeId) :
    net.loads net.nodeIds m = faninReaders net.nodes m := by
  rw [loads, faninReaders]
  congr 1
  apply List.ext_getElem
  · rw [List.length_map, List.length_map, nodeIds, List.length_range, Array.length_toList]
    rfl
  · intro i hi hi'
    rw [List.getElem_map, List.getElem_map]
    have hlt : i < net.nodes.size := by
      rw [List.length_map, Array.length_toList] at hi'
      exact hi'
    simp only [nodeIds, List.getElem_range, Array.getElem_toList]
    rw [fanins_eq (Array.getElem?_eq_getElem hlt)]
    rfl

/-- Edges from nodes are edges of the network. -/
theorem loads_le_readers {ns : List NodeId} (hnodup : ns.Nodup) (m : NodeId) :
    net.loads ns m ≤ net.readers m := by
  have hfilter : net.loads ns m = net.loads (ns.filter (· < net.size)) m := by
    apply loads_congr hnodup (hnodup.filter _)
    intro n hreads
    rw [List.mem_filter, decide_eq_true_eq]
    exact ⟨fun h => ⟨h, hreads.lt_size⟩, And.left⟩
  have hsub : ns.filter (· < net.size) ⊆ net.nodeIds := by
    intro n hn
    rw [List.mem_filter, decide_eq_true_eq] at hn
    exact List.mem_range.mpr hn.2
  have hle : net.loads (ns.filter (· < net.size)) m ≤ net.loads net.nodeIds m :=
    loads_le (hnodup.filter _) hsub m
  rw [loads_nodeIds] at hle
  rw [hfilter, readers_eq]
  exact Nat.le_add_right_of_le hle

/-- When all edges to a node come from the nodes `ns`, no output reads it, and nothing else does. -/
theorem eq_of_loads_eq_readers {ns : List NodeId} {m : NodeId} (hnodup : ns.Nodup)
    (hlt : ∀ x ∈ ns, x < net.size) (h : net.loads ns m = net.readers m) :
    (∀ s ∈ net.cos, s.node ≠ m) ∧ ∀ x, net.Reads x m → x ∈ ns := by
  have hle : ∀ ns : List NodeId, ns.Nodup → (∀ x ∈ ns, x < net.size) →
      net.loads ns m ≤ faninReaders net.nodes m := by
    intro ns hnodup hlt
    rw [← loads_nodeIds]
    exact loads_le hnodup (fun x hx => List.mem_range.mpr (hlt x hx)) m
  rw [readers_eq] at h
  have hbound := hle ns hnodup hlt
  refine ⟨fun s hs heq => ?_, fun x hreads => ?_⟩
  · have hpos : 0 < net.cos.countP (·.node == m) :=
      List.countP_pos_iff.mpr ⟨s, hs, beq_iff_eq.mpr heq⟩
    omega
  · by_contra hx
    have hmore := hle (x :: ns) (List.nodup_cons.mpr ⟨hx, hnodup⟩)
      (List.forall_mem_cons.mpr ⟨hreads.lt_size, hlt⟩)
    have hpos := count_fanins_pos.mpr hreads
    rw [loads_cons] at hmore
    omega

/-- The gates of a network can be released when the counts are those of the edges. -/
theorem releasable_gates (hwf : net.WellFormed) :
    net.Releasable net.readers (net.nodeIds.filter net.isGate) := by
  refine ⟨fun m => loads_le_readers (List.nodup_range.filter _) m, ?_⟩
  rintro m hterm hout ⟨x, -, hreads⟩
  have hlt := hwf.reads_lt hreads
  rw [isTerminal_eq_not_isGate hlt, Bool.not_eq_false'] at hterm
  exact absurd (List.mem_filter.mpr ⟨List.mem_range.mpr hlt, hterm⟩) hout

/-- The fanouts are the counts of the edges. -/
theorem revalued_fanout (hwf : net.WellFormed) : net.scratch.Revalued net.readers
    { net.scratch with values := net.nodes.map Node.fanout } := by
  refine ⟨?_, rfl, rfl, ?_⟩
  · rw [Array.size_map, hwf.values]
    rfl
  · funext m
    rw [Scratch.valueAt, Array.getElem?_map]
    cases hm : net.nodes[m]? with
    | none => exact (readers_eq_zero hwf (Array.getElem?_eq_none_iff.mp hm)).symm
    | some node => exact hwf.fanout m node hm

/-- With the counts of the edges, a release takes away a cone of every gate. -/
theorem exists_freedCost (hwf : net.WellFormed) (hac : net.Acyclic) (hgate : net.isGate n = true)
    (cost : NodeCost) : ∃ k, net.FreedCost cost net.readers n k := by
  have hn := lt_size_of_kindIs hgate
  have hvalues := revalued_fanout hwf
  generalize { net.scratch with values := net.nodes.map Node.fanout } = scratch at hvalues
  have hwf' : (net.withScratch scratch).WellFormed := hwf.revalue hvalues
  have hreleasable : (net.withScratch scratch).Releasable scratch.valueAt
      (net.nodeIds.filter net.isGate) := by
    rw [hvalues.valueAt]
    exact releasable_withScratch (releasable_gates hwf) scratch
  -- A release at no cost goes through, whatever the gates cost.
  have hfree : ∀ ns : List NodeId, costOf (fun _ => 0) ns = 0 := by
    intro ns
    rw [costOf, List.sum_eq_zero]
    intro c hc
    obtain ⟨m, -, rfl⟩ := List.mem_map.mp hc
    rfl
  have hmem : n ∈ net.nodeIds.filter net.isGate :=
    List.mem_filter.mpr ⟨List.mem_range.mpr hn, hgate⟩
  obtain ⟨r, -, hreleased⟩ := ends_never_iff.mp (@release_within (net.withScratch scratch) Never
    (fun _ => 0) n hwf' hac hn fun _ => ⟨_, hmem, .inl hreleasable,
      affordableWithin_of_costOf (.inl (by rw [hfree]; decide))⟩)
  obtain ⟨v, cone, -, hcone, -, hsum, -⟩ := hreleased.spec
  exact ⟨_, v, cone, hcone.of_withScratch,
    fun m => (hsum m).trans (congrFun hvalues.valueAt m), rfl⟩

/-- The cost of all gates. -/
def totalCost (net : Network) (cost : NodeCost) : Nat :=
  costOf cost (net.nodeIds.filter net.isGate)

theorem costOf_le_totalCost {ns : List NodeId} (hnodup : ns.Nodup)
    (hgates : ∀ n ∈ ns, net.isGate n = true) : costOf cost ns ≤ net.totalCost cost := by
  apply sum_map_le hnodup
  intro n hn
  exact List.mem_filter.mpr ⟨List.mem_range.mpr (lt_size_of_kindIs (hgates n hn)), hgates n hn⟩

theorem IsCone.costOf_le (hwf : net.WellFormed) (hn : n < net.size) {v : NodeId → Nat}
    {cone : List NodeId} (h : net.IsCone v n cone) : costOf cost cone ≤ net.totalCost cost :=
  costOf_le_totalCost h.nodup (h.isGate hwf hn)

/-- The cost of all gates and the number of edges are in range, unless an overflow is permitted. -/
def Bounded (permitted : Fault → Prop) (cost : NodeCost) (net : Network) : Prop :=
  (net.totalCost cost < 2147483648 ∧ net.edges.length < 2147483648) ∨ permitted .overflow

theorem Bounded.affordable (h : Bounded permitted cost net) : Affordable permitted net cost := by
  refine h.imp_left fun ⟨hcost, _⟩ ns hnodup hgates => ?_
  have hle : costOf cost ns ≤ net.totalCost cost := costOf_le_totalCost hnodup hgates
  rw [costBound]
  omega

/-- Counts of at most the edges of a network leave room for those of another. -/
theorem Bounded.roomy {net' : Network} (h : Bounded permitted cost net)
    (h' : Bounded permitted cost net') {v : NodeId → Nat} (hv : ∀ m, v m ≤ net'.readers m) :
    Roomy permitted net v := by
  rcases h with ⟨-, hedges⟩ | hover
  · refine h'.imp_left fun ⟨_, hedges'⟩ ns hnodup m => ?_
    have hloads : net.loads ns m ≤ net.readers m := loads_le_readers hnodup m
    have hreaders := net.readers_le_length_edges m
    have hreaders' := net'.readers_le_length_edges m
    have hle := hv m
    rw [Scratch.valueBound]
    omega
  · exact .inr hover

/-- Counting the edges of a network, when the counts are in range. -/
theorem initReferenceCounts_within (hwf : net.WellFormed)
    (hroom : (∀ m, net.readers m < Scratch.valueBound) ∨ permitted .overflow) :
    Ends permitted net.initReferenceCounts fun r =>
      ∃ scratch, net.scratch.Revalued net.readers scratch ∧ r = net.withScratch scratch := by
  have hfanout : net.nodes.all (·.fanout < Scratch.valueBound) = true ∨ permitted .overflow := by
    refine hroom.imp_left fun hroom => ?_
    rw [Array.all_eq_true_iff_forall_mem]
    intro node hnode
    obtain ⟨n, hn⟩ := Array.getElem?_of_mem hnode
    rw [decide_eq_true_eq, hwf.fanout n node hn]
    exact hroom n
  refine (Ends.require hfanout).bind ?_
  intro _ _
  exact ⟨_, revalued_fanout hwf, rfl⟩

/-- Counting the edges of a network of acceptable size. -/
theorem initReferenceCounts_ends (hwf : net.WellFormed) (h : Bounded permitted cost net) :
    Ends permitted net.initReferenceCounts fun r =>
      ∃ scratch, net.scratch.Revalued net.readers scratch ∧ r = net.withScratch scratch := by
  refine initReferenceCounts_within hwf (h.imp_left fun ⟨_, hedges⟩ m => ?_)
  have hle := net.readers_le_length_edges m
  rw [Scratch.valueBound]
  omega

end LogicSynthesis.Network
