import LogicSynthesis.Proofs.Network.TopologicalOrder
import LogicSynthesis.Proofs.Rewriting.Collection

/-!
# What a candidate counts on

A gain is counted with all other logic in place. It counts on the gates that die with the replaced
gate, and on the gates that come into use with the replacement. Where all gates are live, both can
be told from the network alone: the values of the nodes are not needed.

## Main definitions

- `Network.Freed` — the gates that die when a gate is no longer read
- `Network.Taken` — the gates that come into use with a replacement
- `Network.Account` — the gates that a candidate frees and takes

## Main statements

- `account_of_cones` — what is released and acquired is what is freed and taken
- `exists_account_costOf` — a gain is the cost of freed gates less that of taken ones
-/

namespace LogicSynthesis.Network

open Relation

variable {base net : Network} {m p r : NodeId}

/-! ### Freed and taken gates -/

/-- The gates that die when nothing reads `p` any more: `p` itself, and each gate that is no output
and is read by such gates only. -/
inductive Freed (net : Network) (p : NodeId) : NodeId → Prop
  | root : Freed net p p
  | fanin {m : NodeId} (hgate : net.isGate m = true) (hread : ∃ x, net.Reads x m)
      (hout : ∀ s ∈ net.cos, s.node ≠ m) (hreaders : ∀ x, net.Reads x m → Freed net p x) :
      Freed net p m

/-- The gates of `net` that come into use when `r` replaces `p`: `r` itself, and among the gates
that these read the new ones and those that die with `p`. -/
inductive Taken (base net : Network) (p r : NodeId) : NodeId → Prop
  | root (hgate : net.isGate r = true) : Taken base net p r r
  | fanin {x m : NodeId} (hx : Taken base net p r x) (hreads : net.Reads x m)
      (hgate : net.isGate m = true) (hunused : base.size ≤ m ∨ m ≠ p ∧ base.Freed p m) :
      Taken base net p r m

/-- The gates that a candidate for `p` with the replacement `r` frees and takes. -/
structure Account (base net : Network) (p r : NodeId) (freed taken : List NodeId) : Prop where
  nodup : freed.Nodup
  root : p ∈ freed
  isGate : ∀ m ∈ freed, base.isGate m = true
  frees : ∀ m ∈ freed, base.Freed p m
  closed : ∀ m ∈ freed, m ≠ p →
    (∀ s ∈ base.cos, s.node ≠ m) ∧ ∀ x, base.Reads x m → x ∈ freed
  takes : ∀ x ∈ taken, Taken base net p r x
  replacement : net.isGate r = true → r ∈ taken
  fanin : ∀ x ∈ taken, ∀ m, net.Reads x m → net.isGate m = true →
    m ∈ taken ∨ base.isGate m = true ∧ (m ∈ freed → m = p)

section Cones

variable {v : NodeId → Nat} {freed taken : List NodeId} (hbase : base.Proper)
  (hnet : net.Proper) (hext : base.Extends net) (hp : base.isGate p = true)
  (hfreed : net.Cone v p freed) (hsum : ∀ m, v m + net.loads freed m = base.readers m)

include hbase hext hp hfreed

/-- The cone of a gate at the start consists of gates at the start. -/
theorem isGate_of_mem_cone (hm : m ∈ freed) : base.isGate m = true := by
  have hlt : m < base.size := by
    have hstays : ∀ k, ReflTransGen net.Reads p k → k < base.size := by
      intro k hpath
      induction hpath with
      | refl => exact lt_size_of_kindIs hp
      | tail _ hreads ih => exact hbase.wellFormed.reads_lt ((hext.reads_iff ih).mp hreads)
    exact hstays m (hfreed.path m hm)
  by_cases heq : m = p
  · rw [heq]
    exact hp
  · obtain ⟨hterm, -⟩ := (hfreed.mem_iff m heq).mp hm
    rwa [isTerminal, hext.kindIs_eq _ hlt, ← isTerminal, isTerminal_eq_not_isGate hlt,
      Bool.not_eq_false'] at hterm

/-- The edges from the cone are those of the network at the start. -/
theorem loads_cone_eq (m : NodeId) : base.loads freed m = net.loads freed m := by
  rw [loads, loads]
  congr 1
  refine List.map_congr_left fun x hx => ?_
  rw [hext.fanins_eq (lt_size_of_kindIs (isGate_of_mem_cone hbase hext hp hfreed hx))]

include hsum

/-- Nothing but the cone reads a node without references. -/
theorem unread_of_eq_zero (hzero : v m = 0) :
    (∀ s ∈ base.cos, s.node ≠ m) ∧ ∀ x, base.Reads x m → x ∈ freed := by
  have hlt : ∀ x ∈ freed, x < base.size :=
    fun x hx => lt_size_of_kindIs (isGate_of_mem_cone hbase hext hp hfreed hx)
  refine eq_of_loads_eq_readers hfreed.nodup hlt ?_
  rw [loads_cone_eq hbase hext hp hfreed, ← hsum m, hzero, Nat.zero_add]

/-- Nothing but the cone reads a gate of the cone, its root apart. -/
theorem closed_of_mem_cone (hm : m ∈ freed) (hne : m ≠ p) :
    (∀ s ∈ base.cos, s.node ≠ m) ∧ ∀ x, base.Reads x m → x ∈ freed :=
  unread_of_eq_zero hbase hext hp hfreed hsum ((hfreed.mem_iff m hne).mp hm).2.1

/-- The cone of a gate is freed. -/
theorem freed_of_mem_cone (hm : m ∈ freed) : base.Freed p m := by
  induction m using hbase.acyclic.induction_readers with
  | _ m ih =>
    by_cases hne : m = p
    · rw [hne]
      exact .root
    · obtain ⟨hout, hreaders⟩ := closed_of_mem_cone hbase hext hp hfreed hsum hm hne
      obtain ⟨-, -, x, hx, hreads⟩ := (hfreed.mem_iff m hne).mp hm
      have hx' := lt_size_of_kindIs (isGate_of_mem_cone hbase hext hp hfreed hx)
      exact .fanin (isGate_of_mem_cone hbase hext hp hfreed hm)
        ⟨x, (hext.reads_iff hx').mp hreads⟩ hout fun y hy => ih y hy (hreaders y hy)

omit hbase in
include hnet in
/-- Where every gate is live, a gate without references is a new one or belongs to the cone. -/
theorem unused_of_eq_zero (hlive : ∀ n, base.isGate n = true → base.Live n)
    (hgate : net.isGate m = true) (hzero : v m = 0) :
    base.size ≤ m ∨ m ≠ p ∧ m ∈ freed := by
  refine (Nat.lt_or_ge m base.size).symm.imp id fun hlt => ?_
  have hold : base.isGate m = true := (hext.kindIs_eq _ hlt).symm.trans hgate
  have hloads := hsum m
  rw [hzero, Nat.zero_add] at hloads
  obtain ⟨x, hx, hreads⟩ := loads_pos_iff.mp
    (Nat.pos_of_ne_zero (hloads.trans_ne (hlive m hold).readers_ne_zero))
  have hne : m ≠ p := by
    rintro rfl
    exact hnet.acyclic m (.tail' (hfreed.path x hx) hreads)
  exact ⟨hne, (hfreed.mem_iff m hne).mpr ⟨isTerminal_of_isGate hgate, hzero, x, hx, hreads⟩⟩

include hnet in
/-- The cone of the replacement comes into use. -/
theorem taken_of_mem_cone (hlive : ∀ n, base.isGate n = true → base.Live n)
    (hr : net.isGate r = true) (htaken : net.Cone v r taken) {x : NodeId} (hx : x ∈ taken) :
    Taken base net p r x := by
  induction x using hnet.acyclic.induction_readers with
  | _ x ih =>
    by_cases hne : x = r
    · rw [hne]
      exact .root hr
    · obtain ⟨hterm, hzero, y, hy, hreads⟩ := (htaken.mem_iff x hne).mp hx
      have hgate : net.isGate x = true := by
        rwa [isTerminal_eq_not_isGate (hnet.wellFormed.reads_lt hreads),
          Bool.not_eq_false'] at hterm
      refine .fanin (ih y hreads hy) hreads hgate ?_
      exact (unused_of_eq_zero hnet hext hp hfreed hsum hlive hgate hzero).imp id
        fun h => ⟨h.1, freed_of_mem_cone hbase hext hp hfreed hsum h.2⟩

omit hp in
/-- What the cone of the replacement reads belongs to it or is in use. -/
theorem mem_cone_or_used (htaken : net.Cone v r taken) {x : NodeId} (hx : x ∈ taken)
    (hreads : net.Reads x m) (hgate : net.isGate m = true) :
    m ∈ taken ∨ base.isGate m = true ∧ (m ∈ freed → m = p) := by
  by_cases hzero : v m = 0
  · left
    by_cases hne : m = r
    · rw [hne]
      exact htaken.root
    · exact (htaken.mem_iff m hne).mpr ⟨isTerminal_of_isGate hgate, hzero, x, hx, hreads⟩
  · right
    have hread : base.readers m ≠ 0 := by
      have hm := hsum m
      omega
    have hlt : m < base.size := by
      by_contra hge
      exact hread (readers_eq_zero hbase.wellFormed (Nat.not_lt.mp hge))
    refine ⟨(hext.kindIs_eq _ hlt).symm.trans hgate, fun hm => ?_⟩
    by_contra hne
    exact hzero ((hfreed.mem_iff m hne).mp hm).2.1

include hnet in
/-- What is released with a gate and what is acquired with its replacement. -/
theorem account_of_cones (hlive : ∀ n, base.isGate n = true → base.Live n) (hr : r < net.size)
    (htaken : net.IsCone v r taken) : Account base net p r freed taken := by
  have hcone : net.isGate r = true → net.Cone v r taken := by
    intro hgate
    rwa [IsCone, isTerminal_eq_not_isGate hr, hgate, if_neg (by decide)] at htaken
  have hroot : ∀ x ∈ taken, net.isGate r = true := by
    intro x hx
    by_contra hgate
    rw [IsCone, if_pos (by rw [isTerminal_eq_not_isGate hr]; simpa using hgate)] at htaken
    rw [htaken] at hx
    cases hx
  refine ⟨hfreed.nodup, hfreed.root, fun m => isGate_of_mem_cone hbase hext hp hfreed,
    fun m => freed_of_mem_cone hbase hext hp hfreed hsum,
    fun m => closed_of_mem_cone hbase hext hp hfreed hsum, ?_, fun hgate => (hcone hgate).root, ?_⟩
  · intro x hx
    have hgate := hroot x hx
    exact taken_of_mem_cone hbase hnet hext hp hfreed hsum hlive hgate (hcone hgate) hx
  · intro x hx m hreads hgate
    exact mem_cone_or_used hbase hext hfreed hsum (hcone (hroot x hx)) hx hreads hgate

end Cones

theorem costOf_unitCost (ns : List NodeId) : costOf unitCost ns = ns.length := by
  rw [costOf, show unitCost = fun _ => 1 from rfl, List.map_const', List.sum_replicate,
    Nat.smul_one_eq_cast, Nat.cast_id]

/-- In range, a gain is what is freed less what is taken. -/
theorem savedCost_eq {released added : Nat} {gain : Int} (hreleased : released < 2147483648)
    (hadded : added < 2147483648) (h : savedCost released added = .ok gain) :
    gain + added = released := by
  rw [savedCost, signedCost_eq hreleased, signedCost_eq hadded] at h
  obtain ⟨-, -, h⟩ := bind_eq_ok h
  have hgain : (released : Int) - added = gain := Except.ok.inj h
  omega

/-- What a candidate counts on, in a network of acceptable size that has grown out of one whose
gates are all live. Its gain is the cost of the freed gates less that of the taken ones. -/
theorem exists_account_costOf {cost : NodeCost} {leastGain : Int} {c : Candidate}
    (hbase : base.Proper) (hnet : net.Proper) (hext : base.Extends net)
    (hlive : ∀ n, base.isGate n = true → base.Live n)
    (hrange : net.totalCost cost < 2147483648) (hp : base.isGate p = true)
    (hlt : c.replacement.node < net.size) (h : Saves base cost leastGain p net c) :
    ∃ freed taken, Account base net p c.replacement.node freed taken ∧
      c.gain + costOf cost taken = costOf cost freed := by
  obtain ⟨v, freed, taken, hfreed, hsum, htaken, -, hgain⟩ := h.spec
  have hold := lt_size_of_kindIs hp
  have hp' : p < net.size := hold.trans_le hext.size_le
  have hcost : ∀ {n ns}, n < net.size → net.IsCone v n ns → costOf cost ns < 2147483648 :=
    fun hn hcone => (hcone.costOf_le hnet.wellFormed hn).trans_lt hrange
  have hcone : net.Cone v p freed := by
    have hgate : net.isGate p = true := (hext.kindIs_eq _ hold).trans hp
    rwa [IsCone, isTerminal_eq_not_isGate hp', hgate, if_neg (by decide)] at hfreed
  exact ⟨freed, taken, account_of_cones hbase hnet hext hp hcone hsum hlive hlt htaken,
    savedCost_eq (hcost hp' hfreed) (hcost hlt htaken) hgain⟩

/-- Where every gate costs one, the gates themselves are counted. -/
theorem exists_account {leastGain : Int} {c : Candidate} (hbase : base.Proper) (hnet : net.Proper)
    (hext : base.Extends net) (hlive : ∀ n, base.isGate n = true → base.Live n)
    (hrange : net.totalCost unitCost < 2147483648) (hp : base.isGate p = true)
    (hlt : c.replacement.node < net.size) (h : Saves base unitCost leastGain p net c) :
    ∃ freed taken, Account base net p c.replacement.node freed taken ∧
      leastGain + taken.length ≤ freed.length := by
  obtain ⟨freed, taken, haccount, hgain⟩ :=
    exists_account_costOf hbase hnet hext hlive hrange hp hlt h
  rw [costOf_unitCost, costOf_unitCost] at hgain
  have hleast := h.least
  exact ⟨freed, taken, haccount, by omega⟩

end LogicSynthesis.Network
