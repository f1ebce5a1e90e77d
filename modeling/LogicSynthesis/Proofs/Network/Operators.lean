import LogicSynthesis.Proofs.Network.Assembly

/-!
# The values of operators

Over every basis a gate constructor ends in a signal whose value is that of its operator. Folding,
sorting, complemented outputs and gates that are found instead of made do not show in the value, and
nothing that was there before changes.

## Main definitions

- `Operator.value` — what an operator makes of the values of its operands
- `Operator.Applies` — the operands exist, and a table has a variable for each of them

## Main statements

- `Operator.Applies.computes` — every constructor has the value of its operator
- `operators_compute` — and keeps all values and fanins
-/

namespace LogicSynthesis

open Network

namespace Operator

variable {op : Operator} {net net' : Network} {s : Signal}

/-- The value of an operator, from the values of its operands. Operand `i` of a lookup table is
variable `i` of the table. -/
def value (val : Signal → Bool) : Operator → Bool
  | not a => !val a
  | and a b => val a && val b
  | or a b => val a || val b
  | xor a b => val a ^^ val b
  | ite a b c => bif val a then val b else val c
  | maj a b c => val a && val b || val a && val c || val b && val c
  | lut fanins t => t.bit (codeOf (fanins.map val))

/-- The operator can be built: its operands are signals of the network, and a table has a variable
for each of them. -/
structure Applies (op : Operator) (net : Network) : Prop where
  available : op.Available net.basis
  lt : ∀ s ∈ op.operands, s.node < net.size
  arity : ∀ fanins t, op = .lut fanins t → fanins.length = t.numVars

theorem Applies.computes (hop : op.Applies net) (hnet : net.Proper) :
    op.build.Computes net fun inputs => op.value (net.signalValue inputs) := by
  have hdrives : ∀ s ∈ op.operands, net.Drives s fun inputs => net.signalValue inputs s :=
    fun s hs => drives_self (hop.lt s hs)
  cases op with
  | not a => exact Build.computes_not hnet (hdrives a (by simp [operands]))
  | and a b =>
    exact Build.computes_and hnet (hdrives a (by simp [operands])) (hdrives b (by simp [operands]))
  | or a b =>
    exact Build.computes_or hnet (hdrives a (by simp [operands])) (hdrives b (by simp [operands]))
  | xor a b =>
    exact Build.computes_xor hnet (hdrives a (by simp [operands])) (hdrives b (by simp [operands]))
  | ite a b c =>
    exact Build.computes_ite hnet (hdrives a (by simp [operands])) (hdrives b (by simp [operands]))
      (hdrives c (by simp [operands]))
  | maj a b c =>
    exact Build.computes_maj hnet (hdrives a (by simp [operands])) (hdrives b (by simp [operands]))
      (hdrives c (by simp [operands]))
  | lut fanins t =>
    obtain ⟨hbasis, ht⟩ := hop.available.table fanins t rfl
    exact Build.computes_lut hnet hbasis ht (hop.arity fanins t rfl) hop.lt

/-- The result of a lookup table is a plain node. -/
theorem negated_of_lut {fanins : List Signal} {t : TruthTable} (hbasis : net.basis = .lookupTable)
    (h : Build.lut fanins t net = .ok (s, net')) : s.negated = false := by
  rw [Build.lut_of_length (Build.lut_eq_ok h).1] at h
  split at h
  · obtain ⟨rfl, -⟩ := Prod.mk.inj (Except.ok.inj h)
    rw [hbasis]
    rfl
  · obtain ⟨⟨n, last⟩, -, h⟩ := bind_eq_ok h
    obtain ⟨rfl, -⟩ := Prod.mk.inj (Except.ok.inj h)
    rfl

theorem admits_result (h : op.build net = .ok (s, net')) : net.basis.Admits s := by
  intro hbasis
  obtain ⟨t, hlut⟩ := op.exists_lut hbasis
  exact negated_of_lut hbasis (hlut.symm.trans h)

end Operator

namespace Network

variable {net : Network} {op : Operator}

/-- A gate constructor ends in a signal that has the value of its operator at the values of the
operands, under every assignment of the combinational inputs. The network stays acyclic, its inputs
and outputs stay, and every node keeps its kind, its fanins and its value. -/
theorem operators_compute (h : net.Built) (hac : net.Acyclic) (hop : op.Applies net) :
    ∃ s net', op.build net = .ok (s, net') ∧ s.node < net'.size ∧ net.basis.Admits s ∧
      (∀ inputs, net'.signalValue inputs s = op.value (net.signalValue inputs)) ∧
      net'.Acyclic ∧ net'.cis = net.cis ∧ net'.cos = net.cos ∧ net.size ≤ net'.size ∧
      ∀ n < net.size, (∀ p, net'.kindIs p n = net.kindIs p n) ∧ net'.fanins n = net.fanins n ∧
        ∀ inputs, net'.value inputs n = net.value inputs n := by
  have hwf := h.wellFormed
  obtain ⟨s, net', hrun, hgrow, hs⟩ := hop.computes ⟨hwf, hac⟩
  have hext := hgrow.extends hwf
  refine ⟨s, net', hrun, hs.lt, op.admits_result hrun, hs.value, hgrow.acyclic hwf hac, hext.cis_eq,
    hext.cos_eq, hext.size_le, ?_⟩
  intro n hn
  exact ⟨fun p => hext.kindIs_eq p hn, hext.fanins_eq hn,
    fun inputs => hext.value_eq hwf hac inputs hn⟩

/-- The majority of the outer conjunction, the complement of the inner one and the complement of an
input. -/
theorem operators_compute_conjunctionOfThree : ∃ s net',
    (Operator.maj ⟨5, false⟩ ⟨4, true⟩ ⟨1, true⟩).build conjunctionOfThree = .ok (s, net') ∧
      ∀ inputs, net'.signalValue inputs s =
        (Operator.maj ⟨5, false⟩ ⟨4, true⟩ ⟨1, true⟩).value
          (conjunctionOfThree.signalValue inputs) := by
  have hop : (Operator.maj ⟨5, false⟩ ⟨4, true⟩ ⟨1, true⟩).Applies conjunctionOfThree :=
    ⟨⟨fun _ _ hbasis => absurd hbasis (by decide), nofun⟩, by decide, nofun⟩
  obtain ⟨s, net', hrun, -, -, hvalue, -⟩ :=
    operators_compute built_conjunctionOfThree acyclic_conjunctionOfThree hop
  exact ⟨s, net', hrun, hvalue⟩

end Network

end LogicSynthesis
