import LogicSynthesis.Proofs.Network.Substitution
import LogicSynthesis.Proofs.Network.Walk
import LogicSynthesis.Proofs.Rewriting.Plan

/-!
# The batch of substitutions

The choices of a plan are applied one after the other, each to the network that the former ones
have left. A choice that would close a cycle by then is passed over, and the others keep the network
acyclic. Where the candidates have the values of their gates, no substitution changes a value, so
the candidates still have these values when their turn comes.

## Main definitions

- `Network.Rewired` — a network after substitutions that close no cycle

## Main statements

- `applyCandidate_ends` — one choice
- `applyChoices_keeps`, `applyChoices_ends` — the batch
-/

namespace LogicSynthesis.Network

variable {permitted : Fault → Prop} {exact : Prop} {net mid net' : Network}

/-- The nodes of `net'` are those of `net` up to their fanins. If `exact` holds, their values are
the same, and so are those of the outputs. -/
structure Rewired (exact : Prop) (net net' : Network) : Prop where
  proper : net'.Proper
  size : net'.size = net.size
  kinds : ∀ p n, net'.kindIs p n = net.kindIs p n
  scratch : net'.scratch = net.scratch
  pis : net'.pis = net.pis
  ros : net'.ros = net.ros
  values : exact → ∀ inputs n, net'.value inputs n = net.value inputs n
  pos : exact → ∀ inputs,
    net'.pos.map (net'.signalValue inputs) = net.pos.map (net.signalValue inputs)
  ris : exact → ∀ inputs,
    net'.ris.map (net'.signalValue inputs) = net.ris.map (net.signalValue inputs)

theorem Rewired.refl (h : net.Proper) : Rewired exact net net :=
  ⟨h, rfl, fun _ _ => rfl, rfl, rfl, rfl, fun _ _ _ => rfl, fun _ _ => rfl, fun _ _ => rfl⟩

theorem Rewired.trans (h : Rewired exact net mid) (h' : Rewired exact mid net') :
    Rewired exact net net' := by
  refine ⟨h'.proper, h'.size.trans h.size, ?_, h'.scratch.trans h.scratch, h'.pis.trans h.pis,
    h'.ros.trans h.ros, ?_, ?_, ?_⟩
  · exact fun p n => (h'.kinds p n).trans (h.kinds p n)
  · exact fun hexact inputs n => (h'.values hexact inputs n).trans (h.values hexact inputs n)
  · exact fun hexact inputs => (h'.pos hexact inputs).trans (h.pos hexact inputs)
  · exact fun hexact inputs => (h'.ris hexact inputs).trans (h.ris hexact inputs)

/-- Where the values of the nodes are the same, so is what replaces a gate. -/
theorem Replaces.rewired {pivot : NodeId} {s : Signal} (h : Replaces exact pivot net s)
    (hnet : Rewired exact net net') : Replaces exact pivot net' s := by
  refine ⟨h.lt.trans_eq hnet.size.symm, fun hexact inputs => ?_⟩
  rw [signalValue, edgeValue, hnet.values hexact, hnet.values hexact]
  exact h.value hexact inputs

/-- A substitution of what replaces a gate. -/
theorem rewired_of_substituted {old : NodeId} {new : Signal} (hnet : net.Proper)
    (hnet' : net'.Proper) (h : Substituted net old new net')
    (hreplaces : Replaces exact old net new) : Rewired exact net net' := by
  have hold : exact → ∀ inputs, net.value inputs old = net.signalValue inputs new :=
    fun hexact inputs => (hreplaces.value hexact inputs).symm
  refine ⟨hnet', h.size, h.kindIs_eq, h.scratch, h.pis, h.ros, ?_, ?_, ?_⟩
  · exact fun hexact inputs n =>
      h.value_eq hnet.wellFormed hnet.acyclic hnet'.acyclic (hold hexact inputs) n
  · intro hexact inputs
    rw [h.pos]
    exact h.map_signalValue_redirect hnet.wellFormed hnet.acyclic hnet'.acyclic
      (hold hexact inputs) net.pos
  · intro hexact inputs
    rw [h.ris]
    exact h.map_signalValue_redirect hnet.wellFormed hnet.acyclic hnet'.acyclic
      (hold hexact inputs) net.ris

/-- A gate is replaced unless the replacement depends on it, so no cycle is closed and nothing reads
the gate any more. -/
theorem applyCandidate_ends (hnet : net.Proper) {pivot : NodeId} (hpivot : net.isGate pivot = true)
    {replacement : Signal} (hreplaces : Replaces exact pivot net replacement) :
    Ends permitted (net.applyCandidate pivot replacement) fun r =>
      ∀ net', r = some net' → Rewired exact net net' ∧ Substituted net pivot replacement net' ∧
        ∀ s ∈ net'.edges, s.node ≠ pivot := by
  have hnone : ∀ net', (none : Option Network) = some net' → Rewired exact net net' ∧
      Substituted net pivot replacement net' ∧ ∀ s ∈ net'.edges, s.node ≠ pivot := by
    intro net' h
    cases h
  unfold applyCandidate
  dsimp only
  split
  · exact hnone
  · next hne =>
    obtain ⟨node, hnode⟩ := exists_node hreplaces.lt
    rw [node_eq hnode, ok_bind]
    split
    · exact hnone
    · obtain ⟨depends, hwalk, hdepends⟩ :=
        inTransitiveFanin_eq hnet.wellFormed hreplaces.lt pivot
      rw [hwalk, ok_bind]
      split
      · exact hnone
      · next hfree =>
        obtain ⟨net', hsub, hspec, hwf⟩ :=
          exists_substitute hnet.wellFormed hpivot hreplaces.lt hne
        -- The test was made on the present network, with all earlier substitutions done.
        have hac : net'.Acyclic :=
          hspec.acyclic hnet.acyclic fun hpath => hfree (hdepends.mpr hpath)
        rw [hsub]
        intro net'' heq
        obtain rfl := Option.some.inj heq
        have hunread : ¬ net.Reads replacement.node pivot :=
          fun hreads => hfree (hdepends.mpr (.single hreads))
        exact ⟨rewired_of_substituted hnet ⟨hwf, hac⟩ hspec hreplaces, hspec,
          fun s hs => hspec.node_ne_of_mem_edges hne hunread hs⟩

/-- A batch keeps what passing over a choice and replacing a gate keep. -/
theorem applyChoices_keeps (hnet : net.Proper) {chosen : List (NodeId × Candidate)}
    (hchosen : ∀ choice ∈ chosen, net.isGate choice.1 = true ∧
      Replaces exact choice.1 net choice.2.replacement)
    (inv : List (NodeId × Candidate) → Nat → Network → Prop) (hinit : inv [] 0 net)
    (hskip : ∀ before c after count mid, chosen = before ++ c :: after → inv before count mid →
      inv (before ++ [c]) count mid)
    (hreplace : ∀ before c after count mid net', chosen = before ++ c :: after →
      Substituted mid c.1 c.2.replacement net' → (∀ s ∈ net'.edges, s.node ≠ c.1) →
        inv before count mid → inv (before ++ [c]) (count + 1) net') :
    Ends permitted (net.applyChoices chosen) fun r =>
      Rewired exact net r.2 ∧ inv chosen r.1 r.2 := by
  refine Ends.foldlM_prefix (fun before (state : Nat × Network) =>
    Rewired exact net state.2 ∧ inv before state.1 state.2) ⟨.refl hnet, hinit⟩ ?_
  rintro before c after ⟨count, mid⟩ heq ⟨hmid, hinv⟩
  obtain ⟨hgate, hreplaces⟩ := hchosen c (heq ▸ List.mem_append_right _ List.mem_cons_self)
  have hpivot : mid.isGate c.1 = true := (hmid.kinds _ _).trans hgate
  refine (applyCandidate_ends hmid.proper hpivot (hreplaces.rewired hmid)).bind ?_
  intro r hr
  cases r with
  | none => exact ⟨hmid, hskip before c after count mid heq hinv⟩
  | some net' =>
    obtain ⟨hrewired, hsubstituted, hgone⟩ := hr net' rfl
    exact ⟨hmid.trans hrewired, hreplace before c after count mid net' heq hsubstituted hgone hinv⟩

/-- Every choice finds the values as they were planned. -/
theorem applyChoices_ends (hnet : net.Proper) {chosen : List (NodeId × Candidate)}
    (hchosen : ∀ choice ∈ chosen, net.isGate choice.1 = true ∧
      Replaces exact choice.1 net choice.2.replacement) :
    Ends permitted (net.applyChoices chosen) fun r => Rewired exact net r.2 :=
  (applyChoices_keeps hnet hchosen (fun _ _ _ => True) trivial (fun _ _ _ _ _ _ _ => trivial)
    fun _ _ _ _ _ _ _ _ _ _ => trivial).mono fun _ => And.left

end LogicSynthesis.Network
