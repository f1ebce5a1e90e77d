import LogicSynthesis.Proofs.Network.Growth
import LogicSynthesis.Proofs.Window
import LogicSynthesis.Resynthesis.Oracle

/-!
# What is asked of an oracle

An oracle may create gates and enter functions, and it proposes signals. What its proposals have
to satisfy is part of the terms: for a pass to keep the values of a network they have to answer the
query, and for a pass to go through it is enough that they exist.

## Main definitions

- `Query.Valid` — a query about leaves of a network
- `Query.Answered` — a signal that has the value of the function on all patterns that matter
- `Oracle.Terms` — what an oracle may do
- `Dialogue.Keeps` — a dialogue that keeps to the terms
- `Oracle.Serves` — an oracle that keeps to the terms in so many queries

## Main statements

- `Dialogue.Keeps.listen_ends` — the rule for hearing the proposals of a dialogue
- `Dialogue.listen_agree` — two hearings that a dialogue cannot tell apart
- `Oracle.serves_of_invariant` — the rule for queries one after the other
- `Oracle.Serves.mono` — serving fewer queries is no harder
-/

namespace LogicSynthesis

open Network

namespace Query

/-- A query about existing leaves, at most `width` of them. The function, and the don't-cares if
there are any, have a variable for each leaf. -/
structure Valid (width : Nat) (net : Network) (q : Query) : Prop where
  canonical : q.function.Canonical
  arity : q.function.numVars = q.leaves.length
  width : q.leaves.length ≤ width
  exist : ∀ s ∈ q.leaves, s.node < net.size
  mask : ∀ mask, q.dontCares = some mask → mask.Canonical ∧ mask.numVars = q.leaves.length

/-- The leaves need the nodes of a network and nothing else of it. -/
theorem Valid.of_size_eq {width : Nat} {net net' : Network} {q : Query} (h : q.Valid width net)
    (hsize : net'.size = net.size) : q.Valid width net' :=
  ⟨h.canonical, h.arity, h.width, fun s hs => hsize ▸ h.exist s hs, h.mask⟩

/-- The pattern that the leaves form. -/
def pattern (q : Query) (net : Network) (inputs : Assignment) : Nat :=
  codeOf (q.leaves.map (net.signalValue inputs))

/-- The pattern is no don't-care. -/
def Matters (q : Query) (m : Nat) : Prop := ∀ mask, q.dontCares = some mask → mask.bit m = false

/-- The signal exists. -/
def Existing (_ : Query) (net : Network) (s : Signal) : Prop := s.node < net.size

/-- The signal exists, and has the value of the function whenever the leaves form a pattern that
matters. -/
structure Answered (q : Query) (net : Network) (s : Signal) : Prop where
  lt : s.node < net.size
  value : ∀ inputs, q.Matters (q.pattern net inputs) →
    net.signalValue inputs s = q.function.bit (q.pattern net inputs)

end Query

/-- What an oracle may do: the faults with which it may stop, the number of leaves in the queries
that it is asked, the networks that it may make, and the signals that it may propose. -/
structure Oracle.Terms where
  permitted : Fault → Prop
  width : Nat
  admits : Network → Prop
  accepts : Query → Network → Signal → Prop

variable {μ σ : Type} {terms : Oracle.Terms} {q : Query}

/-- The dialogue only lets the network grow and proposes acceptable signals, whatever the answers
are. `fin` holds of the memory and the network at its end. -/
inductive Dialogue.Keeps (terms : Oracle.Terms) (q : Query) (fin : μ → Network → Prop) :
    Network → Dialogue μ → Prop
  | finish {net net' : Network} {memory : μ} (hgrow : net.GrowsTo net')
      (hadmits : terms.admits net') (hfin : fin memory net') :
      Keeps terms q fin net (.finish memory net')
  | stop {net : Network} {fault : Fault} (hfault : terms.permitted fault) :
      Keeps terms q fin net (.stop fault)
  | propose {net net' : Network} {s : Signal} {resume : Bool → Network → Dialogue μ}
      (hgrow : net.GrowsTo net') (hadmits : terms.admits net')
      (haccepts : terms.accepts q net' s)
      (hresume : ∀ more, Keeps terms q fin net' (resume more net')) :
      Keeps terms q fin net (.propose net' s resume)

/-- The oracle keeps to the terms in the next queries, as many as given, whatever they are. Between
queries only the notes in the scratch state change, and marks that were in order stay so. -/
def Oracle.Serves (oracle : Oracle μ) (terms : Oracle.Terms) : Nat → μ → Network → Prop
  | 0, _, _ => True
  | k + 1, memory, net => ∀ (q : Query) (scratch : Scratch), q.Valid terms.width net →
      scratch.values.size = net.size → scratch.marks.size = net.size →
        (net.scratch.Past → scratch.Past) →
          (oracle.answer memory q (net.withScratch scratch)).Keeps terms q (oracle.Serves terms k)
            (net.withScratch scratch)

namespace Dialogue

theorem Keeps.mono {fin fin' : μ → Network → Prop} {net : Network} {d : Dialogue μ}
    (h : d.Keeps terms q fin net) (himp : ∀ memory net, fin memory net → fin' memory net) :
    d.Keeps terms q fin' net := by
  induction h with
  | finish hgrow hadmits hfin => exact .finish hgrow hadmits (himp _ _ hfin)
  | stop hfault => exact .stop hfault
  | propose hgrow hadmits haccepts _ ih => exact .propose hgrow hadmits haccepts ih

/-- The network may have grown before. -/
theorem Keeps.grow {fin : μ → Network → Prop} {net net' : Network} {d : Dialogue μ}
    (h : d.Keeps terms q fin net') (hgrow : net.GrowsTo net') : d.Keeps terms q fin net := by
  cases h with
  | finish hgrow' hadmits hfin => exact .finish (hgrow.trans hgrow') hadmits hfin
  | stop hfault => exact .stop hfault
  | propose hgrow' hadmits haccepts hresume =>
    exact .propose (hgrow.trans hgrow') hadmits haccepts hresume

/-- Hearing the proposals of a dialogue keeps what growing keeps and what hearing one acceptable
proposal keeps. A hearing must leave the network as it is. -/
theorem Keeps.listen_ends {fin : μ → Network → Prop}
    {hear : σ → Signal → Network → Except Fault (Bool × σ × Network)} (inv : σ → Network → Prop)
    (hgrows : ∀ state net net', inv state net → net.GrowsTo net' → terms.admits net' →
      inv state net')
    (hhears : ∀ state net s, inv state net → terms.accepts q net s →
      Ends terms.permitted (hear state s net) fun r => r.2.2 = net ∧ inv r.2.1 net)
    {net : Network} {d : Dialogue μ} (h : d.Keeps terms q fin net) {state : σ}
    (hinv : inv state net) :
    Ends terms.permitted (d.listen hear state) fun r => fin r.1 r.2.2 ∧ inv r.2.1 r.2.2 := by
  induction h generalizing state with
  | finish hgrow hadmits hfin => exact ⟨hfin, hgrows _ _ _ hinv hgrow hadmits⟩
  | stop hfault => exact hfault
  | propose hgrow hadmits haccepts _ ih =>
    refine (hhears _ _ _ (hgrows _ _ _ hinv hgrow hadmits) haccepts).bind ?_
    rintro ⟨more, state', _⟩ ⟨rfl, hinv'⟩
    exact ih more hinv'

/-- Two hearings of one dialogue. As long as they give the same answers and leave the same network,
the dialogue does not notice that their states differ. -/
theorem listen_agree {τ : Type}
    {hear : σ → Signal → Network → Except Fault (Bool × σ × Network)}
    {hear' : τ → Signal → Network → Except Fault (Bool × τ × Network)} (related : σ → τ → Prop)
    (hhears : ∀ s t c net, related s t → Agree (fun r r' => r.1 = r'.1 ∧ related r.2.1 r'.2.1 ∧
      r.2.2 = r'.2.2) (hear s c net) (hear' t c net))
    (d : Dialogue μ) {s : σ} {t : τ} (h : related s t) :
    Agree (fun r r' => r.1 = r'.1 ∧ related r.2.1 r'.2.1 ∧ r.2.2 = r'.2.2) (d.listen hear s)
      (d.listen hear' t) := by
  induction d generalizing s t with
  | finish memory net => exact ⟨rfl, h, rfl⟩
  | stop fault => exact Eq.refl fault
  | propose net candidate resume ih =>
    refine (hhears s t candidate net h).bind ?_
    rintro ⟨more, s', net'⟩ ⟨_, t', _⟩ ⟨rfl, hstates, rfl⟩
    exact ih more net' hstates

end Dialogue

namespace Oracle

variable {oracle : Oracle μ}

theorem Serves.mono {j k : Nat} (hle : j ≤ k) {memory : μ} {net : Network}
    (h : oracle.Serves terms k memory net) : oracle.Serves terms j memory net := by
  induction j generalizing k memory net with
  | zero => trivial
  | succ j ih =>
    cases k with
    | zero => exact absurd hle (Nat.not_succ_le_zero j)
    | succ k =>
      intro q scratch hq hvalues hmarks hpast
      exact (h q scratch hq hvalues hmarks hpast).mono fun _ _ =>
        ih (Nat.le_of_succ_le_succ hle)

/-- Notes in the scratch state do not matter to the queries to come. -/
theorem Serves.withScratch {k : Nat} {memory : μ} {net : Network}
    (h : oracle.Serves terms k memory net) {scratch : Scratch}
    (hpast : net.scratch.Past → scratch.Past) :
    oracle.Serves terms k memory (net.withScratch scratch) := by
  cases k with
  | zero => trivial
  | succ k =>
    exact fun q scratch' hq hvalues hmarks hpast' =>
      h q scratch' (hq.of_size_eq rfl) hvalues hmarks fun hstart => hpast' (hpast hstart)

/-- What every query leaves behind as it was found, and notes in the scratch state do not matter
to, holds for all queries to come. -/
theorem serves_of_invariant (inv : μ → Network → Prop)
    (hscratch : ∀ memory net scratch, inv memory net → scratch.values.size = net.size →
      scratch.marks.size = net.size → inv memory (net.withScratch scratch))
    (hanswer : ∀ memory net q, inv memory net → q.Valid terms.width net →
      (oracle.answer memory q net).Keeps terms q inv net)
    (k : Nat) {memory : μ} {net : Network} (h : inv memory net) :
    oracle.Serves terms k memory net := by
  induction k generalizing memory net with
  | zero => trivial
  | succ k ih =>
    intro q scratch hq hvalues hmarks _
    have hnotes := hscratch memory net scratch h hvalues hmarks
    exact (hanswer memory _ q hnotes (hq.of_size_eq rfl)).mono fun _ _ => ih

theorem proposeEach_keeps {fin : Unit → Network → Prop} {leaves : List Signal} {net : Network}
    (hadmits : terms.admits net) (haccepts : ∀ s ∈ leaves, terms.accepts q net s)
    (hfin : fin () net) : (proposeEach leaves net).Keeps terms q fin net := by
  induction leaves with
  | nil => exact .finish .refl hadmits hfin
  | cons s leaves ih =>
    refine .propose .refl hadmits (haccepts s List.mem_cons_self) fun more => ?_
    cases more with
    | true => exact ih fun t ht => haccepts t (List.mem_cons_of_mem s ht)
    | false => exact .finish .refl hadmits hfin

/-- An oracle that proposes the leaves keeps to all terms that accept existing signals. -/
theorem serves_eachLeaf {net : Network}
    (hadmits : ∀ scratch, terms.admits (net.withScratch scratch))
    (haccepts : ∀ (q : Query) (net : Network) (s : Signal), s.node < net.size →
      terms.accepts q net s) (k : Nat) : eachLeaf.Serves terms k () net := by
  refine serves_of_invariant (fun _ net => ∀ scratch, terms.admits (net.withScratch scratch))
    (fun _ _ _ h _ _ => h) ?_ k hadmits
  intro memory net q hadmits hq
  exact proposeEach_keeps (hadmits net.scratch) (fun s hs => haccepts q net s (hq.exist s hs))
    hadmits

end Oracle

end LogicSynthesis
