import LogicSynthesis.Proofs.Cleanup
import LogicSynthesis.Proofs.Resynthesis.ShannonOracle
import LogicSynthesis.Translation

/-!
# Translations keep the function of a network

A translation goes through the live nodes in topological order and keeps, for each of them, a signal
of the destination that has its value, though the gates and the complemented edges of the two bases
differ. The oracle must create gates only, and its proposals must have the value of the function
that is asked for. The one way to fail is then that the oracle proposes nothing.

## Main definitions

- `Oracle.Implements` — an oracle that can be relied on in so many queries
- `Dialogue.Silent` — a dialogue without proposals
- `Network.Asks` — a translation comes to a gate and puts a query to the oracle
- `Network.TranslatesTo` — what a translation has in common with its source

## Main statements

- `faninImages_run` — the leaves of a query
- `translateNode_gate` — a gate is translated unless the oracle is silent
- `translating_preserves_response` — translations keep the function
-/

namespace LogicSynthesis

open Network

/-! ### Attempts -/

namespace Attempt

variable {α β σ : Type}

/-- The attempt succeeds. -/
def Yields (x : Attempt α) (a : α) : Prop := x.run = .ok (.ok a)

/-- The attempt fails, and does not stop. -/
def Fails (x : Attempt α) (e : TranslationError) : Prop := x.run = .ok (.error e)

theorem bind_yields {x : Attempt α} {a : α} (h : x.Yields a) (f : α → Attempt β) :
    (x >>= f) = f a := by
  have hx : x = ExceptT.mk (.ok (.ok a)) := h
  rw [hx]
  rfl

theorem bind_fails {x : Attempt α} {e : TranslationError} (h : x.Fails e) (f : α → Attempt β) :
    (x >>= f).Fails e := by
  have hx : x = ExceptT.mk (.ok (.error e)) := h
  rw [hx]
  rfl

theorem yields_pure (a : α) : (pure a : Attempt α).Yields a := rfl

theorem fails_throw (e : TranslationError) : (throw e : Attempt α).Fails e := rfl

/-- A computation that has a result yields it. -/
theorem yields_lift {x : Except Fault α} {a : α} (h : x = .ok a) :
    (liftM x : Attempt α).Yields a := by
  rw [h]
  rfl

/-- An attempt fails with one error. -/
theorem Fails.unique {x : Attempt α} {e e' : TranslationError} (h : x.Fails e) (h' : x.Fails e') :
    e = e' := Except.error.inj (Except.ok.inj (h.symm.trans h'))

theorem Yields.not_fails {x : Attempt α} {a : α} {e : TranslationError} (h : x.Yields a) :
    ¬ x.Fails e := by
  intro h'
  cases Except.ok.inj (h.symm.trans h')

/-- A loop yields its last state, or it fails where one of its steps fails. -/
theorem foldlM_prefix {body : σ → α → Attempt σ} (inv : List α → σ → Prop) {as : List α} {s : σ}
    (hinit : inv [] s)
    (hstep : ∀ before a after s, as = before ++ a :: after → inv before s →
      (∃ s', (body s a).Yields s' ∧ inv (before ++ [a]) s') ∨ ∃ e, (body s a).Fails e) :
    (∃ s', (as.foldlM body s).Yields s' ∧ inv as s') ∨
      ∃ before a after s' e, as = before ++ a :: after ∧ (before.foldlM body s).Yields s' ∧
        inv before s' ∧ (body s' a).Fails e := by
  have hgen : ∀ after before s', as = before ++ after → (before.foldlM body s).Yields s' →
      inv before s' → (∃ s', (as.foldlM body s).Yields s' ∧ inv as s') ∨
        ∃ before a after s' e, as = before ++ a :: after ∧ (before.foldlM body s).Yields s' ∧
          inv before s' ∧ (body s' a).Fails e := by
    intro after
    induction after with
    | nil =>
      intro before s' heq hrun hinv
      rw [List.append_nil] at heq
      exact .inl ⟨s', heq ▸ hrun, heq ▸ hinv⟩
    | cons a after ih =>
      intro before s' heq hrun hinv
      rcases hstep before a after s' heq hinv with ⟨s'', hbody, hinv'⟩ | ⟨e, hbody⟩
      · refine ih (before ++ [a]) s'' (by simp [heq]) ?_ hinv'
        rw [List.foldlM_append, bind_yields hrun, List.foldlM_cons, bind_yields hbody]
        rfl
      · exact .inr ⟨before, a, after, s', e, heq, hrun, hinv, hbody⟩
  exact hgen as [] s rfl (yields_pure s) hinit

/-- A loop fails where one of its steps fails. -/
theorem foldlM_fails {body : σ → α → Attempt σ} {before after : List α} {a : α} {s s' : σ}
    {e : TranslationError} (hrun : (before.foldlM body s).Yields s') (h : (body s' a).Fails e) :
    ((before ++ a :: after).foldlM body s).Fails e := by
  rw [List.foldlM_append, bind_yields hrun, List.foldlM_cons]
  exact bind_fails h _

end Attempt

/-! ### Oracles -/

variable {μ : Type}

namespace Dialogue

/-- The dialogue ends without a proposal. -/
def Silent (d : Dialogue μ) : Prop := ∃ memory net, d = .finish memory net

/-- Once a signal is kept, there is one at the end. -/
theorem ne_none_of_listen {d : Dialogue μ} {s : Signal} {memory : μ} {image : Option Signal}
    {net : Network} (h : d.listen takeProposal (some s) = .ok (memory, image, net)) :
    image ≠ none := by
  induction d generalizing s with
  | finish memory' net' =>
    obtain ⟨-, hrest⟩ := Prod.mk.inj (Except.ok.inj h)
    rw [← (Prod.mk.inj hrest).1]
    exact Option.some_ne_none s
  | stop fault => cases h
  | propose net' candidate resume ih => exact ih false net' h

/-- No signal is kept just when none was proposed. -/
theorem eq_none_iff_silent {d : Dialogue μ} {memory : μ} {image : Option Signal} {net : Network}
    (h : d.listen takeProposal none = .ok (memory, image, net)) : image = none ↔ d.Silent := by
  cases d with
  | finish memory' net' =>
    obtain ⟨-, hrest⟩ := Prod.mk.inj (Except.ok.inj h)
    exact ⟨fun _ => ⟨_, _, rfl⟩, fun _ => (Prod.mk.inj hrest).1.symm⟩
  | stop fault => cases h
  | propose net' candidate resume =>
    refine ⟨fun hnone => absurd hnone (ne_none_of_listen h), ?_⟩
    rintro ⟨memory', net'', heq⟩
    cases heq

end Dialogue

/-- The oracle stops with no fault, creates gates only, and proposes signals that have the value of
the function. -/
def Oracle.exactTerms : Oracle.Terms :=
  { permitted := Never
    width := TruthTable.maxVars
    admits := fun _ => True
    accepts := Query.Answered }

/-- The oracle creates gates only and proposes signals that have the value of the function of the
leaves, in the next queries, as many as given. Between queries the network may grow. -/
def Oracle.Implements (oracle : Oracle μ) : Nat → μ → Network → Prop
  | 0, _, _ => True
  | k + 1, memory, net => ∀ (function : TruthTable) (leaves : List Signal) (net' : Network),
      net.GrowsTo net' → Query.Valid TruthTable.maxVars net' { function, leaves } →
        (oracle.answer memory { function, leaves } net').Keeps Oracle.exactTerms
          { function, leaves } (oracle.Implements k) net'

namespace Oracle

variable {oracle : Oracle μ} {memory : μ} {net net' : Network}

theorem Implements.grow {k : Nat} (h : oracle.Implements k memory net) (hgrow : net.GrowsTo net') :
    oracle.Implements k memory net' := by
  cases k with
  | zero => trivial
  | succ k => exact fun function leaves net'' hgrow' => h function leaves net'' (hgrow.trans hgrow')

/-- The decomposition can be relied on. -/
theorem implements_shannon (maxCandidates : Nat) (hnet : net.Proper) (k : Nat) :
    (shannon maxCandidates).Implements k () net := by
  induction k generalizing net with
  | zero => trivial
  | succ k ih =>
    intro function leaves net' hgrow hq
    have hnet' := hgrow.proper hnet
    apply Shannon.answer_keeps hnet' hq.driven hq.careSet_spec.1
    · exact fun _ _ => trivial
    · exact fun s net'' hgrow' hs => hq.answered hnet' hgrow' hs
    · exact fun net'' hgrow' => ih (hgrow'.proper hnet')

/-- The decomposition always has a proposal. -/
theorem not_silent_shannon (maxCandidates : Nat) (hnet : net.Proper) {q : Query}
    (hq : q.Valid TruthTable.maxVars net) : ¬ ((shannon maxCandidates).answer () q net).Silent := by
  rintro ⟨memory, net', hfinish⟩
  obtain ⟨proposals, net'', hlisten, -, -, hne, -⟩ :=
    Shannon.answer_listen (fun _ _ _ => false) hnet hq.driven hq.careSet_spec.1 maxCandidates
  have hlisten' : ((shannon maxCandidates).answer () q net).listen
      (Dialogue.recording fun _ _ _ => false) [] = .ok ((), proposals, net'') := hlisten
  rw [hfinish] at hlisten'
  exact hne (Prod.mk.inj (Prod.mk.inj (Except.ok.inj hlisten')).2).1.symm

/-- What is kept of the proposals has the value of the function. -/
theorem Implements.listen_ends {k : Nat} (h : oracle.Implements (k + 1) memory net)
    (hnet : net.Proper) {function : TruthTable} {leaves : List Signal}
    (hq : Query.Valid TruthTable.maxVars net { function, leaves }) :
    ∃ memory' image net',
      (oracle.answer memory { function, leaves } net).listen takeProposal none =
        .ok (memory', image, net') ∧
      net.GrowsTo net' ∧ oracle.Implements k memory' net' ∧
      ∀ s ∈ image, net'.Drives s fun inputs =>
        function.bit (codeOf (leaves.map (net.signalValue inputs))) := by
  have hpattern : ∀ net' inputs, net.GrowsTo net' →
      codeOf (leaves.map (net'.signalValue inputs)) =
        codeOf (leaves.map (net.signalValue inputs)) :=
    fun net' inputs hgrow => hq.pattern_eq hnet hgrow inputs
  let inv : Option Signal → Network → Prop := fun image net' => net.GrowsTo net' ∧
    ∀ s ∈ image, net'.Drives s fun inputs =>
      function.bit (codeOf (leaves.map (net.signalValue inputs)))
  have hends : Ends Never ((oracle.answer memory { function, leaves } net).listen takeProposal none)
      fun r => oracle.Implements k r.1 r.2.2 ∧ inv r.2.1 r.2.2 := by
    refine Dialogue.Keeps.listen_ends inv ?_ ?_ (h function leaves net .refl hq) ⟨.refl, nofun⟩
    · rintro image mid net' ⟨hgrow, hs⟩ hgrow' -
      exact ⟨hgrow.trans hgrow', fun s hin => (hs s hin).grow (hgrow.proper hnet) hgrow'⟩
    · rintro image mid s ⟨hgrow, -⟩ ⟨hlt, hvalue⟩
      refine ends_ok.mpr ⟨rfl, hgrow, ?_⟩
      rintro _ ⟨⟩
      refine ⟨hlt, fun inputs => ?_⟩
      rw [← hpattern mid inputs hgrow]
      exact hvalue inputs nofun
  obtain ⟨⟨memory', image, net'⟩, hlisten, hrest, hgrow, hs⟩ := ends_never_iff.mp hends
  exact ⟨memory', image, net', hlisten, hgrow, hrest, hs⟩

end Oracle

namespace Network

variable {src start dest net net' : Network} {env : Assignment → Assignment} {images : Images}
  {before after : List NodeId} {n : NodeId} {s : Signal} {oracle : Oracle μ} {cis : List Signal}
  {state : Translation μ}

/-! ### Images of edges -/

theorem HasImage.grow (h : HasImage src env images net n) (hnet : net.Proper)
    (hgrow : net.GrowsTo net') : HasImage src env images net' n := by
  obtain ⟨s, hfound, hs⟩ := h
  exact ⟨s, hfound, hs.grow hnet hgrow⟩

theorem HasImage.contains (h : HasImage src env images net n) : images.contains n = true := by
  obtain ⟨s, hfound, -⟩ := h
  rw [Std.HashMap.contains_eq_isSome_getElem?, hfound]
  rfl

/-- The image of an edge has its value. A lookup table is built for the complement where edges have
no polarity. -/
theorem computes_edgeImage (hnet : net.Proper) (h : HasImage src env images net s.node) :
    (edgeImage images s).Computes net fun inputs => src.signalValue (env inputs) s := by
  obtain ⟨image, hfound, himage⟩ := h
  unfold edgeImage
  rw [hfound]
  dsimp only
  unfold Build.withPolarity
  cases hnegated : s.negated with
  | false =>
    apply (Build.computes_pure himage).of_eq
    intro inputs
    rw [signalValue, edgeValue, hnegated, Bool.xor_false]
  | true =>
    apply (Build.computes_not hnet himage).of_eq
    intro inputs
    rw [signalValue, edgeValue, hnegated, Bool.xor_true]

theorem mapM_edgeImage_grows (hnet : net.Proper) {signals : List Signal}
    (himages : ∀ s ∈ signals, HasImage src env images net s.node) :
    (signals.mapM (edgeImage images)).Grows net fun rs net' => (∀ r ∈ rs, r.node < net'.size) ∧
      ∀ inputs, rs.map (net'.signalValue inputs) = signals.map (src.signalValue (env inputs)) := by
  have hmap : ∃ rs net', signals.mapM (edgeImage images) net = .ok (rs, net') ∧
      net.GrowsTo net' ∧ (∀ r ∈ rs, r.node < net'.size) ∧ ∀ inputs,
        rs.map (net'.signalValue inputs) = signals.map (src.signalValue (env inputs)) := by
    apply Build.mapM_run fun done rs net' => net.GrowsTo net' ∧ (∀ r ∈ rs, r.node < net'.size) ∧
      ∀ inputs, rs.map (net'.signalValue inputs) = done.map (src.signalValue (env inputs))
    · exact ⟨.refl, List.forall_mem_nil _, fun _ => rfl⟩
    · rintro s hs done rs mid ⟨hgrow, hlt, hvalues⟩
      have hmid := hgrow.proper hnet
      obtain ⟨r, net', hrun, hgrow', hr⟩ := computes_edgeImage hmid ((himages s hs).grow hnet hgrow)
      have hext := hgrow'.extends hmid.wellFormed
      refine ⟨r, net', hrun, hgrow.trans hgrow', ?_, ?_⟩
      · refine List.forall_mem_append.mpr ⟨fun r' hr' => ?_, List.forall_mem_singleton.mpr hr.lt⟩
        exact (hlt r' hr').trans_le hext.size_le
      · intro inputs
        have hkept : rs.map (net'.signalValue inputs) = rs.map (mid.signalValue inputs) :=
          List.map_congr_left fun r' hr' =>
            hext.signalValue_eq hmid.wellFormed hmid.acyclic inputs (hlt r' hr')
        rw [List.map_append, List.map_append, hkept, hvalues, List.map_singleton,
          List.map_singleton, hr.value]
  obtain ⟨rs, net', hrun, hgrow, hspec⟩ := hmap
  exact ⟨rs, net', hrun, hgrow, hspec⟩

/-- The leaves of a query have the values of the fanins. -/
theorem faninImages_run (hdest : dest.Proper) {fanins : List Signal}
    (himages : ∀ s ∈ fanins, HasImage src env images dest s.node) :
    ∃ leaves dest', (faninImages images fanins dest).Yields (leaves, dest') ∧
      dest.GrowsTo dest' ∧ (∀ r ∈ leaves, r.node < dest'.size) ∧
      ∀ inputs, leaves.map (dest'.signalValue inputs) =
        fanins.map (src.signalValue (env inputs)) := by
  obtain ⟨leaves, dest', hrun, hspec⟩ := mapM_edgeImage_grows hdest himages
  have hfind : (fanins.find? fun s => !images.contains s.node) = none := by
    rw [List.find?_eq_none]
    intro s hs
    rw [(himages s hs).contains]
    exact Bool.false_ne_true
  refine ⟨leaves, dest', ?_, hspec⟩
  rw [faninImages, hfind]
  exact Attempt.yields_lift hrun

/-! ### Translating nodes -/

/-- What holds when the nodes of `before` are translated: they have images, the gates among them
were counted, and the oracle can be relied on for the live gates that are left. -/
structure Translated (src : Network) (oracle : Oracle μ) (start : Network) (cis : List Signal)
    (before : List NodeId) (state : Translation μ) : Prop where
  grows : start.GrowsTo state.dest
  images : ∀ n, n ∈ src.cis ∨ n ∈ before →
    HasImage src (src.fed start cis) state.images state.dest n
  count : state.count = before.countP src.isGate
  oracle : oracle.Implements (src.liveGates.card - state.count) state.memory state.dest

theorem Translated.step {state' : Translation μ} (h : Translated src oracle start cis before state)
    (hgrow : state.dest.GrowsTo state'.dest)
    (hkept : ∀ m, HasImage src (src.fed start cis) state.images state.dest m →
      HasImage src (src.fed start cis) state'.images state'.dest m)
    (hn : HasImage src (src.fed start cis) state'.images state'.dest n)
    (hcount : state'.count = state.count + if src.isGate n then 1 else 0)
    (horacle : oracle.Implements (src.liveGates.card - state'.count) state'.memory state'.dest) :
    Translated src oracle start cis (before ++ [n]) state' := by
  refine ⟨h.grows.trans hgrow, ?_, ?_, horacle⟩
  · rintro m (hm | hm)
    · exact hkept m (h.images m (.inl hm))
    · rcases List.mem_append.mp hm with hm | hm
      · exact hkept m (h.images m (.inr hm))
      · exact List.mem_singleton.mp hm ▸ hn
  · rw [hcount, h.count, List.countP_append, List.countP_singleton]

/-- Terminals are not put to the oracle. -/
theorem translateNode_terminal (hac : src.Acyclic) (hinv : src.Inventory) (hstart : start.Proper)
    (hn : n < src.size) (hterminal : src.isGate n = false)
    (h : Translated src oracle start cis before state) :
    ∃ state', (translateNode src oracle state n).Yields state' ∧
      Translated src oracle start cis (before ++ [n]) state' := by
  obtain ⟨node, hnode⟩ := exists_node hn
  have hdest := h.grows.proper hstart
  have hask : (liftM (src.node n) : Attempt Node).Yields node := Attempt.yields_lift (node_eq hnode)
  have hinput : node.kind.isInput = true → n ∈ src.cis := fun hkind =>
    hinv.mem_cis.mpr (kindIs_iff.mpr ⟨node, hnode, hkind⟩)
  have hcount : ∀ k, k = k + if src.isGate n then 1 else 0 := by simp [hterminal]
  rw [translateNode, Attempt.bind_yields hask]
  cases hkind : node.kind with
  | constant v =>
    have hs : state.dest.Drives (state.dest.basis.constant v)
        fun inputs => src.value (src.fed start cis inputs) n := by
      apply (hdest.drives_constant v).of_eq
      exact fun inputs => (value_of_constant hac hnode hkind).symm
    exact ⟨_, Attempt.yields_pure _, h.step .refl
      (fun _ hm => .insert (.inr hm) hdest .refl hs) (.insert (.inl rfl) hdest .refl hs)
      (hcount _) h.oracle⟩
  | primaryInput =>
    exact ⟨_, Attempt.yields_pure _, h.step .refl (fun _ hm => hm)
      (h.images n (.inl (hinput (hkind ▸ rfl)))) (hcount _) h.oracle⟩
  | registerOutput =>
    exact ⟨_, Attempt.yields_pure _, h.step .refl (fun _ hm => hm)
      (h.images n (.inl (hinput (hkind ▸ rfl)))) (hcount _) h.oracle⟩
  | gate =>
    rw [isGate, kindIs_eq hnode, hkind] at hterminal
    cases hterminal

/-- The query that is put to the oracle for the gate `n`, and the destination in which its leaves
are found. -/
def Asks (src : Network) (state : Translation μ) (n : NodeId) (query : Query) (dest : Network) :
    Prop :=
  ∃ node, src.nodes[n]? = some node ∧ node.kind = .gate ∧
    (faninImages state.images node.fanins state.dest).Yields (query.leaves, dest) ∧
    src.functions.get? node.function = some query.function ∧ query.dontCares = none

/-- A silent oracle makes the translation fail. -/
theorem translateNode_fails {query : Query} (hasks : src.Asks state n query dest)
    (hsilent : (oracle.answer state.memory query dest).Silent) :
    (translateNode src oracle state n).Fails (.noImplementation n query.function) := by
  obtain ⟨function, leaves, dontCares⟩ := query
  obtain ⟨node, hnode, hkind, hleaves, hfunction, rfl⟩ := hasks
  obtain ⟨memory, net, hfinish⟩ := hsilent
  have hask : (liftM (src.node n) : Attempt Node).Yields node := Attempt.yields_lift (node_eq hnode)
  have hget : (liftM (src.functions.get node.function) : Attempt TruthTable).Yields function :=
    Attempt.yields_lift (FunctionCache.get_eq_ok.mpr hfunction)
  rw [translateNode, Attempt.bind_yields hask]
  simp only [hkind]
  rw [Attempt.bind_yields hleaves, Attempt.bind_yields hget, hfinish]
  exact Attempt.fails_throw _

/-- A gate whose fanins are translated is translated unless the oracle is silent. -/
theorem translateNode_gate (hsrc : src.WellFormed) (hac : src.Acyclic) (hstart : start.Proper)
    (hgate : src.isGate n = true) (hfanins : ∀ m, src.Reads n m → m ∈ before)
    (hleft : before.countP src.isGate < src.liveGates.card)
    (h : Translated src oracle start cis before state) :
    ∃ query dest, src.Asks state n query dest ∧ dest.Proper ∧
      query.Valid TruthTable.maxVars dest ∧
      ((oracle.answer state.memory query dest).Silent ∨
        ∃ state', (translateNode src oracle state n).Yields state' ∧
          Translated src oracle start cis (before ++ [n]) state') := by
  obtain ⟨node, hnode, hkind⟩ := isGate_iff.mp hgate
  have hdest := h.grows.proper hstart
  have hask : (liftM (src.node n) : Attempt Node).Yields node := Attempt.yields_lift (node_eq hnode)
  have himages : ∀ s ∈ node.fanins,
      HasImage src (src.fed start cis) state.images state.dest s.node := fun s hs =>
    h.images _ (.inr (hfanins _ (reads_of_mem hnode hs)))
  obtain ⟨leaves, dest, hleaves, hgrow, hlt, hvalues⟩ := faninImages_run hdest himages
  obtain ⟨function, hfunction, hcanonical, hvars⟩ := hsrc.exists_function hnode hkind
  have hget : (liftM (src.functions.get node.function) : Attempt TruthTable).Yields function :=
    Attempt.yields_lift (FunctionCache.get_eq_ok.mpr hfunction)
  have hlen : leaves.length = node.fanins.length := by
    simpa using congrArg List.length (hvalues fun _ => false)
  have hq : Query.Valid TruthTable.maxVars dest { function, leaves } :=
    ⟨hcanonical, hvars.trans hlen.symm, hlen ▸ hvars ▸ hcanonical.numVars_le, hlt, nofun⟩
  -- The oracle can be relied on for this gate, and for one less afterwards.
  obtain ⟨k, hk⟩ : ∃ k, src.liveGates.card - state.count = k + 1 :=
    ⟨src.liveGates.card - state.count - 1, by have := h.count; omega⟩
  have horacle := hk ▸ h.oracle
  have hdest' := hgrow.proper hdest
  obtain ⟨memory, image, dest', hlisten, hgrow', hrest, hs⟩ :=
    (horacle.grow hgrow).listen_ends hdest' hq
  have hheard : (liftM ((oracle.answer state.memory { function, leaves } dest).listen takeProposal
      none) : Attempt (μ × Option Signal × Network)).Yields (memory, image, dest') :=
    Attempt.yields_lift hlisten
  refine ⟨{ function, leaves }, dest, ⟨node, hnode, hkind, hleaves, hfunction, rfl⟩, hdest', hq, ?_⟩
  cases image with
  | none => exact .inl ((Dialogue.eq_none_iff_silent hlisten).mp rfl)
  | some s =>
    have hs' : dest'.Drives s fun inputs => src.value (src.fed start cis inputs) n := by
      apply (hs s rfl).of_eq
      intro inputs
      rw [value_of_gate hac hnode hkind, hvalues, functionOf, hfunction]
      rfl
    have hstep : (translateNode src oracle state n).Yields
        ⟨memory, dest', state.images.insert n s, state.count + 1⟩ := by
      rw [translateNode, Attempt.bind_yields hask]
      simp only [hkind]
      rw [Attempt.bind_yields hleaves, Attempt.bind_yields hget, Attempt.bind_yields hheard]
      exact Attempt.yields_pure _
    refine .inr ⟨_, hstep, h.step (hgrow.trans hgrow') ?_ ?_ ?_ ?_⟩
    · exact fun m hm => .insert (.inr (hm.grow hdest hgrow)) hdest' hgrow' hs'
    · exact .insert (.inl rfl) hdest' hgrow' hs'
    · simp [hgate]
    · have hk' : src.liveGates.card - (state.count + 1) = k := by omega
      exact hk' ▸ hrest

/-! ### Translating networks -/

/-- The translation over `basis` comes to the node `n` in the given state. -/
def ComesTo (src : Network) (basis : Basis) (oracle : Oracle μ) (memory : μ) (n : NodeId)
    (state : Translation μ) : Prop :=
  ∃ cis start before after, copyInputs src (new basis) = .ok (cis, start) ∧
    src.topoOrder = before ++ n :: after ∧
    (before.foldlM (translateNode src oracle) ⟨memory, start, src.inputImages cis, 0⟩).Yields state

/-- A network over `basis` that answers like its source, with a report that counts the gates which
the outputs of the source depend on. -/
structure TranslatesTo (src : Network) (basis : Basis) (report : TranslationReport)
    (net' : Network) : Prop where
  basis : net'.basis = basis
  reproduces : src.Reproduces net'
  nodes : report.nodes = src.liveGates.card

theorem translated_start (hac : src.Acyclic) (hinv : src.Inventory) {memory : μ}
    (hlen : cis.length = src.numCis) (hcis : ∀ s ∈ cis, s.node < start.size)
    (horacle : oracle.Implements src.liveGates.card memory start) :
    Translated src oracle start cis [] ⟨memory, start, src.inputImages cis, 0⟩ :=
  ⟨.refl, (copied_start hac hinv hlen hcis).images, rfl, horacle⟩

/-- The live nodes are translated, or the oracle is silent for one of the gates. -/
theorem translateNodes_cases (hsrc : src.Built) (hac : src.Acyclic) (hstart : start.Proper)
    (h : Translated src oracle start cis [] state) :
    (∃ state', (src.topoOrder.foldlM (translateNode src oracle) state).Yields state' ∧
      Translated src oracle start cis src.topoOrder state') ∨
    ∃ before n after state' query dest, src.topoOrder = before ++ n :: after ∧
      (before.foldlM (translateNode src oracle) state).Yields state' ∧
      src.Asks state' n query dest ∧ dest.Proper ∧ query.Valid TruthTable.maxVars dest ∧
      (oracle.answer state'.memory query dest).Silent := by
  have hwf := hsrc.wellFormed
  have hinv := hsrc.inventory
  have hgates := countP_isGate_topoOrder hwf hac hinv
  -- A step fails only where the oracle is silent, which is put down beside the invariant.
  have hstep : ∀ before n after state', src.topoOrder = before ++ n :: after →
      Translated src oracle start cis before state' →
      (∃ state'', (translateNode src oracle state' n).Yields state'' ∧
        Translated src oracle start cis (before ++ [n]) state'') ∨
      ∃ query dest, src.Asks state' n query dest ∧ dest.Proper ∧
        query.Valid TruthTable.maxVars dest ∧
        (oracle.answer state'.memory query dest).Silent := by
    intro before n after state' horder htranslated
    have hn : n < src.size := lt_size_of_mem_topoOrder hwf hac hinv
      (horder ▸ List.mem_append_right _ List.mem_cons_self)
    cases hgate : src.isGate n with
    | false => exact .inl (translateNode_terminal hac hinv hstart hn hgate htranslated)
    | true =>
      rw [horder, List.countP_append, List.countP_cons_of_pos hgate] at hgates
      obtain ⟨query, dest, hasks, hdest, hq, hcases⟩ := translateNode_gate hwf hac hstart hgate
        (fun m hreads => mem_of_topoOrder_eq hwf hac hinv horder hreads) (by omega) htranslated
      exact hcases.symm.imp_right fun hsilent => ⟨query, dest, hasks, hdest, hq, hsilent⟩
  have hloop := Attempt.foldlM_prefix (Translated src oracle start cis) h
    fun before n after state' horder htranslated =>
      (hstep before n after state' horder htranslated).imp_right
        fun ⟨_, _, hasks, _, _, hsilent⟩ => ⟨_, translateNode_fails hasks hsilent⟩
  refine hloop.imp_right ?_
  rintro ⟨before, n, after, state', e, horder, hrun, htranslated, hfails⟩
  rcases hstep before n after state' horder htranslated with ⟨state'', hyields, -⟩ | hsilent
  · exact absurd hfails hyields.not_fails
  · obtain ⟨query, dest, hasks⟩ := hsilent
    exact ⟨before, n, after, state', query, dest, horder, hrun, hasks⟩

/-- The outputs are translated, and the answers of the source are those of the translation. -/
theorem outputImages_run (hwf : src.WellFormed) (hac : src.Acyclic) (hinv : src.Inventory)
    (hstart : start.Proper) (h : Translated src oracle start cis src.topoOrder state) :
    ∃ outputs net', (outputImages src state.images state.dest).Yields (outputs, net') ∧
      start.GrowsTo net' ∧ (∀ s ∈ outputs, s.node < net'.size) ∧
      ∀ inputs, outputs.map (net'.signalValue inputs) =
        src.response (cis.map (start.signalValue inputs)) := by
  have himages : ∀ s ∈ src.cos, HasImage src (src.fed start cis) state.images state.dest s.node :=
    fun s hs => h.images _ (.inr (output_mem_topoOrder hwf hac hinv hs))
  obtain ⟨outputs, net', hrun, hgrow, hlt, hvalues⟩ :=
    mapM_edgeImage_grows (h.grows.proper hstart) himages
  refine ⟨outputs, net', ?_, h.grows.trans hgrow, hlt, hvalues⟩
  rw [outputImages, List.find?_eq_none.mpr ?_]
  · exact Attempt.yields_lift hrun
  · rintro ⟨s, i⟩ hs
    dsimp only
    rw [(himages s (List.fst_mem_of_mem_zipIdx hs)).contains]
    exact Bool.false_ne_true

/-- A silent answer makes the translation fail. -/
theorem translate_fails {basis : Basis} {memory : μ} {query : Query}
    (hcomes : src.ComesTo basis oracle memory n state) (hasks : src.Asks state n query dest)
    (hsilent : (oracle.answer state.memory query dest).Silent) :
    (src.translate basis oracle memory).Fails (.noImplementation n query.function) := by
  obtain ⟨cis, start, before, after, hinputs, horder, hrun⟩ := hcomes
  have hstart : (liftM (copyInputs src (new basis)) : Attempt (List Signal × Network)).Yields
      (cis, start) := Attempt.yields_lift hinputs
  rw [translate, Attempt.bind_yields hstart]
  apply Attempt.bind_fails
  rw [horder]
  exact Attempt.foldlM_fails hrun (translateNode_fails hasks hsilent)

/-- A translation succeeds unless the oracle is silent for some gate. -/
theorem translate_cases (hsrc : src.Built) (hac : src.Acyclic) (basis : Basis)
    (oracle : Oracle μ) (memory : μ)
    (horacle : ∀ start, start.InputsOnly → start.basis = basis →
      oracle.Implements src.liveGates.card memory start) :
    (∃ report memory' net', (src.translate basis oracle memory).Yields (report, memory', net') ∧
      src.TranslatesTo basis report net') ∨
    ∃ n ∈ src.liveGates, ∃ state query dest, src.ComesTo basis oracle memory n state ∧
      src.Asks state n query dest ∧ dest.Proper ∧ query.Valid TruthTable.maxVars dest ∧
      (oracle.answer state.memory query dest).Silent := by
  have hwf := hsrc.wellFormed
  have hinv := hsrc.inventory
  obtain ⟨start, hinputs, honly, hbasis, hpis, hros⟩ := copyInputs_run src basis
  have hstart := honly.proper
  have hlen : (start.cis.map Signal.ofNode).length = src.numCis := by
    rw [List.length_map, length_cis, numCis, numCis, hpis, hros]
  have hfirst := translated_start hac hinv hlen honly.cis_lt (horacle start honly hbasis)
  rcases translateNodes_cases hsrc hac hstart hfirst with ⟨state, hrun, htranslated⟩ |
    ⟨before, n, after, state, query, dest, horder, hrun, hasks, hrest⟩
  · left
    obtain ⟨outputs, mid, houtputs, hgrow, hout, hvalues⟩ :=
      outputImages_run hwf hac hinv hstart htranslated
    let net' := mid.withOutputs (outputs.take src.pos.size) (outputs.drop src.pos.size)
    have hyields : (liftM (copyInputs src (new basis)) : Attempt (List Signal × Network)).Yields
        (start.cis.map .ofNode, start) := Attempt.yields_lift hinputs
    have hadd : (liftM (addOutputs src outputs mid) : Attempt (Unit × Network)).Yields
        ((), net') := Attempt.yields_lift (addOutputs_run hout)
    obtain ⟨memory', dest, images, count⟩ := state
    refine ⟨{ nodes := count, gates := net'.numGates }, memory', net', ?_,
      (hgrow.extends hstart.wellFormed).basis.trans hbasis,
      reproduces_withOutputs honly hpis hros hgrow hvalues, ?_⟩
    · rw [translate, Attempt.bind_yields hyields]
      refine Eq.trans (congrArg ExceptT.run (Attempt.bind_yields hrun _)) ?_
      dsimp only at houtputs ⊢
      rw [Attempt.bind_yields houtputs, Attempt.bind_yields hadd]
      exact Attempt.yields_pure _
    · exact htranslated.count.trans (countP_isGate_topoOrder hwf hac hinv)
  · right
    have hgate : src.isGate n = true := by
      obtain ⟨node, hnode, hkind, -⟩ := hasks
      exact isGate_iff.mpr ⟨node, hnode, hkind⟩
    have hlive : n ∈ src.liveGates := by
      refine ((mem_topoOrder_iff hwf hac hinv).mp ?_).resolve_left fun hterminal => ?_
      · exact horder ▸ List.mem_append_right _ List.mem_cons_self
      · exact hinv.not_mem_terminals hgate (hinv.mem_terminals_iff.mpr hterminal)
    exact ⟨n, hlive, state, query, dest, ⟨_, start, before, after, hinputs, horder, hrun⟩, hasks,
      hrest⟩

/-- A translation between any two bases, with an oracle that creates gates only and answers every
query with signals of the value that is asked for, fails just when the oracle proposes nothing for a
gate that the outputs depend on. Otherwise the result answers like the source, and the report counts
those gates. With the Shannon decomposition a translation always succeeds. -/
theorem translating_preserves_response (hsrc : src.Built) (hac : src.Acyclic) (basis : Basis) :
    (∀ (μ : Type) (oracle : Oracle μ) (memory : μ),
      (∀ start, start.InputsOnly → start.basis = basis →
        oracle.Implements src.liveGates.card memory start) →
      ((∃ report memory' net',
          (src.translate basis oracle memory).Yields (report, memory', net') ∧
            src.TranslatesTo basis report net') ∨
        ∃ e, (src.translate basis oracle memory).Fails e) ∧
      ∀ e, (src.translate basis oracle memory).Fails e ↔
        ∃ n ∈ src.liveGates, ∃ state query dest, src.ComesTo basis oracle memory n state ∧
          src.Asks state n query dest ∧ (oracle.answer state.memory query dest).Silent ∧
            e = .noImplementation n query.function) ∧
    ∀ maxCandidates, ∃ report net',
      (src.translate basis (Oracle.shannon maxCandidates) ()).Yields (report, (), net') ∧
        src.TranslatesTo basis report net' := by
  refine ⟨?_, ?_⟩
  · intro μ oracle memory horacle
    rcases translate_cases hsrc hac basis oracle memory horacle with hdone | hsilent
    · refine ⟨.inl hdone, fun e => ⟨fun hfails => ?_, ?_⟩⟩
      · obtain ⟨report, memory', net', hyields, -⟩ := hdone
        exact absurd hfails hyields.not_fails
      · rintro ⟨n, -, state, query, dest, hcomes, hasks, hsilent, rfl⟩
        exact translate_fails hcomes hasks hsilent
    · obtain ⟨n, hn, state, query, dest, hcomes, hasks, -, -, hsilent⟩ := hsilent
      have hfails := translate_fails hcomes hasks hsilent
      refine ⟨.inr ⟨_, hfails⟩, fun e => ⟨fun hfails' => ?_, ?_⟩⟩
      · exact ⟨n, hn, state, query, dest, hcomes, hasks, hsilent, hfails'.unique hfails⟩
      · rintro ⟨n, -, state, query, dest, hcomes, hasks, hsilent, rfl⟩
        exact translate_fails hcomes hasks hsilent
  · intro maxCandidates
    rcases translate_cases hsrc hac basis (.shannon maxCandidates) ()
      fun start hstart _ => Oracle.implements_shannon maxCandidates hstart.proper _ with
      ⟨report, ⟨⟩, net', hdone⟩ | ⟨n, -, state, query, dest, -, -, hdest, hq, hsilent⟩
    · exact ⟨report, net', hdone⟩
    · exact absurd hsilent (Oracle.not_silent_shannon maxCandidates hdest hq)

/-- The small network over majorities, by the decomposition. -/
theorem translating_preserves_tappedConjunction :
    (∃ report net', (tappedConjunction.translate .majorityInverter (Oracle.shannon 1) ()).Yields
        (report, (), net') ∧ tappedConjunction.TranslatesTo .majorityInverter report net') ∧
    ∀ e, (tappedConjunction.translate .majorityInverter (Oracle.shannon 1) ()).Fails e ↔
      ∃ n ∈ tappedConjunction.liveGates, ∃ state query dest,
        tappedConjunction.ComesTo .majorityInverter (Oracle.shannon 1) () n state ∧
        tappedConjunction.Asks state n query dest ∧
        ((Oracle.shannon 1).answer state.memory query dest).Silent ∧
        e = .noImplementation n query.function := by
  obtain ⟨hany, hshannon⟩ := translating_preserves_response assembled_tappedConjunction.built
    acyclic_tappedConjunction .majorityInverter
  refine ⟨hshannon 1, (hany Unit (.shannon 1) () ?_).2⟩
  exact fun start hstart _ => Oracle.implements_shannon 1 hstart.proper _

end Network

end LogicSynthesis
