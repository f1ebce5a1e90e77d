import LogicSynthesis.Proofs.Cleanup.Compaction
import LogicSynthesis.Proofs.Network.Operators

/-!
# Clean-ups are constructed

A copy calls the constructors of its destination and nothing else. So the clean-up of a network is a
constructed network, whatever substitutions the network has seen, and it is in normal form. It may
hold dangling gates where the copy folded, but its own clean-up holds none and is final.

## Main definitions

- `Build.Constructing` — a computation that calls constructors

## Main statements

- `copyInto_constructing` — a copy calls constructors
- `constructed_cleanup` — a clean-up is constructed
- `cleanup_settles` — two clean-ups are enough
-/

namespace LogicSynthesis

open Network

namespace Build

variable {α β : Type} {basis : Basis} {b : Build α} {post : α → Prop} {goal : β → Prop}

/-- Whenever the computation ends on a constructed network over the basis, it leaves one, and the
result satisfies `post`. -/
def Constructing (basis : Basis) (b : Build α) (post : α → Prop) : Prop :=
  ∀ net a net', net.Constructed → net.basis = basis → b net = .ok (a, net') →
    net'.Constructed ∧ net'.basis = basis ∧ post a

/-- A construction whose result is known. -/
theorem constructing_of (hstep : ∀ net a net', net.basis = basis → b net = .ok (a, net') →
    net.Constructs net' ∧ net'.basis = net.basis ∧ post a) : Constructing basis b post := by
  intro net a net' hnet hbasis h
  obtain ⟨hconstructs, hbasis', hpost⟩ := hstep net a net' hbasis h
  exact ⟨hnet.construct hconstructs, hbasis'.trans hbasis, hpost⟩

theorem constructing_pure {a : α} (h : post a) : Constructing basis (pure a) post := by
  intro net a' net' hnet hbasis hrun
  obtain ⟨rfl, rfl⟩ := Prod.mk.inj (Except.ok.inj hrun)
  exact ⟨hnet, hbasis, h⟩

theorem constructing_ask (question : Network → Except Fault α) :
    Constructing basis (ask question) fun _ => True := by
  intro net a net' hnet hbasis hrun
  cases hask : question net with
  | error fault =>
    rw [ask, hask] at hrun
    cases hrun
  | ok a' =>
    rw [ask, hask] at hrun
    obtain ⟨-, rfl⟩ := Prod.mk.inj (Except.ok.inj hrun)
    exact ⟨hnet, hbasis, trivial⟩

theorem Constructing.bind {f : α → Build β} (hb : Constructing basis b post)
    (hf : ∀ a, post a → Constructing basis (f a) goal) : Constructing basis (b >>= f) goal := by
  intro net c net' hnet hbasis hrun
  obtain ⟨⟨a, mid⟩, hmid, hrun⟩ := bind_eq_ok hrun
  obtain ⟨hnet, hbasis, hpost⟩ := hb net a mid hnet hbasis hmid
  exact hf a hpost mid c net' hnet hbasis hrun

theorem Constructing.mapM {f : α → Build β} {as : List α}
    (hf : ∀ a ∈ as, Constructing basis (f a) goal) :
    Constructing basis (as.mapM f) fun bs => ∀ c ∈ bs, goal c := by
  induction as with
  | nil => exact constructing_pure (List.forall_mem_nil _)
  | cons a as ih =>
    rw [List.mapM_cons]
    refine (hf a List.mem_cons_self).bind fun c hc => ?_
    refine (ih fun a ha => hf a (List.mem_cons_of_mem _ ha)).bind fun cs hcs => ?_
    exact constructing_pure (List.forall_mem_cons.mpr ⟨hc, hcs⟩)

theorem Constructing.foldlM {f : β → α → Build β} {as : List α} {c : β} (hc : goal c)
    (hf : ∀ c, ∀ a ∈ as, goal c → Constructing basis (f c a) goal) :
    Constructing basis (as.foldlM f c) goal := by
  induction as generalizing c with
  | nil => exact constructing_pure hc
  | cons a as ih =>
    rw [List.foldlM_cons]
    refine (hf c a List.mem_cons_self hc).bind fun c' hc' => ?_
    exact ih hc' fun c a ha => hf c a (List.mem_cons_of_mem _ ha)

theorem Constructing.forM {f : α → Build β} {as : List α}
    (hf : ∀ a ∈ as, Constructing basis (f a) fun _ => True) :
    Constructing basis (as.forM fun a => discard (f a)) fun _ => True := by
  induction as with
  | nil => exact constructing_pure trivial
  | cons a as ih =>
    have hfirst : Constructing basis (discard (f a)) fun _ => True :=
      (hf a List.mem_cons_self).bind fun _ _ => constructing_pure trivial
    exact hfirst.bind fun _ _ => ih fun a ha => hf a (List.mem_cons_of_mem _ ha)

/-! ### The constructors -/

theorem constructing_pi : Constructing basis pi basis.Admits := by
  refine constructing_of fun net s net' _ h => ?_
  obtain ⟨rfl, rfl⟩ := Prod.mk.inj (Except.ok.inj h)
  exact ⟨.pi, rfl, fun _ => rfl⟩

theorem constructing_ro : Constructing basis ro basis.Admits := by
  refine constructing_of fun net s net' _ h => ?_
  obtain ⟨rfl, rfl⟩ := Prod.mk.inj (Except.ok.inj h)
  exact ⟨.ro, rfl, fun _ => rfl⟩

theorem constructing_po {s : Signal} (hs : basis.Admits s) :
    Constructing basis (po s) fun _ => True :=
  constructing_of fun _ _ _ hbasis h =>
    ⟨.po (hbasis ▸ hs) h, (addsOutput_of_addPo h).basis, trivial⟩

theorem constructing_ri {s : Signal} (hs : basis.Admits s) :
    Constructing basis (ri s) fun _ => True :=
  constructing_of fun _ _ _ hbasis h =>
    ⟨.ri (hbasis ▸ hs) h, (addsOutput_of_addRi h).basis, trivial⟩

theorem constructing_constant (v : Bool) : Constructing basis (constant v) basis.Admits := by
  intro net s net' hnet hbasis h
  obtain ⟨rfl, rfl⟩ := Prod.mk.inj (Except.ok.inj h)
  refine ⟨hnet, hbasis, fun hlut => ?_⟩
  rw [hbasis, hlut]
  rfl

theorem constructing_operator (op : Operator) (hop : op.Available basis) :
    Constructing basis op.build basis.Admits := by
  intro net s net' hnet hbasis h
  subst hbasis
  have hwf := hnet.assembled.built.wellFormed
  exact ⟨hnet.construct (.operator hop h), ((hop.grows hwf h).extends hwf).basis,
    op.admits_result h⟩

theorem constructing_cloneNode {model : Network} (hmodel : model.WellFormed)
    (hbasis : model.basis = basis) {fanins : List Signal} (hfanins : ∀ s ∈ fanins, basis.Admits s)
    (source : NodeId) : Constructing basis (cloneNode model source fanins) basis.Admits := by
  intro net s net' hnet hnetBasis h
  subst hnetBasis
  have hwf := hnet.assembled.built.wellFormed
  refine ⟨hnet.construct (.clone hmodel hbasis hfanins h),
    ((grows_of_cloneNode hmodel hwf h).extends hwf).basis, fun hlut => ?_⟩
  obtain ⟨t, -, hrun⟩ := cloneNode_lookupTable hlut h
  exact Operator.negated_of_lut hlut hrun

end Build

namespace Network

open Build

variable {src c : Network} {basis : Basis} {images : Images}

/-! ### Copies -/

/-- Every image is a signal of the basis. -/
def AdmitsImages (basis : Basis) (images : Images) : Prop :=
  ∀ (n : NodeId) s, images[n]? = some s → basis.Admits s

theorem AdmitsImages.insert (h : AdmitsImages basis images) {s : Signal} (hs : basis.Admits s)
    (n : NodeId) : AdmitsImages basis (images.insert n s) := by
  intro m s' hs'
  rw [Std.HashMap.getElem?_insert] at hs'
  split at hs'
  · exact Option.some.inj hs' ▸ hs
  · exact h m s' hs'

theorem admitsImages_foldl {pairs : List (NodeId × Signal)}
    (hpairs : ∀ pair ∈ pairs, basis.Admits pair.2) (h : AdmitsImages basis images) :
    AdmitsImages basis (pairs.foldl (fun images (n, s) => images.insert n s) images) := by
  induction pairs generalizing images with
  | nil => exact h
  | cons pair pairs ih =>
    exact ih (fun p hp => hpairs p (List.mem_cons_of_mem _ hp))
      (h.insert (hpairs pair List.mem_cons_self) pair.1)

theorem edgeImage_constructing (h : AdmitsImages basis images) (s : Signal) :
    Constructing basis (edgeImage images s) basis.Admits := by
  unfold edgeImage
  cases himage : images[s.node]? with
  | none => exact fun _ _ _ _ _ hrun => nomatch hrun
  | some image =>
    have himage := h _ image himage
    change Constructing basis (if s.negated then Build.not image else return image) basis.Admits
    split
    · exact constructing_operator (.not image)
        ⟨List.forall_mem_singleton.mpr himage, nofun⟩
    · exact constructing_pure himage

theorem copyNode_constructing (hsrc : src.WellFormed) (hbasis : src.basis = basis)
    (h : AdmitsImages basis images) (n : NodeId) :
    Constructing basis (copyNode src images n) (AdmitsImages basis) := by
  refine (constructing_ask _).bind fun node _ => ?_
  cases node.kind with
  | constant v =>
    exact (constructing_constant v).bind fun s hs => constructing_pure (h.insert hs n)
  | primaryInput => exact constructing_pure h
  | registerOutput => exact constructing_pure h
  | gate =>
    refine (Constructing.mapM fun s _ => edgeImage_constructing h s).bind fun fanins hfanins => ?_
    refine (constructing_cloneNode hsrc hbasis hfanins n).bind fun s hs => ?_
    exact constructing_pure (h.insert hs n)

/-- A copy calls the constructors of its destination and nothing else. -/
theorem copyInto_constructing (hsrc : src.WellFormed) (hbasis : src.basis = basis)
    {cis : List Signal} (hcis : ∀ s ∈ cis, basis.Admits s) :
    Constructing basis (copyInto src cis) fun signals => ∀ s ∈ signals, basis.Admits s := by
  refine (constructing_ask _).bind fun _ _ => ?_
  have hstart : AdmitsImages basis
      ((src.cis.zip cis).foldl (fun images (n, s) => images.insert n s) (∅ : Images)) := by
    refine admitsImages_foldl (fun pair hpair => ?_) fun n s hs => ?_
    · exact hcis pair.2 (List.of_mem_zip hpair).2
    · rw [Std.HashMap.getElem?_empty] at hs
      cases hs
  refine (Constructing.foldlM hstart fun images n _ h =>
    copyNode_constructing hsrc hbasis h n).bind fun images himages => ?_
  exact Constructing.mapM fun s _ => edgeImage_constructing himages s

theorem copyInputs_constructing (src : Network) :
    Constructing basis (copyInputs src) fun cis => ∀ s ∈ cis, basis.Admits s := by
  refine (Constructing.mapM fun _ _ => constructing_pi).bind fun pis hpis => ?_
  refine (Constructing.mapM fun _ _ => constructing_ro).bind fun ros hros => ?_
  exact constructing_pure (List.forall_mem_append.mpr ⟨hpis, hros⟩)

theorem addOutputs_constructing (src : Network) {signals : List Signal}
    (hsignals : ∀ s ∈ signals, basis.Admits s) :
    Constructing basis (addOutputs src signals) fun _ => True := by
  refine (Constructing.forM fun s hs => ?_).bind fun _ _ => Constructing.forM fun s hs => ?_
  · exact constructing_po (hsignals s (List.mem_of_mem_take hs))
  · exact constructing_ri (hsignals s (List.mem_of_mem_drop hs))

/-- A clean-up is a constructed network, whatever substitutions its source has seen. -/
theorem constructed_cleanup (hsrc : src.WellFormed) (h : src.cleanup = .ok c) :
    c.Constructed := by
  rw [cleanup] at h
  obtain ⟨⟨u, net⟩, hrun, hlast⟩ := bind_eq_ok h
  obtain rfl := Except.ok.inj hlast
  have hbuild : Constructing src.basis
      (copyInputs src >>= fun cis => copyInto src cis >>= addOutputs src) fun _ => True := by
    refine (copyInputs_constructing src).bind fun cis hcis => ?_
    refine (copyInto_constructing hsrc rfl hcis).bind fun signals hsignals => ?_
    exact addOutputs_constructing src hsignals
  exact (hbuild _ _ _ (.new src.basis) rfl hrun).1

/-- Two clean-ups are enough. The first one brings the network into normal form, the second one
takes the gates away that dangle where the first one folded, and a third one changes nothing. -/
theorem cleanup_settles (h : src.Assembled) (hac : src.Acyclic) : ∃ c d,
    src.cleanup = .ok c ∧ c.Constructed ∧ c.cleanup = .ok d ∧ d.cleanup = .ok d := by
  obtain ⟨c, hclean, -⟩ := exists_cleanup h hac
  have hc := constructed_cleanup h.built.wellFormed hclean
  obtain ⟨d, hclean', -, -, hagain⟩ := exists_compact hc.assembled hc.normal
  exact ⟨c, d, hclean, hc, hclean', hagain⟩

end Network

end LogicSynthesis
