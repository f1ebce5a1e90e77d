import LogicSynthesis.Cleanup
import LogicSynthesis.Proofs.Network.Cloning
import LogicSynthesis.Proofs.Network.TopologicalOrder

/-!
# Copies and clean-ups keep the function of a network

A copy goes through the live nodes in topological order and keeps, for each of them, a signal of the
destination that has its value. Whatever the given input signals are, the outputs of the copy answer
them as the network answers their values, and no more gates are added than the outputs depend on. A
clean-up is a copy onto new inputs.

## Main definitions

- `Network.HasImage` — a signal of the destination stands for a node
- `Network.Copied` — the invariant of copying
- `Network.Reproduces` — the same inputs and outputs, and the same function

## Main statements

- `copyNode_grows`, `copyInto_grows` — copying a node, and all of them
- `addOutputs_run` — adding outputs changes no value
- `reproduces_withOutputs` — signals that answer like a network, taken as outputs
- `copying_preserves_response` — copies and clean-ups keep the function
-/

namespace LogicSynthesis.Network

variable {src dest net net' : Network} {env : Assignment → Assignment} {images : Images}
  {before : List NodeId} {n : NodeId} {s : Signal}

/-! ### Images -/

/-- Some signal of `net` stands for the node `n` of `src`, whose inputs `env` assigns. -/
def HasImage (src : Network) (env : Assignment → Assignment) (images : Images) (net : Network)
    (n : NodeId) : Prop :=
  ∃ s, images[n]? = some s ∧ net.Drives s fun inputs => src.value (env inputs) n

theorem HasImage.insert {m : NodeId} (h : m = n ∨ HasImage src env images net m)
    (hnet : net.Proper) (hgrow : net.GrowsTo net')
    (hs : net'.Drives s fun inputs => src.value (env inputs) n) :
    HasImage src env (images.insert n s) net' m := by
  by_cases hm : n = m
  · subst hm
    exact ⟨s, Std.HashMap.getElem?_insert_self, hs⟩
  · obtain ⟨s', hfound, hs'⟩ := h.resolve_left (Ne.symm hm)
    refine ⟨s', ?_, hs'.grow hnet hgrow⟩
    rw [Std.HashMap.getElem?_insert, if_neg (by simpa using hm), hfound]

/-- The image of an edge is the image of its driver with the polarity of the edge. Nothing is built
for it, since complemented edges are free where there are any. -/
theorem edgeImage_eq (hs : net.basis.Admits s) {image : Signal}
    (hfound : images[s.node]? = some image) :
    edgeImage images s net = .ok (image.withPolarity s.negated, net) := by
  rw [edgeImage, hfound]
  cases hnegated : s.negated with
  | false => rfl
  | true =>
    show Build.not image net = _
    rw [Build.not, Build.get_run]
    cases hbasis : net.basis with
    | andInverter => rfl
    | majorityInverter => rfl
    | lookupTable => exact absurd (hnegated.symm.trans (hs hbasis)) Bool.noConfusion

theorem edgeImage_run (hs : net.basis.Admits s) (h : HasImage src env images net s.node) :
    ∃ r, edgeImage images s net = .ok (r, net) ∧
      net.Drives r fun inputs => src.signalValue (env inputs) s := by
  obtain ⟨image, hfound, himage⟩ := h
  refine ⟨image.withPolarity s.negated, edgeImage_eq hs hfound, ?_, ?_⟩
  · cases s.negated <;> exact himage.lt
  · intro inputs
    rw [signalValue_withPolarity, himage.value]
    rfl

theorem mapM_edgeImage_run {signals : List Signal} (hadmits : ∀ s ∈ signals, net.basis.Admits s)
    (himages : ∀ s ∈ signals, HasImage src env images net s.node) :
    ∃ rs, signals.mapM (edgeImage images) net = .ok (rs, net) ∧ (∀ r ∈ rs, r.node < net.size) ∧
      ∀ inputs, rs.map (net.signalValue inputs) = signals.map (src.signalValue (env inputs)) := by
  have hmap : ∃ rs net', signals.mapM (edgeImage images) net = .ok (rs, net') ∧ net' = net ∧
      (∀ r ∈ rs, r.node < net.size) ∧
        ∀ inputs, rs.map (net.signalValue inputs) = signals.map (src.signalValue (env inputs)) := by
    apply Build.mapM_run fun done rs net' => net' = net ∧ (∀ r ∈ rs, r.node < net.size) ∧
      ∀ inputs, rs.map (net.signalValue inputs) = done.map (src.signalValue (env inputs))
    · exact ⟨rfl, List.forall_mem_nil _, fun _ => rfl⟩
    · rintro s hs done rs net' ⟨rfl, hlt, hvalues⟩
      obtain ⟨r, hrun, hr⟩ := edgeImage_run (hadmits s hs) (himages s hs)
      refine ⟨r, net', hrun, rfl, ?_, ?_⟩
      · exact List.forall_mem_append.mpr ⟨hlt, List.forall_mem_singleton.mpr hr.lt⟩
      · intro inputs
        rw [List.map_append, List.map_append, hvalues, List.map_singleton, List.map_singleton,
          hr.value]
  obtain ⟨rs, net', hrun, rfl, hspec⟩ := hmap
  exact ⟨rs, hrun, hspec⟩

/-! ### Copying nodes -/

/-- What holds of a copy when the nodes of `before` were copied: the inputs and these nodes have
images, and no gate was added but for a gate. -/
structure Copied (src : Network) (env : Assignment → Assignment) (size : Nat)
    (before : List NodeId) (images : Images) (net : Network) : Prop where
  images : ∀ n, n ∈ src.cis ∨ n ∈ before → HasImage src env images net n
  size : net.size ≤ size + before.countP src.isGate

/-- Images are kept, and the next node has one. -/
theorem Copied.step {size : Nat} {images' : Images} (h : Copied src env size before images net)
    (hkept : ∀ m, HasImage src env images net m → HasImage src env images' net' m)
    (hn : HasImage src env images' net' n)
    (hsize : net'.size ≤ net.size + if src.isGate n then 1 else 0) :
    Copied src env size (before ++ [n]) images' net' := by
  refine ⟨?_, ?_⟩
  · rintro m (hm | hm)
    · exact hkept m (h.images m (.inl hm))
    · rcases List.mem_append.mp hm with hm | hm
      · exact hkept m (h.images m (.inr hm))
      · exact List.mem_singleton.mp hm ▸ hn
  · rw [List.countP_append, List.countP_singleton]
    have hle := h.size
    omega

theorem Copied.insert {size : Nat} (h : Copied src env size before images net) (hnet : net.Proper)
    (hgrow : net.GrowsTo net') (hs : net'.Drives s fun inputs => src.value (env inputs) n)
    (hsize : net'.size ≤ net.size + if src.isGate n then 1 else 0) :
    Copied src env size (before ++ [n]) (images.insert n s) net' :=
  h.step (fun _ hm => .insert (.inr hm) hnet hgrow hs) (.insert (.inl rfl) hnet hgrow hs) hsize

theorem Copied.input {size : Nat} (h : Copied src env size before images net) (hn : n ∈ src.cis) :
    Copied src env size (before ++ [n]) images net :=
  h.step (fun _ hm => hm) (h.images n (.inl hn)) (Nat.le_add_right _ _)

/-- Copying a node whose fanins are copied. -/
theorem copyNode_grows (hsrc : src.WellFormed) (hac : src.Acyclic) (hinv : src.Inventory)
    (hadmits : src.AdmitsEdges) (hnet : net.Proper) (hbasis : net.basis = src.basis)
    (hn : n < src.size) (hfanins : ∀ m, src.Reads n m → m ∈ before) {size : Nat}
    (h : Copied src env size before images net) :
    (copyNode src images n).Grows net (Copied src env size (before ++ [n])) := by
  obtain ⟨node, hnode⟩ := exists_node hn
  have hinput : node.kind.isInput = true → n ∈ src.cis := fun hkind =>
    hinv.mem_cis.mpr (kindIs_iff.mpr ⟨node, hnode, hkind⟩)
  rw [Build.Grows, copyNode, Build.bind_run (Build.ask_run (node_eq hnode))]
  cases hkind : node.kind with
  | constant v =>
    refine ⟨_, net, rfl, .refl, h.insert hnet .refl ?_ (Nat.le_add_right _ _)⟩
    apply (hnet.drives_constant v).of_eq
    exact fun inputs => (value_of_constant hac hnode hkind).symm
  | primaryInput => exact ⟨images, net, rfl, .refl, h.input (hinput (hkind ▸ rfl))⟩
  | registerOutput => exact ⟨images, net, rfl, .refl, h.input (hinput (hkind ▸ rfl))⟩
  | gate =>
    have hadmits' : ∀ s ∈ node.fanins, net.basis.Admits s := fun s hs =>
      hbasis ▸ hadmits s (mem_edges_iff.mpr (.inl ⟨n, (fanins_eq hnode).symm ▸ hs⟩))
    have himages : ∀ s ∈ node.fanins, HasImage src env images net s.node := fun s hs =>
      h.images _ (.inr (hfanins _ (reads_of_mem hnode hs)))
    obtain ⟨rs, hrun, hlt, hvalues⟩ := mapM_edgeImage_run hadmits' himages
    have hlen : rs.length = node.fanins.length := by
      simpa using congrArg List.length (hvalues fun _ => false)
    obtain ⟨r, net', hclone, hgrow, hr⟩ :=
      Build.computes_cloneNode hsrc hnode hkind hnet hbasis hlen hlt
    refine ⟨images.insert n r, net', ?_, hgrow, h.insert hnet hgrow (hr.of_eq ?_) ?_⟩
    · exact (Build.bind_run hrun).trans (Build.bind_run hclone)
    · intro inputs
      rw [value_of_gate hac hnode hkind, hvalues]
    · rw [if_pos (isGate_iff.mpr ⟨node, hnode, hkind⟩)]
      exact Build.size_cloneNode_le hclone

/-! ### Copying networks -/

/-- The assignment of the inputs of `src` when signals of `dest` stand for them. -/
def fed (src dest : Network) (cis : List Signal) (inputs : Assignment) : Assignment :=
  src.assign (cis.map (dest.signalValue inputs))

theorem getElem?_foldl_insert {pairs : List (NodeId × Signal)} (hnodup : (pairs.map Prod.fst).Nodup)
    (h : (n, s) ∈ pairs) (images : Images) :
    (pairs.foldl (fun images (n, s) => images.insert n s) images)[n]? = some s := by
  have hother : ∀ (pairs : List (NodeId × Signal)) (images : Images), n ∉ pairs.map Prod.fst →
      (pairs.foldl (fun images (n, s) => images.insert n s) images)[n]? = images[n]? := by
    intro pairs
    induction pairs with
    | nil => exact fun _ _ => rfl
    | cons p pairs ih =>
      intro images hn
      rw [List.map_cons, List.mem_cons, not_or] at hn
      rw [List.foldl_cons, ih _ hn.2, Std.HashMap.getElem?_insert,
        if_neg (by simpa using Ne.symm hn.1)]
  induction pairs generalizing images with
  | nil => cases h
  | cons p pairs ih =>
    obtain ⟨hp, hnodup⟩ := List.nodup_cons.mp hnodup
    rw [List.foldl_cons]
    rcases List.mem_cons.mp h with rfl | h
    · rw [hother _ _ hp, Std.HashMap.getElem?_insert_self]
    · exact ih hnodup h _

/-- The images from which a copy starts: a given signal for each combinational input of `src`. -/
def inputImages (src : Network) (cis : List Signal) : Images :=
  (src.cis.zip cis).foldl (fun images (n, s) => images.insert n s) ∅

/-- The copies of all live nodes. -/
def copyNodes (src : Network) (cis : List Signal) : Build Images :=
  src.topoOrder.foldlM (copyNode src) (src.inputImages cis)

theorem getElem?_inputImages (hinv : src.Inventory) {cis : List Signal}
    (hlen : cis.length = src.numCis) {i : Nat} (hi : i < src.cis.length) (hi' : i < cis.length) :
    (src.inputImages cis)[src.cis[i]]? = some cis[i] := by
  have hkeys : ((src.cis.zip cis).map Prod.fst).Nodup := by
    rw [List.map_fst_zip (by rw [length_cis, hlen])]
    exact hinv.nodup_cis
  refine getElem?_foldl_insert hkeys (List.mem_iff_getElem.mpr ⟨i, ?_, List.getElem_zip⟩) ∅
  rw [List.length_zip]
  omega

/-- The given signals are images of the inputs. -/
theorem copied_start (hac : src.Acyclic) (hinv : src.Inventory) {cis : List Signal}
    (hlen : cis.length = src.numCis) (hcis : ∀ s ∈ cis, s.node < dest.size) :
    Copied src (src.fed dest cis) dest.size [] (src.inputImages cis) dest := by
  refine ⟨?_, Nat.le_add_right _ _⟩
  intro n hn
  have hn : n ∈ src.cis := hn.resolve_right List.not_mem_nil
  have hinput := hinv.mem_cis.mp hn
  obtain ⟨i, hi, rfl⟩ := List.getElem_of_mem hn
  have hi' : i < cis.length := by rwa [hlen, ← length_cis]
  refine ⟨cis[i], getElem?_inputImages hinv hlen hi hi', hcis _ (List.getElem_mem hi'), ?_⟩
  intro inputs
  rw [value_of_input hac hinput, fed, assign_getElem hinv.nodup_cis, List.getElem?_map,
    List.getElem?_eq_getElem hi']
  rfl

theorem copyNodes_grows (hsrc : src.Assembled) (hac : src.Acyclic) (hdest : dest.Proper)
    (hbasis : dest.basis = src.basis) {cis : List Signal} (hlen : cis.length = src.numCis)
    (hcis : ∀ s ∈ cis, s.node < dest.size) :
    (src.copyNodes cis).Grows dest (Copied src (src.fed dest cis) dest.size src.topoOrder) := by
  have hwf := hsrc.built.wellFormed
  have hinv := hsrc.built.inventory
  apply Build.Grows.foldlM_prefix _ (copied_start hac hinv hlen hcis)
  intro before n after images net horder hgrow hcopied
  have hn : n ∈ src.topoOrder := horder ▸ List.mem_append_right _ List.mem_cons_self
  exact copyNode_grows hwf hac hinv hsrc.admits (hgrow.proper hdest)
    ((hgrow.extends hdest.wellFormed).basis.trans hbasis)
    (lt_size_of_mem_topoOrder hwf hac hinv hn)
    (fun m hreads => mem_of_topoOrder_eq hwf hac hinv horder hreads) hcopied

/-- A copy of a network is the copies of its nodes and the images of its outputs. -/
theorem copyInto_run {cis outputs : List Signal} (hlen : cis.length = src.numCis)
    (hcopy : src.copyNodes cis dest = .ok (images, net))
    (houtputs : src.cos.mapM (edgeImage images) net = .ok (outputs, net')) :
    src.copyInto cis dest = .ok (outputs, net') := by
  rw [copyInto, Build.bind_run (Build.ask_run (require_of (beq_iff_eq.mpr hlen) _))]
  exact (Build.bind_run hcopy).trans houtputs

/-- A copy ends, whatever signals stand for the inputs. Its outputs answer them as the network
answers their values. -/
theorem copyInto_grows (hsrc : src.Assembled) (hac : src.Acyclic) (hdest : dest.Proper)
    (hbasis : dest.basis = src.basis) {cis : List Signal} (hlen : cis.length = src.numCis)
    (hcis : ∀ s ∈ cis, s.node < dest.size) :
    (copyInto src cis).Grows dest fun outputs net => (∀ s ∈ outputs, s.node < net.size) ∧
      (∀ inputs, outputs.map (net.signalValue inputs) =
        src.response (cis.map (dest.signalValue inputs))) ∧
      net.size ≤ dest.size + src.liveGates.card := by
  have hwf := hsrc.built.wellFormed
  have hinv := hsrc.built.inventory
  obtain ⟨images, net, hcopy, hgrow, hcopied⟩ := copyNodes_grows hsrc hac hdest hbasis hlen hcis
  have hadmits : ∀ s ∈ src.cos, net.basis.Admits s := by
    intro s hs
    rw [(hgrow.extends hdest.wellFormed).basis, hbasis]
    exact hsrc.admits s (mem_edges_iff.mpr (.inr hs))
  have himages : ∀ s ∈ src.cos, HasImage src (src.fed dest cis) images net s.node := fun s hs =>
    hcopied.images _ (.inr (output_mem_topoOrder hwf hac hinv hs))
  obtain ⟨outputs, hrun, hlt, hvalues⟩ := mapM_edgeImage_run hadmits himages
  refine ⟨outputs, net, copyInto_run hlen hcopy hrun, hgrow, hlt, hvalues, ?_⟩
  rw [← countP_isGate_topoOrder hwf hac hinv]
  exact hcopied.size

/-! ### Inputs and outputs -/

/-- A network of constants and inputs, in the order of their lists. -/
structure InputsOnly (net : Network) : Prop where
  built : net.Built
  terminals : net.terminals = List.range net.size
  reads : ∀ n m, ¬ net.Reads n m
  pos : net.pos = #[]
  ris : net.ris = #[]

theorem inputsOnly_new (basis : Basis) : (new basis).InputsOnly :=
  ⟨.new basis, by cases basis <;> decide, fun _ _ => not_reads_new, rfl, rfl⟩

theorem InputsOnly.proper (h : net.InputsOnly) : net.Proper :=
  ⟨h.built.wellFormed, acyclic_of_rank id fun n m hreads => absurd hreads (h.reads n m)⟩

theorem InputsOnly.isGate_eq (h : net.InputsOnly) (k : NodeId) : net.isGate k = false := by
  by_contra hk
  obtain ⟨node, hnode, hkind⟩ := isGate_iff.mp (Bool.not_eq_false _ ▸ hk)
  obtain ⟨s, hs⟩ := List.exists_mem_of_ne_nil _
    (h.proper.wellFormed.fits k node hnode hkind).nonempty
  exact h.reads k s.node (reads_of_mem hnode hs)

theorem InputsOnly.push (h : net.InputsOnly) {kind : NodeKind} (hbuilt : net'.Built)
    (hnodes : net'.nodes = net.nodes.push (inputNode kind)) (hbasis : net'.basis = net.basis)
    (hcis : net'.cis = net.cis ++ [net.size]) (hpos : net'.pos = net.pos)
    (hris : net'.ris = net.ris) : net'.InputsOnly := by
  refine ⟨hbuilt, ?_, ?_, hpos.trans h.pos, hris.trans h.ris⟩
  · have hsize : net'.size = net.size + 1 := (congrArg Array.size hnodes).trans (Array.size_push _)
    have hterminals := h.terminals
    rw [Network.terminals, h.built.inventory.constants] at hterminals
    rw [Network.terminals, hbuilt.inventory.constants, hbasis, hcis, ← List.append_assoc,
      hterminals, hsize, List.range_succ]
  · intro n m hreads
    exact h.reads n m (@reads_of_push net net' (inputNode kind) hnodes rfl n m hreads)

/-- Copying the inputs makes as many of each sort, and their signals are the inputs of the new
network in their order. -/
theorem copyInputs_run (src : Network) (basis : Basis) : ∃ net,
    copyInputs src (new basis) = .ok (net.cis.map .ofNode, net) ∧ net.InputsOnly ∧
      net.basis = basis ∧ net.pis.size = src.pis.size ∧ net.ros.size = src.ros.size := by
  have hpis : ∃ pis mid, src.pis.toList.mapM (fun _ => Build.pi) (new basis) = .ok (pis, mid) ∧
      mid.InputsOnly ∧ mid.basis = basis ∧ mid.ros = #[] ∧
        pis = mid.pis.toList.map .ofNode ∧ mid.pis.size = src.pis.toList.length := by
    apply Build.mapM_run fun done pis net => net.InputsOnly ∧ net.basis = basis ∧ net.ros = #[] ∧
      pis = net.pis.toList.map Signal.ofNode ∧ net.pis.size = done.length
    · exact ⟨inputsOnly_new basis, rfl, rfl, rfl, rfl⟩
    · rintro - - done pis net ⟨honly, hbasis, hros, rfl, hsize⟩
      have hcis : net.addPi.2.cis = net.cis ++ [net.size] := by
        simp [cis, addPi, append, hros, size]
      refine ⟨_, _, rfl, honly.push (.addPi honly.built) rfl rfl hcis rfl rfl, hbasis, hros, ?_, ?_⟩
      · simp
      · simp [hsize]
  obtain ⟨pis, mid, hpis, honly, hbasis, hros, rfl, hsize⟩ := hpis
  have hros : ∃ ros net, src.ros.toList.mapM (fun _ => Build.ro) mid = .ok (ros, net) ∧
      net.InputsOnly ∧ net.basis = basis ∧ net.pis = mid.pis ∧
        ros = net.ros.toList.map .ofNode ∧ net.ros.size = src.ros.toList.length := by
    apply Build.mapM_run fun done ros net => net.InputsOnly ∧ net.basis = basis ∧
      net.pis = mid.pis ∧ ros = net.ros.toList.map Signal.ofNode ∧ net.ros.size = done.length
    · exact ⟨honly, hbasis, rfl, by rw [hros]; rfl, by rw [hros]; rfl⟩
    · rintro - - done ros net ⟨honly, hbasis, hpis, rfl, hsize⟩
      have hcis : net.addRo.2.cis = net.cis ++ [net.size] := by
        simp [cis, addRo, append, size]
      refine ⟨_, _, rfl, honly.push (.addRo honly.built) rfl rfl hcis rfl rfl, hbasis, hpis, ?_, ?_⟩
      · simp
      · simp [hsize]
  obtain ⟨ros, net, hros, honly, hbasis, hpis', rfl, hsize'⟩ := hros
  refine ⟨net, ?_, honly, hbasis, hpis' ▸ hsize, hsize'⟩
  rw [copyInputs, Build.bind_run hpis, Build.bind_run hros, cis, List.map_append, hpis']
  rfl

/-- The network with some more outputs. -/
def withOutputs (net : Network) (pos ris : List Signal) : Network :=
  { net with
    nodes := countReaders net.nodes (pos ++ ris)
    pos := net.pos ++ pos.toArray
    ris := net.ris ++ ris.toArray }

theorem size_withOutputs (net : Network) (pos ris : List Signal) :
    (net.withOutputs pos ris).size = net.size := size_countReaders net.nodes _

theorem value_withOutputs (net : Network) (pos ris : List Signal) (inputs : Assignment)
    (n : NodeId) : (net.withOutputs pos ris).value inputs n = net.value inputs n := by
  apply value_congr (size_withOutputs net pos ris)
  intro inputs val n
  simp only [nodeValue, withOutputs, getElem?_countReaders]
  cases net.nodes[n]? <;> rfl

theorem Acyclic.withOutputs (h : net.Acyclic) (pos ris : List Signal) :
    (net.withOutputs pos ris).Acyclic := by
  have hreads : (net.withOutputs pos ris).Reads = net.Reads :=
    funext fun n => funext fun m => propext (@reads_countReaders_iff net _ (pos ++ ris) rfl n m)
  rw [Acyclic, hreads]
  exact h

theorem addPo_withOutputs (done : List Signal) (hs : s.node < net.size) :
    (net.withOutputs done []).addPo s =
      .ok ((net.withOutputs done []).pos.size, net.withOutputs (done ++ [s]) []) := by
  rw [addPo_eq (by rwa [size_withOutputs])]
  simp [withOutputs, countReaders]

theorem addRi_withOutputs (pos done : List Signal) (hs : s.node < net.size) :
    (net.withOutputs pos done).addRi s =
      .ok ((net.withOutputs pos done).ris.size, net.withOutputs pos (done ++ [s])) := by
  rw [addRi_eq (by rwa [size_withOutputs])]
  simp [withOutputs, countReaders]

/-- Outputs are added to their list in order, and nothing else changes but fanouts. -/
theorem addOutputs_run {signals : List Signal} (hlt : ∀ s ∈ signals, s.node < net.size) :
    addOutputs src signals net = .ok ((), net.withOutputs (signals.take src.pos.size)
      (signals.drop src.pos.size)) := by
  have hpos : ∃ is mid, (signals.take src.pos.size).mapM Build.po net = .ok (is, mid) ∧
      mid = net.withOutputs (signals.take src.pos.size) [] := by
    apply Build.mapM_run fun done _ mid => mid = net.withOutputs done []
    · simp [withOutputs, countReaders]
    · rintro s hs done - mid rfl
      exact ⟨_, _, addPo_withOutputs done (hlt s (List.mem_of_mem_take hs)), rfl⟩
  obtain ⟨is, mid, hpos, rfl⟩ := hpos
  have hris : ∃ is net', (signals.drop src.pos.size).mapM Build.ri
      (net.withOutputs (signals.take src.pos.size) []) = .ok (is, net') ∧
        net' = net.withOutputs (signals.take src.pos.size) (signals.drop src.pos.size) := by
    apply Build.mapM_run fun done _ net' =>
      net' = net.withOutputs (signals.take src.pos.size) done
    · rfl
    · rintro s hs done - net' rfl
      exact ⟨_, _, addRi_withOutputs _ done (hlt s (List.mem_of_mem_drop hs)), rfl⟩
  obtain ⟨is', net', hris, rfl⟩ := hris
  rw [addOutputs, Build.bind_run (Build.forM_run hpos), Build.forM_run hris]

theorem Built.withOutputs (h : net.Built) {pos ris : List Signal}
    (hpos : ∀ s ∈ pos, s.node < net.size) (hris : ∀ s ∈ ris, s.node < net.size) :
    (net.withOutputs pos ris).Built := by
  induction ris using List.reverseRecOn with
  | nil =>
    induction pos using List.reverseRecOn with
    | nil => simpa [Network.withOutputs, countReaders] using h
    | append_singleton pos s ih =>
      obtain ⟨hpos, hs⟩ := List.forall_mem_append.mp hpos
      exact (ih hpos).addPo (addPo_withOutputs pos (hs s (List.mem_singleton_self s)))
  | append_singleton ris s ih =>
    obtain ⟨hris, hs⟩ := List.forall_mem_append.mp hris
    exact (ih hris).addRi (addRi_withOutputs pos ris (hs s (List.mem_singleton_self s)))

/-! ### Cleaning up -/

/-- The inputs have the values that they are assigned. -/
theorem map_signalValue_cis (hac : net.Acyclic) (hinv : net.Inventory) {values : List Bool}
    (hlen : values.length = net.numCis) :
    (net.cis.map .ofNode).map (net.signalValue (net.assign values)) = values := by
  refine Eq.trans ?_ (map_assign hinv.nodup_cis hlen)
  rw [List.map_map]
  apply List.map_congr_left
  intro n hn
  exact (signalValue_ofNode _ n).trans (value_of_input hac (hinv.mem_cis.mp hn))

theorem response_withOutputs (hpos : net.pos = #[]) (hris : net.ris = #[]) (pos ris : List Signal)
    (values : List Bool) : (net.withOutputs pos ris).response values =
      (pos ++ ris).map (net.signalValue (net.assign values)) := by
  have hcos : (net.withOutputs pos ris).cos = pos ++ ris := by simp [cos, withOutputs, hpos, hris]
  rw [response, hcos]
  apply List.map_congr_left
  intro s _
  exact congrArg (· ^^ s.negated) (value_withOutputs net pos ris _ s.node)

/-- `net'` is acyclic, has as many inputs and outputs of each sort as `src`, and answers like it. -/
structure Reproduces (src net' : Network) : Prop where
  acyclic : net'.Acyclic
  pis : net'.pis.size = src.pis.size
  ros : net'.ros.size = src.ros.size
  pos : net'.pos.size = src.pos.size
  ris : net'.ris.size = src.ris.size
  response : ∀ values, values.length = src.numCis → net'.response values = src.response values

theorem InputsOnly.cis_lt (h : net.InputsOnly) :
    ∀ s ∈ net.cis.map Signal.ofNode, s.node < net.size := by
  intro s hs
  obtain ⟨n, hn, rfl⟩ := List.mem_map.mp hs
  exact lt_size_of_kindIs (h.built.inventory.mem_cis.mp hn)

/-- When signals over the inputs answer as the outputs of `src` do, a network with them as outputs
answers like `src`. -/
theorem reproduces_withOutputs {start mid : Network} (honly : start.InputsOnly)
    (hpis : start.pis.size = src.pis.size) (hros : start.ros.size = src.ros.size)
    (hgrow : start.GrowsTo mid) {outputs : List Signal}
    (hvalues : ∀ inputs, outputs.map (mid.signalValue inputs) =
      src.response ((start.cis.map .ofNode).map (start.signalValue inputs))) :
    src.Reproduces
      (mid.withOutputs (outputs.take src.pos.size) (outputs.drop src.pos.size)) := by
  have hext := hgrow.extends honly.proper.wellFormed
  have hcis : start.numCis = src.numCis := by rw [numCis, numCis, hpis, hros]
  have hlen : outputs.length = src.pos.size + src.ris.size := by
    simpa [response, cos] using congrArg List.length (hvalues fun _ => false)
  refine ⟨(hgrow.proper honly.proper).acyclic.withOutputs _ _, ?_, ?_, ?_, ?_, ?_⟩
  · exact (congrArg Array.size hext.pis).trans hpis
  · exact (congrArg Array.size hext.ros).trans hros
  · simp [withOutputs, hext.pos, honly.pos, hlen]
  · simp [withOutputs, hext.ris, honly.ris, hlen]
  · intro values hvalues'
    have hassign : mid.assign values = start.assign values := by
      unfold assign
      rw [hext.cis_eq]
    rw [response_withOutputs (hext.pos.trans honly.pos) (hext.ris.trans honly.ris),
      List.take_append_drop, hassign, hvalues,
      map_signalValue_cis honly.proper.acyclic honly.built.inventory (hvalues'.trans hcis.symm)]

/-- A clean-up ends in an acyclic network with as many inputs and outputs of each sort, which has
the same function. -/
theorem exists_cleanup (hsrc : src.Assembled) (hac : src.Acyclic) :
    ∃ net', src.cleanup = .ok net' ∧ net'.Acyclic ∧ net'.pis.size = src.pis.size ∧
      net'.ros.size = src.ros.size ∧ net'.pos.size = src.pos.size ∧
      net'.ris.size = src.ris.size ∧
      ∀ values, values.length = src.numCis → net'.response values = src.response values := by
  obtain ⟨start, hinputs, honly, hbasis, hpis, hros⟩ := copyInputs_run src src.basis
  have hcis : start.numCis = src.numCis := by rw [numCis, numCis, hpis, hros]
  obtain ⟨outputs, mid, hcopy, hgrow, hout, hvalues, -⟩ := copyInto_grows hsrc hac honly.proper
    hbasis (by rw [List.length_map, length_cis, hcis]) honly.cis_lt
  obtain ⟨hac', hpis', hros', hpos', hris', hresponse⟩ :=
    reproduces_withOutputs honly hpis hros hgrow hvalues
  refine ⟨_, ?_, hac', hpis', hros', hpos', hris', hresponse⟩
  rw [cleanup, Build.bind_run hinputs, Build.bind_run hcopy, addOutputs_run hout]
  rfl

/-- A copy of an acyclic network into another one ends, whatever signals stand for its inputs, and
its outputs have the values that the network makes of theirs. What was there keeps its place and its
value, and no more gates are added than the outputs depend on. So a clean-up gives a network with
the same inputs and outputs and the same function. -/
theorem copying_preserves_response (hsrc : src.Assembled) (hac : src.Acyclic) :
    (∀ (dest : Network) (cis : List Signal), dest.Built → dest.Acyclic → dest.basis = src.basis →
      cis.length = src.numCis → (∀ s ∈ cis, s.node < dest.size) →
        ∃ outputs dest', src.copyInto cis dest = .ok (outputs, dest') ∧ dest'.Acyclic ∧
          (∀ s ∈ outputs, s.node < dest'.size) ∧
          (∀ inputs, outputs.map (dest'.signalValue inputs) =
            src.response (cis.map (dest.signalValue inputs))) ∧
          dest.Extends dest' ∧
          (∀ inputs, ∀ n < dest.size, dest'.value inputs n = dest.value inputs n) ∧
          dest'.numGates ≤ dest.numGates + src.liveGates.card) ∧
    ∃ net', src.cleanup = .ok net' ∧ net'.Acyclic ∧ net'.pis.size = src.pis.size ∧
      net'.ros.size = src.ros.size ∧ net'.pos.size = src.pos.size ∧
      net'.ris.size = src.ris.size ∧
      ∀ values, values.length = src.numCis → net'.response values = src.response values := by
  refine ⟨?_, exists_cleanup hsrc hac⟩
  intro dest cis hdest hdest' hbasis hlen hcis
  have hproper : dest.Proper := ⟨hdest.wellFormed, hdest'⟩
  obtain ⟨outputs, dest', hrun, hgrow, hout, hvalues, hsize⟩ :=
    copyInto_grows hsrc hac hproper hbasis hlen hcis
  have hext := hgrow.extends hdest.wellFormed
  refine ⟨outputs, dest', hrun, (hgrow.proper hproper).acyclic, hout, hvalues, hext, ?_, ?_⟩
  · exact fun inputs n hn => hext.value_eq hdest.wellFormed hdest' inputs hn
  · rw [numGates, numGates, hext.basis, hext.pis, hext.ros]
    omega

/-- A copy of the small network over an inner gate of another one, its complement and a constant. -/
theorem copying_preserves_tappedConjunction : ∃ outputs dest',
    tappedConjunction.copyInto [⟨4, true⟩, ⟨4, false⟩, ⟨0, true⟩] conjunctionOfThree =
      .ok (outputs, dest') ∧
    (∀ inputs, outputs.map (dest'.signalValue inputs) = tappedConjunction.response
      ([⟨4, true⟩, ⟨4, false⟩, ⟨0, true⟩].map (conjunctionOfThree.signalValue inputs))) ∧
    ∃ net', tappedConjunction.cleanup = .ok net' ∧
      ∀ values, values.length = 3 → net'.response values = tappedConjunction.response values := by
  obtain ⟨hcopy, net', hcleanup, -, -, -, -, -, hresponse⟩ :=
    copying_preserves_response assembled_tappedConjunction acyclic_tappedConjunction
  obtain ⟨outputs, dest', hrun, -, -, hvalues, -⟩ :=
    hcopy conjunctionOfThree [⟨4, true⟩, ⟨4, false⟩, ⟨0, true⟩] built_conjunctionOfThree
      acyclic_conjunctionOfThree rfl rfl (by decide)
  exact ⟨outputs, dest', hrun, hvalues, net', hcleanup, hresponse⟩

end LogicSynthesis.Network
