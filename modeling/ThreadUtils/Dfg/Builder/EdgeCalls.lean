import ThreadUtils.Dfg.Builder.Calls

/-!
# The edges of a call

`tu_edge` draws an edge from every node that the sender stands for to every node that the receiver
stands for, and `tu_edges` draws one for every input type of each receiving node that the sending
one outputs.

## A sender and a receiver that are graphs

`tu_edge` takes the sender apart first and the receiver for each of its nodes, so it is a loop in a
loop, and the keys that `operator[]` inserts come in between.  Each level is a lemma of its own: two
executable nodes (`tuEdge_exec`), an executable sender (`tuEdge_receiver`) and any sender
(`tuEdge_eq`).  The insertions of the outer loop do not change what the receiver stands for, so the
inner loop is the same for all nodes of the outer one.

`tu_edge` fails for two nodes of which one lacks the type.  All nodes of a loop have it or none has,
so it fails at the first node or not at all (`tuEdge_refused`).  `tu_edges` tests the types itself
and never fails.

* `tuEdge_eq`, `tuEdge_refused` --- the insertions of `tu_edge`, or its failure.
* `tuEdges_eq` --- the insertions of `tu_edges`, which never fails.
-/

namespace ThreadUtils
namespace Dfg
namespace Builder

variable {F : Type*} {h : Heap F}

/-- The insertions of `tu_edge` for an executable sender. -/
def receiverEntries (h : Heap F) (sender receiver : Address) (type : TypeId) : List Insertion :=
  (if (h.graph? receiver).isSome then [.inputKey receiver type] else []) ++
    (flatIn h receiver type).map fun m => .edge sender m type

/-- The insertions of `tu_edge`. -/
def edgeEntries (h : Heap F) (sender receiver : Address) (type : TypeId) : List Insertion :=
  (if (h.graph? sender).isSome then [.outputKey sender type] else []) ++
    (flatOut h sender type).flatMap fun n => receiverEntries h n receiver type

theorem edge_mem_receiverEntries {n m sender receiver : Address} {type type' : TypeId} :
    .edge n m type' ∈ receiverEntries h sender receiver type ↔
      n = sender ∧ m ∈ flatIn h receiver type ∧ type' = type := by
  rw [receiverEntries, List.mem_append, List.mem_map]
  constructor
  · rintro (hmem | ⟨m', hm', heq⟩)
    · split at hmem <;> simp at hmem
    · obtain ⟨rfl, rfl, rfl⟩ := Insertion.edge.inj heq
      exact ⟨rfl, hm', rfl⟩
  · rintro ⟨rfl, hm, rfl⟩
    exact Or.inr ⟨m, hm, rfl⟩

/-- The edges of `tu_edge`. -/
theorem edge_mem_edgeEntries {n m sender receiver : Address} {type type' : TypeId} :
    .edge n m type' ∈ edgeEntries h sender receiver type ↔
      n ∈ flatOut h sender type ∧ m ∈ flatIn h receiver type ∧ type' = type := by
  rw [edgeEntries, List.mem_append, List.mem_flatMap]
  constructor
  · rintro (hmem | ⟨n', hn', hmem⟩)
    · split at hmem <;> simp at hmem
    · obtain ⟨rfl, hm, rfl⟩ := edge_mem_receiverEntries.mp hmem
      exact ⟨hn', hm, rfl⟩
  · rintro ⟨hn, hm, rfl⟩
    exact Or.inr ⟨n, hn, edge_mem_receiverEntries.mpr ⟨rfl, hm, rfl⟩⟩

/-- The keys that `tu_edge` looks up. -/
theorem outputKey_mem_edgeEntries {a sender receiver : Address} {u type : TypeId} :
    .outputKey a u ∈ edgeEntries h sender receiver type ↔
      a = sender ∧ u = type ∧ (h.graph? sender).isSome := by
  rw [edgeEntries, List.mem_append, List.mem_flatMap]
  constructor
  · rintro (hmem | ⟨n, -, hmem⟩)
    · split at hmem
      · next hgraph =>
        obtain ⟨rfl, rfl⟩ := Insertion.outputKey.inj (List.mem_singleton.mp hmem)
        exact ⟨rfl, rfl, hgraph⟩
      · cases hmem
    · rw [receiverEntries, List.mem_append] at hmem
      rcases hmem with hmem | hmem
      · split at hmem <;> simp at hmem
      · simp at hmem
  · rintro ⟨rfl, rfl, hgraph⟩
    rw [if_pos hgraph]
    exact Or.inl (List.mem_singleton_self _)

theorem inputKey_mem_edgeEntries {a sender receiver : Address} {u type : TypeId} :
    .inputKey a u ∈ edgeEntries h sender receiver type ↔
      a = receiver ∧ u = type ∧ (h.graph? receiver).isSome ∧ flatOut h sender type ≠ [] := by
  rw [edgeEntries, List.mem_append, List.mem_flatMap]
  constructor
  · rintro (hmem | ⟨n, hn, hmem⟩)
    · split at hmem <;> simp at hmem
    · rw [receiverEntries, List.mem_append] at hmem
      rcases hmem with hmem | hmem
      · split at hmem
        · next hgraph =>
          obtain ⟨rfl, rfl⟩ := Insertion.inputKey.inj (List.mem_singleton.mp hmem)
          exact ⟨rfl, rfl, hgraph, List.ne_nil_of_mem hn⟩
        · cases hmem
      · simp at hmem
  · rintro ⟨rfl, rfl, hgraph, hne⟩
    obtain ⟨n, hn⟩ := List.exists_mem_of_ne_nil _ hne
    refine Or.inr ⟨n, hn, ?_⟩
    rw [receiverEntries, if_pos hgraph]
    exact List.mem_append_left _ (List.mem_singleton_self _)

/-- The edge of two executable nodes. -/
theorem tuEdge_exec {n m : Address} {type : TypeId} (hn : HasOutput h type n)
    (hm : HasInput h type m) (depth : ℕ) : tuEdge (depth + 1) h (some n) (some m) type =
      some (put h (.edge n m type), true) := by
  have henabled : (Insertion.edge n m type).Enabled h := ⟨hn, hm⟩
  obtain ⟨e, he, -⟩ := hn
  obtain ⟨e', he', -⟩ := hm
  rw [tuEdge, Heap.exec?_eq_some.mp he, Heap.exec?_eq_some.mp he']
  dsimp only
  rw [put_edge he he', edgeExec_eq he he' henabled]

/-- An edge that is refused. -/
theorem tuEdge_exec_refused {n m : Address} {type : TypeId} (hn : (h.exec? n).isSome)
    (hm : (h.exec? m).isSome) (hnot : ¬ (HasOutput h type n ∧ HasInput h type m)) (depth : ℕ) :
    tuEdge (depth + 1) h (some n) (some m) type = some (h, false) := by
  obtain ⟨e, he⟩ := Option.isSome_iff_exists.mp hn
  obtain ⟨e', he'⟩ := Option.isSome_iff_exists.mp hm
  rw [tuEdge, Heap.exec?_eq_some.mp he, Heap.exec?_eq_some.mp he']
  dsimp only
  rw [edgeExec_eq_self he he' hnot]

theorem tuEdge_graph_receiver {n receiver : Address} {gr : Graph} {type : TypeId}
    (hn : (h.exec? n).isSome) (hgr : h.graph? receiver = some gr) (depth : ℕ) :
    tuEdge (depth + 1) h (some n) (some receiver) type =
      forEach (fun h m => tuEdge depth h (some n) (some m) type)
        (put h (.inputKey receiver type)) (flatIn h receiver type) := by
  obtain ⟨e, he⟩ := Option.isSome_iff_exists.mp hn
  rw [tuEdge, Heap.exec?_eq_some.mp he, Heap.graph?_eq_some.mp hgr]
  dsimp only
  rw [nodesOf_insert, flatIn_graph hgr, put, hgr]

theorem tuEdge_graph_sender {sender receiver : Address} {gr : Graph} {type : TypeId}
    (hgr : h.graph? sender = some gr) (hreceiver : h receiver ≠ none) (depth : ℕ) :
    tuEdge (depth + 1) h (some sender) (some receiver) type =
      forEach (fun h n => tuEdge depth h (some n) (some receiver) type)
        (put h (.outputKey sender type)) (flatOut h sender type) := by
  obtain ⟨o, ho⟩ := Option.ne_none_iff_exists'.mp hreceiver
  rw [tuEdge, Heap.graph?_eq_some.mp hgr, ho]
  dsimp only
  rw [nodesOf_insert, flatOut_graph hgr, put, hgr]

/-- **`tu_edge` for an executable sender.** -/
theorem tuEdge_receiver {n receiver : Address} {type : TypeId} (hn : HasOutput h type n)
    (hin : ∀ m ∈ flatIn h receiver type, HasInput h type m) (depth : ℕ) :
    tuEdge (depth + 2) h (some n) (some receiver) type =
      some (putAll h (receiverEntries h n receiver type), true) := by
  unfold receiverEntries
  cases hgr : h.graph? receiver with
  | none =>
    have hreceiver : HasInput h type receiver := hin receiver (by rw [flatIn, hgr]; simp)
    rw [tuEdge_exec hn hreceiver (depth + 1), flatIn, hgr]
    rfl
  | some gr =>
    rw [tuEdge_graph_receiver hn.isSome_exec? hgr]
    -- the edges that are drawn do not change what the next one is tested for
    rw [forEach_putAll (fun m => [.edge n m type]) (I := fun h' => HasOutput h' type n ∧
      ∀ m ∈ flatIn h receiver type, HasInput h' type m)]
    · rw [← List.map_eq_flatMap]
      rfl
    · rintro h' ⟨hn', hin'⟩ m hm
      exact tuEdge_exec hn' (hin' m hm) depth
    · rintro h' ⟨hn', hin'⟩ m hm
      exact ⟨(hasOutput_putAll _).mpr hn', fun m hm => (hasInput_putAll _).mpr (hin' m hm)⟩
    · exact ⟨(hasOutput_put _).mpr hn, fun m hm => (hasInput_put _).mpr (hin m hm)⟩

/-- A list of insertions that registers no input leaves what a receiver stands for alone. -/
theorem flatIn_putAll {l : List Insertion} {n : Address} {type : TypeId}
    (hl : ∀ i ∈ l, ∀ m, i ≠ .input n type m) : flatIn (putAll h l) n type = flatIn h n type := by
  induction l generalizing h with
  | nil => rfl
  | cons i l ih =>
    rw [putAll_cons, ih fun j hj => hl j (List.mem_cons_of_mem _ hj),
      flatIn_put (hl i List.mem_cons_self)]

theorem ne_input_of_mem_receiverEntries {i : Insertion} {n receiver : Address} {type : TypeId}
    (hi : i ∈ receiverEntries h n receiver type) (g m : Address) (type' : TypeId) :
    i ≠ .input g type' m := by
  rintro rfl
  rw [receiverEntries, List.mem_append, List.mem_map] at hi
  rcases hi with hmem | ⟨m', -, heq⟩
  · split at hmem <;> simp at hmem
  · cases heq

/-- **`tu_edge`**, where the nodes that the sender stands for output the type and those that the
receiver stands for take it. -/
theorem tuEdge_eq {sender receiver : Address} {type : TypeId}
    (hout : ∀ n ∈ flatOut h sender type, HasOutput h type n)
    (hin : ∀ m ∈ flatIn h receiver type, HasInput h type m) (hreceiver : h receiver ≠ none)
    (depth : ℕ) : tuEdge (depth + 3) h (some sender) (some receiver) type =
      some (putAll h (edgeEntries h sender receiver type), true) := by
  unfold edgeEntries
  cases hgr : h.graph? sender with
  | none =>
    have hsender : HasOutput h type sender := hout sender (by rw [flatOut, hgr]; simp)
    rw [tuEdge_receiver hsender hin (depth + 1), flatOut, hgr]
    simp
  | some gr =>
    rw [tuEdge_graph_sender hgr hreceiver]
    -- the receiver stands for the same nodes all along the loop
    rw [forEach_putAll (fun n => receiverEntries h n receiver type)
      (I := fun h' => (∀ n ∈ flatOut h sender type, HasOutput h' type n) ∧
        (∀ m ∈ flatIn h receiver type, HasInput h' type m) ∧
        flatIn h' receiver type = flatIn h receiver type ∧
        (h'.graph? receiver).isSome = (h.graph? receiver).isSome)]
    · rfl
    · rintro h' ⟨hout', hin', hflat, hkind⟩ n hn
      rw [tuEdge_receiver (hout' n hn) (by rw [hflat]; exact hin') depth, receiverEntries,
        receiverEntries, hflat, hkind]
    · rintro h' ⟨hout', hin', hflat, hkind⟩ n hn
      refine ⟨fun n hn => (hasOutput_putAll _).mpr (hout' n hn),
        fun m hm => (hasInput_putAll _).mpr (hin' m hm), ?_, ?_⟩
      · rw [flatIn_putAll fun i hi m => ne_input_of_mem_receiverEntries hi receiver m type]
        exact hflat
      · rw [isSome_graph?_putAll]
        exact hkind
    · refine ⟨fun n hn => (hasOutput_put _).mpr (hout n hn),
        fun m hm => (hasInput_put _).mpr (hin m hm), flatIn_put (fun m => by simp), ?_⟩
      exact isSome_graph?_put _

/-- **`tu_edge` that draws nothing**: a node without the type is refused before any edge is drawn,
and where there is nothing to connect at most a key is inserted. -/
theorem tuEdge_refused (hW : WellFormed h) {sender receiver : Address} {type : TypeId}
    (hsender : h sender ≠ none) (hreceiver : h receiver ≠ none)
    (hnot : ¬ ((∀ n ∈ flatOut h sender type, HasOutput h type n) ∧
      ∀ m ∈ flatIn h receiver type, HasInput h type m)) (depth : ℕ) :
    tuEdge (depth + 3) h (some sender) (some receiver) type = some (h, false) ∨
      (flatOut h sender type = [] ∨ flatIn h receiver type = []) ∧ ∃ i,
        tuEdge (depth + 3) h (some sender) (some receiver) type = some (put h i, true) ∧
        (i = .outputKey sender type ∧ (h.graph? sender).isSome ∨
          i = .inputKey receiver type ∧ (h.graph? receiver).isSome ∧
            (h.exec? sender).isSome) := by
  rcases isSome_exec?_or_graph? hsender with hexec | hgraph
  · rcases isSome_exec?_or_graph? hreceiver with hexec' | hgraph'
    · refine Or.inl (tuEdge_exec_refused hexec hexec' (fun hand => hnot ⟨?_, ?_⟩) _)
      · intro n hn
        rw [flatOut, graph?_eq_none_of_isSome hexec] at hn
        exact List.mem_singleton.mp hn ▸ hand.1
      · intro m hm
        rw [flatIn, graph?_eq_none_of_isSome hexec'] at hm
        exact List.mem_singleton.mp hm ▸ hand.2
    · -- the receiver is a graph, so the sender lacks the type
      have hlacks : ¬ HasOutput h type sender := by
        refine fun hhas => hnot ⟨fun n hn => ?_, fun m hm => hW.hasInput_flatIn hgraph' hm⟩
        rw [flatOut, graph?_eq_none_of_isSome hexec] at hn
        exact List.mem_singleton.mp hn ▸ hhas
      obtain ⟨gr, hgr⟩ := Option.isSome_iff_exists.mp hgraph'
      rw [tuEdge_graph_receiver hexec hgr]
      by_cases hnil : flatIn h receiver type = []
      · rw [hnil]
        exact Or.inr ⟨Or.inr rfl, _, rfl, Or.inr ⟨rfl, hgraph', hexec⟩⟩
      · rw [put_inputKey_eq_self (inputType_of_flatIn hgraph' hnil)]
        refine Or.inl (forEach_eq_false hnil fun m hm => ?_)
        exact tuEdge_exec_refused hexec (hW.hasInput_flatIn hgraph' hm).isSome_exec?
          (fun hand => hlacks hand.1) _
  · -- the sender is a graph, so the receiver is a node that lacks the type
    have hout : ∀ n ∈ flatOut h sender type, HasOutput h type n := fun n hn =>
      hW.hasOutput_flatOut hgraph hn
    obtain ⟨gr, hgr⟩ := Option.isSome_iff_exists.mp hgraph
    have hexec' : (h.exec? receiver).isSome := by
      rcases isSome_exec?_or_graph? hreceiver with hexec' | hgraph'
      · exact hexec'
      · exact absurd ⟨hout, fun m hm => hW.hasInput_flatIn hgraph' hm⟩ hnot
    have hlacks : ¬ HasInput h type receiver := by
      refine fun hhas => hnot ⟨hout, fun m hm => ?_⟩
      rw [flatIn, graph?_eq_none_of_isSome hexec'] at hm
      exact List.mem_singleton.mp hm ▸ hhas
    rw [tuEdge_graph_sender hgr hreceiver]
    by_cases hnil : flatOut h sender type = []
    · rw [hnil]
      exact Or.inr ⟨Or.inl rfl, _, rfl, Or.inl ⟨rfl, hgraph⟩⟩
    · rw [put_outputKey_eq_self (outputType_of_flatOut hgraph hnil)]
      refine Or.inl (forEach_eq_false hnil fun n hn => ?_)
      exact tuEdge_exec_refused (hout n hn).isSome_exec? hexec' (fun hand => hlacks hand.2) _

/-! ## All common types -/

/-- The executable nodes that a sender of `tu_edges` stands for. -/
def allOut (h : Heap F) (n : Address) : List Address :=
  match h.graph? n with
  | some gr => gr.outputs.keys.toList.flatMap (nodesOf gr.outputs)
  | none => [n]

/-- The executable nodes that a receiver of `tu_edges` stands for. -/
def allIn (h : Heap F) (n : Address) : List Address :=
  match h.graph? n with
  | some gr => gr.inputs.keys.toList.flatMap (nodesOf gr.inputs)
  | none => [n]

/-- The insertions of `tu_edges` for two executable nodes. -/
def execEntries (h : Heap F) (sender receiver : Address) : List Insertion :=
  (inputTypes h receiver).toList.map fun type => .edge sender receiver type

/-- The insertions of `tu_edges`. -/
def edgesEntries (h : Heap F) (sender receiver : Address) : List Insertion :=
  (allOut h sender).flatMap fun n => (allIn h receiver).flatMap fun m => execEntries h n m

theorem mem_edgesEntries {sender receiver n m : Address} {type : TypeId} :
    .edge n m type ∈ edgesEntries h sender receiver ↔
      n ∈ allOut h sender ∧ m ∈ allIn h receiver ∧ type ∈ inputTypes h m := by
  simp only [edgesEntries, execEntries, List.mem_flatMap, List.mem_map]
  constructor
  · rintro ⟨n', hn', m', hm', type', htype', heq⟩
    obtain ⟨rfl, rfl, rfl⟩ := Insertion.edge.inj heq
    exact ⟨hn', hm', htype'⟩
  · rintro ⟨hn, hm, htype⟩
    exact ⟨n, hn, m, hm, type, htype, rfl⟩

theorem eq_edge_of_mem {i : Insertion} {sender receiver : Address}
    (hi : i ∈ edgesEntries h sender receiver) : ∃ n m type, i = .edge n m type := by
  obtain ⟨n, -, hi⟩ := List.mem_flatMap.mp hi
  obtain ⟨m, -, hi⟩ := List.mem_flatMap.mp hi
  obtain ⟨type, -, rfl⟩ := List.mem_map.mp hi
  exact ⟨n, m, type, rfl⟩

theorem put_edge_eq {n m : Address} {e : ExecNode F} {type : TypeId} (he : h.exec? n = some e)
    (hm : HasInput h type m) : put h (.edge n m type) =
      h.setExec n { e with outputs := e.outputs.modify type (·.insert m type) } := by
  by_cases htype : type ∈ e.outputs.keys
  · obtain ⟨e', he', -⟩ := id hm
    rw [put_edge he he', edgeExec_eq he he' ⟨⟨e, he, htype⟩, hm⟩]
  · rw [put_eq_self, OrderedMap.modify_eq_self _ htype, Heap.setExec_eq_self he]
    rintro ⟨⟨e', he', htype'⟩, -⟩
    obtain rfl := Option.some.inj (he.symm.trans he')
    exact htype htype'

/-- The loop of `tu_edges` over the types of the receiver. -/
theorem putAll_edges {n m : Address} {e : ExecNode F} (types : List TypeId)
    (he : h.exec? n = some e) (htypes : ∀ type ∈ types, HasInput h type m) :
    putAll h (types.map fun type => .edge n m type) = h.setExec n { e with
      outputs := types.foldl (fun map type => map.modify type (·.insert m type)) e.outputs } := by
  induction types generalizing h e with
  | nil => exact (Heap.setExec_eq_self he).symm
  | cons type types ih =>
    have hput := put_edge_eq he (htypes type List.mem_cons_self)
    have he' : (put h (.edge n m type)).exec? n = some { e with
        outputs := e.outputs.modify type (·.insert m type) } := by
      rw [hput, Heap.exec?_setExec_self]
    rw [List.map_cons, putAll_cons, ih he' fun t ht =>
      (hasInput_put _).mpr (htypes t (List.mem_cons_of_mem _ ht)), hput, Heap.setExec_setExec,
      List.foldl_cons]

theorem tuEdges_exec {n m : Address} (hn : (h.exec? n).isSome) (hm : (h.exec? m).isSome)
    (depth : ℕ) : tuEdges (depth + 1) h (some n) (some m) =
      some (putAll h (execEntries h n m), true) := by
  obtain ⟨e, he⟩ := Option.isSome_iff_exists.mp hn
  obtain ⟨e', he'⟩ := Option.isSome_iff_exists.mp hm
  have hloop := putAll_edges (m := m) e'.inputs.keys.toList he
    fun type htype => ⟨e', he', htype⟩
  rw [tuEdges, Heap.exec?_eq_some.mp he, Heap.exec?_eq_some.mp he']
  dsimp only
  rw [edgesExec, execEntries, inputTypes_exec he', hloop]

/-- The loop over the nodes that the receiver stands for. -/
theorem tuEdges_receiver {n receiver : Address} (hn : (h.exec? n).isSome)
    (hin : ∀ m ∈ allIn h receiver, (h.exec? m).isSome) (depth : ℕ) :
    tuEdges (depth + 2) h (some n) (some receiver) =
      some (putAll h ((allIn h receiver).flatMap fun m => execEntries h n m), true) := by
  cases hgr : h.graph? receiver with
  | none =>
    have hreceiver : (h.exec? receiver).isSome := hin receiver (by rw [allIn, hgr]; simp)
    rw [tuEdges_exec hn hreceiver (depth + 1), allIn, hgr]
    simp
  | some gr =>
    obtain ⟨e, he⟩ := Option.isSome_iff_exists.mp hn
    have hall : allIn h receiver = gr.inputs.keys.toList.flatMap (nodesOf gr.inputs) := by
      rw [allIn, hgr]
    rw [tuEdges, Heap.exec?_eq_some.mp he, Heap.graph?_eq_some.mp hgr]
    dsimp only
    rw [← hall, forEach_putAll (fun m => execEntries h n m)
      (I := fun h' => ∃ l, h' = putAll h l)]
    · rintro h' ⟨l, rfl⟩ m hm
      have hm' := hin m hm
      rw [tuEdges_exec (by rwa [isSome_exec?_putAll]) (by rwa [isSome_exec?_putAll]) depth,
        execEntries, inputTypes_putAll hm', execEntries]
    · rintro h' ⟨l, rfl⟩ m hm
      exact ⟨l ++ execEntries h n m, (putAll_append _ _ _).symm⟩
    · exact ⟨[], rfl⟩

theorem graph?_putAll_edges {l : List Insertion} (hl : ∀ i ∈ l, ∃ n m type, i = .edge n m type)
    (g : Address) : (putAll h l).graph? g = h.graph? g := by
  refine putAll_invariant (I := fun h' => h'.graph? g = h.graph? g) ?_ rfl
  rintro h' hsame i hi
  obtain ⟨n, m, type, rfl⟩ := hl i hi
  rw [put]
  split
  · next e e' he he' =>
    rw [edgeExec]
    split
    · exact (Heap.graph?_setExec (Heap.graph?_of_exec? he)).trans hsame
    · exact hsame
  · exact hsame

theorem WellFormed.isSome_allOut (hW : WellFormed h) {n m : Address} (hn : h n ≠ none)
    (hm : m ∈ allOut h n) : (h.exec? m).isSome := by
  unfold allOut at hm
  split at hm
  · next gr hgr =>
    obtain ⟨type, -, hm⟩ := List.mem_flatMap.mp hm
    exact (hW.outputs n gr hgr type m hm).isSome_exec?
  · next hgr =>
    rw [List.mem_singleton.mp hm]
    rcases isSome_exec?_or_graph? hn with hexec | hgraph
    · exact hexec
    · rw [hgr] at hgraph
      cases hgraph

theorem WellFormed.isSome_allIn (hW : WellFormed h) {n m : Address} (hn : h n ≠ none)
    (hm : m ∈ allIn h n) : (h.exec? m).isSome := by
  unfold allIn at hm
  split at hm
  · next gr hgr =>
    obtain ⟨type, -, hm⟩ := List.mem_flatMap.mp hm
    exact (hW.inputs n gr hgr type m hm).isSome_exec?
  · next hgr =>
    rw [List.mem_singleton.mp hm]
    rcases isSome_exec?_or_graph? hn with hexec | hgraph
    · exact hexec
    · rw [hgr] at hgraph
      cases hgraph

/-- **`tu_edges`** never fails. -/
theorem tuEdges_eq (hW : WellFormed h) {sender receiver : Address} (hsender : h sender ≠ none)
    (hreceiver : h receiver ≠ none) (depth : ℕ) :
    tuEdges (depth + 3) h (some sender) (some receiver) =
      some (putAll h (edgesEntries h sender receiver), true) := by
  have hin : ∀ m ∈ allIn h receiver, (h.exec? m).isSome := fun m => hW.isSome_allIn hreceiver
  have hout : ∀ n ∈ allOut h sender, (h.exec? n).isSome := fun n => hW.isSome_allOut hsender
  unfold edgesEntries
  cases hgr : h.graph? sender with
  | none =>
    rw [tuEdges_receiver (hout sender (by rw [allOut, hgr]; simp)) hin (depth + 1), allOut, hgr]
    simp
  | some gr =>
    have hall : allOut h sender = gr.outputs.keys.toList.flatMap (nodesOf gr.outputs) := by
      rw [allOut, hgr]
    obtain ⟨o, ho⟩ := Option.ne_none_iff_exists'.mp hreceiver
    rw [tuEdges, Heap.graph?_eq_some.mp hgr, ho]
    dsimp only
    rw [← hall, forEach_putAll (fun n => (allIn h receiver).flatMap fun m => execEntries h n m)
      (I := fun h' => ∃ l, (∀ i ∈ l, ∃ n m type, i = .edge n m type) ∧ h' = putAll h l)]
    · rintro h' ⟨l, hl, rfl⟩ n hn
      -- the edges drawn so far leave the graphs and the types of the nodes alone
      have hsame : allIn (putAll h l) receiver = allIn h receiver := by
        rw [allIn, allIn, graph?_putAll_edges hl]
      rw [tuEdges_receiver (by rw [isSome_exec?_putAll]; exact hout n hn)
        (by rw [hsame]; exact fun m hm => by rw [isSome_exec?_putAll]; exact hin m hm) depth, hsame]
      have hentries : ∀ m ∈ allIn h receiver,
          execEntries (putAll h l) n m = execEntries h n m := fun m hm => by
        rw [execEntries, inputTypes_putAll (hin m hm), execEntries]
      rw [List.flatMap_congr hentries]
    · rintro h' ⟨l, hl, rfl⟩ n hn
      refine ⟨_, fun i hi => ?_, (putAll_append h l _).symm⟩
      rcases List.mem_append.mp hi with hi | hi
      · exact hl i hi
      · obtain ⟨m, -, hi⟩ := List.mem_flatMap.mp hi
        obtain ⟨type, -, rfl⟩ := List.mem_map.mp hi
        exact ⟨n, m, type, rfl⟩
    · exact ⟨[], by simp, rfl⟩

end Builder
end Dfg
end ThreadUtils
