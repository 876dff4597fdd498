import ThreadUtils.Dfg.Builder.Calls

/-!
# The registrations of a call

`tu_add_input` registers the nodes that a node or a graph stands for as inputs of another graph, for
one type.  `tu_add_inputs` goes over all types of a node; of a graph it takes the types that the
other graph does *not* declare, and for them the nodes with all of their types.

## How a call is turned into a list

The nodes that a graph declares are executable, so a call for a graph is a loop of calls for nodes,
and the recursion goes one level down.  The lemmas come in pairs: what the call inserts
where its arguments have the type, and that it inserts nothing where they do not.  Where nothing is
inserted the call may still answer true: a graph that declares no node for the type has no node to
refuse, and `tu_add_output` takes a node without the type for a matter of a warning.

A key is inserted by `operator[]` on a nested graph only, before the loop, and it is the first entry
of the list.

* `tuAddInput_eq`, `tuAddInput_refused`, `tuAddOutput_eq`, `tuAddOutput_refused` --- the insertions
  for one type.
* `tuAddInputs_eq`, `tuAddOutputs_eq` --- the insertions for all types.
-/

namespace ThreadUtils
namespace Dfg
namespace Builder

variable {F : Type*} {h : Heap F} {g n : Address} {type : TypeId}

/-! ## One input type -/

/-- The insertions of `tu_add_input`. -/
def inputEntries (h : Heap F) (g n : Address) (type : TypeId) : List Insertion :=
  (if (h.graph? n).isSome then [.inputKey n type] else []) ++
    (flatIn h n type).map fun m => .input g type m

theorem inputKey_mem_inputEntries {a : Address} {u : TypeId} :
    .inputKey a u ∈ inputEntries h g n type ↔ a = n ∧ u = type ∧ (h.graph? n).isSome := by
  rw [inputEntries, List.mem_append]
  constructor
  · rintro (hmem | hmem)
    · split at hmem
      · next hgraph =>
        obtain ⟨rfl, rfl⟩ := Insertion.inputKey.inj (List.mem_singleton.mp hmem)
        exact ⟨rfl, rfl, hgraph⟩
      · cases hmem
    · simp at hmem
  · rintro ⟨rfl, rfl, hgraph⟩
    rw [if_pos hgraph]
    exact Or.inl (List.mem_singleton_self _)

theorem outputKey_notMem_inputEntries {a : Address} {u : TypeId} :
    .outputKey a u ∉ inputEntries h g n type := by
  rw [inputEntries, List.mem_append]
  rintro (hmem | hmem)
  · split at hmem <;> simp at hmem
  · simp at hmem

theorem tuAddInput_exec (hg : InputType h g type) (hn : HasInput h type n) (depth : ℕ) :
    tuAddInput (depth + 1) h (some g) (some n) type = some (put h (.input g type n), true) := by
  have henabled : (Insertion.input g type n).Enabled h := ⟨hg, hn⟩
  obtain ⟨gr, hgr, -⟩ := hg
  obtain ⟨e, he, -⟩ := hn
  rw [tuAddInput, Heap.exec?_eq_some.mp he]
  dsimp only
  rw [hgr, Option.map_some, put_input hgr he, addInputExec_eq hgr he henabled]

theorem tuAddInput_exec_refused (hg : (h.graph? g).isSome) (hn : (h.exec? n).isSome)
    (hnot : ¬ (InputType h g type ∧ HasInput h type n)) (depth : ℕ) :
    tuAddInput (depth + 1) h (some g) (some n) type = some (h, false) := by
  obtain ⟨gr, hgr⟩ := Option.isSome_iff_exists.mp hg
  obtain ⟨e, he⟩ := Option.isSome_iff_exists.mp hn
  rw [tuAddInput, Heap.exec?_eq_some.mp he]
  dsimp only
  rw [hgr, Option.map_some, addInputExec_eq_self hgr he hnot]

theorem tuAddInput_graph {sub : Graph} (hne : g ≠ n) (hsub : h.graph? n = some sub) (depth : ℕ) :
    tuAddInput (depth + 1) h (some g) (some n) type =
      forEach (fun h m => tuAddInput depth h (some g) (some m) type)
        (put h (.inputKey n type)) (flatIn h n type) := by
  rw [tuAddInput, Heap.graph?_eq_some.mp hsub]
  dsimp only
  rw [tuAddInputGraph, if_neg hne, hsub, Option.bind_some]
  dsimp only
  rw [nodesOf_insert, flatIn_graph hsub, put, hsub]

/-- **`tu_add_input`** for a type that the graph declares. -/
theorem tuAddInput_eq (hne : g ≠ n) (hg : InputType h g type)
    (hin : ∀ m ∈ flatIn h n type, HasInput h type m) (depth : ℕ) :
    tuAddInput (depth + 2) h (some g) (some n) type =
      some (putAll h (inputEntries h g n type), true) := by
  unfold inputEntries
  cases hsub : h.graph? n with
  | none =>
    have hn : HasInput h type n := hin n (by rw [flatIn, hsub]; simp)
    rw [tuAddInput_exec hg hn (depth + 1), flatIn, hsub]
    rfl
  | some sub =>
    rw [tuAddInput_graph hne hsub]
    rw [forEach_putAll (fun m => [.input g type m]) (I := fun h' => InputType h' g type ∧
      ∀ m ∈ flatIn h n type, HasInput h' type m)]
    · rw [← List.map_eq_flatMap]
      rfl
    · rintro h' ⟨hg', hin'⟩ m hm
      exact tuAddInput_exec hg' (hin' m hm) depth
    · rintro h' ⟨hg', hin'⟩ m hm
      exact ⟨(inputType_putAll _).mpr (Or.inl hg'),
        fun m hm => (hasInput_putAll _).mpr (hin' m hm)⟩
    · exact ⟨(inputType_put _).mpr (Or.inl hg), fun m hm => (hasInput_put _).mpr (hin m hm)⟩

/-- **`tu_add_input` that registers nothing.** -/
theorem tuAddInput_refused (hW : WellFormed h) (hg : (h.graph? g).isSome) (hn : h n ≠ none)
    (hnot : ¬ (g ≠ n ∧ InputType h g type ∧ ∀ m ∈ flatIn h n type, HasInput h type m))
    (depth : ℕ) : tuAddInput (depth + 2) h (some g) (some n) type = some (h, false) ∨
      tuAddInput (depth + 2) h (some g) (some n) type = some (put h (.inputKey n type), true) ∧
        g ≠ n ∧ (h.graph? n).isSome := by
  rcases isSome_exec?_or_graph? hn with hexec | hgraph
  · refine Or.inl (tuAddInput_exec_refused hg hexec (fun hand => hnot ⟨?_, hand.1, ?_⟩) _)
    · rintro rfl
      rw [graph?_eq_none_of_isSome hexec] at hg
      cases hg
    · intro m hm
      rw [flatIn, graph?_eq_none_of_isSome hexec] at hm
      exact List.mem_singleton.mp hm ▸ hand.2
  · obtain ⟨sub, hsub⟩ := Option.isSome_iff_exists.mp hgraph
    by_cases hne : g = n
    · refine Or.inl ?_
      rw [tuAddInput, Heap.graph?_eq_some.mp hsub]
      dsimp only
      rw [tuAddInputGraph, if_pos hne]
    · have hlacks : ¬ InputType h g type := fun hhas =>
        hnot ⟨hne, hhas, fun m hm => hW.hasInput_flatIn hgraph hm⟩
      rw [tuAddInput_graph hne hsub]
      by_cases hnil : flatIn h n type = []
      · rw [hnil]
        exact Or.inr ⟨rfl, hne, hgraph⟩
      · rw [put_inputKey_eq_self (inputType_of_flatIn hgraph hnil)]
        refine Or.inl (forEach_eq_false hnil fun m hm => ?_)
        exact tuAddInput_exec_refused hg (hW.hasInput_flatIn hgraph hm).isSome_exec?
          (fun hand => hlacks hand.1) _

/-- A pointer that is no graph is read only if there is a node to register. -/
theorem tuAddInput_not_graph {h' : Heap F} {ok : Bool} {depth : ℕ} (hW : WellFormed h)
    (hg : h.graph? g = none)
    (hrun : tuAddInput (depth + 2) h (some g) (some n) type = some (h', ok)) :
    g ≠ n ∧ (h.graph? n).isSome ∧ h' = put h (.inputKey n type) := by
  have hn : h n ≠ none := by
    intro hn
    rw [tuAddInput, hn] at hrun
    cases hrun
  rcases isSome_exec?_or_graph? hn with hexec | hgraph
  · obtain ⟨e, he⟩ := Option.isSome_iff_exists.mp hexec
    rw [tuAddInput, Heap.exec?_eq_some.mp he] at hrun
    dsimp only at hrun
    rw [hg] at hrun
    cases hrun
  · obtain ⟨sub, hsub⟩ := Option.isSome_iff_exists.mp hgraph
    have hne : g ≠ n := by
      rintro rfl
      rw [hg] at hgraph
      cases hgraph
    rw [tuAddInput_graph hne hsub] at hrun
    cases hnodes : flatIn h n type with
    | nil =>
      rw [hnodes] at hrun
      cases hrun
      exact ⟨hne, hgraph, rfl⟩
    | cons m ms =>
      have hm := hW.hasInput_flatIn hgraph (m := m) (by rw [hnodes]; exact List.mem_cons_self)
      obtain ⟨e, he⟩ := Option.isSome_iff_exists.mp
        ((isSome_exec?_put (.inputKey n type)).trans hm.isSome_exec?)
      rw [hnodes, forEach, tuAddInput, Heap.exec?_eq_some.mp he] at hrun
      dsimp only at hrun
      rw [graph?_put_eq_none hg] at hrun
      cases hrun

/-! ## One output type -/

/-- The insertions of `tu_add_output`. -/
def outputEntries (h : Heap F) (g n : Address) (type : TypeId) : List Insertion :=
  (if (h.graph? n).isSome then [.outputKey n type] else []) ++
    (flatOut h n type).map fun m => .output g type m

theorem outputKey_mem_outputEntries {a : Address} {u : TypeId} :
    .outputKey a u ∈ outputEntries h g n type ↔ a = n ∧ u = type ∧ (h.graph? n).isSome := by
  rw [outputEntries, List.mem_append]
  constructor
  · rintro (hmem | hmem)
    · split at hmem
      · next hgraph =>
        obtain ⟨rfl, rfl⟩ := Insertion.outputKey.inj (List.mem_singleton.mp hmem)
        exact ⟨rfl, rfl, hgraph⟩
      · cases hmem
    · simp at hmem
  · rintro ⟨rfl, rfl, hgraph⟩
    rw [if_pos hgraph]
    exact Or.inl (List.mem_singleton_self _)

theorem inputKey_notMem_outputEntries {a : Address} {u : TypeId} :
    .inputKey a u ∉ outputEntries h g n type := by
  rw [outputEntries, List.mem_append]
  rintro (hmem | hmem)
  · split at hmem <;> simp at hmem
  · simp at hmem

/-- A node that lacks the type is let pass. -/
theorem tuAddOutput_exec (hg : OutputType h g type) (hn : (h.exec? n).isSome) (depth : ℕ) :
    tuAddOutput (depth + 1) h (some g) (some n) type = some (put h (.output g type n), true) := by
  obtain ⟨gr, hgr, htype⟩ := id hg
  obtain ⟨e, he⟩ := Option.isSome_iff_exists.mp hn
  rw [tuAddOutput, Heap.exec?_eq_some.mp he]
  dsimp only
  rw [hgr, Option.map_some, put_output hgr he]
  by_cases henabled : (Insertion.output g type n).Enabled h
  · rw [addOutputExec_eq hgr he henabled]
  · rw [addOutputExec_eq_self hgr he henabled, OrderedMap.contains_iff.mpr htype]

theorem tuAddOutput_exec_refused (hg : (h.graph? g).isSome) (hn : (h.exec? n).isSome)
    (hnot : ¬ OutputType h g type) (depth : ℕ) :
    tuAddOutput (depth + 1) h (some g) (some n) type = some (h, false) := by
  obtain ⟨gr, hgr⟩ := Option.isSome_iff_exists.mp hg
  obtain ⟨e, he⟩ := Option.isSome_iff_exists.mp hn
  have hlacks : gr.outputs.contains type = false :=
    Bool.eq_false_iff.mpr fun htype => hnot ⟨gr, hgr, OrderedMap.contains_iff.mp htype⟩
  rw [tuAddOutput, Heap.exec?_eq_some.mp he]
  dsimp only
  rw [hgr, Option.map_some, addOutputExec_eq_self hgr he (fun hand => hnot hand.1), hlacks]

theorem tuAddOutput_graph {sub : Graph} (hsub : h.graph? n = some sub) (depth : ℕ) :
    tuAddOutput (depth + 1) h (some g) (some n) type =
      forEach (fun h m => tuAddOutput depth h (some g) (some m) type)
        (put h (.outputKey n type)) (flatOut h n type) := by
  rw [tuAddOutput, Heap.graph?_eq_some.mp hsub]
  dsimp only
  rw [tuAddOutputGraph, hsub, Option.bind_some]
  dsimp only
  rw [nodesOf_insert, flatOut_graph hsub, put, hsub]

/-- **`tu_add_output`** for a type that the graph declares. -/
theorem tuAddOutput_eq (hg : OutputType h g type)
    (hout : ∀ m ∈ flatOut h n type, (h.exec? m).isSome) (depth : ℕ) :
    tuAddOutput (depth + 2) h (some g) (some n) type =
      some (putAll h (outputEntries h g n type), true) := by
  unfold outputEntries
  cases hsub : h.graph? n with
  | none =>
    have hn : (h.exec? n).isSome := hout n (by rw [flatOut, hsub]; simp)
    rw [tuAddOutput_exec hg hn (depth + 1), flatOut, hsub]
    rfl
  | some sub =>
    rw [tuAddOutput_graph hsub]
    rw [forEach_putAll (fun m => [.output g type m]) (I := fun h' => OutputType h' g type ∧
      ∀ m ∈ flatOut h n type, (h'.exec? m).isSome)]
    · rw [← List.map_eq_flatMap]
      rfl
    · rintro h' ⟨hg', hout'⟩ m hm
      exact tuAddOutput_exec hg' (hout' m hm) depth
    · rintro h' ⟨hg', hout'⟩ m hm
      exact ⟨(outputType_putAll _).mpr (Or.inl hg'),
        fun m hm => by rw [isSome_exec?_putAll]; exact hout' m hm⟩
    · exact ⟨(outputType_put _).mpr (Or.inl hg),
        fun m hm => by rw [isSome_exec?_put]; exact hout m hm⟩

/-- **`tu_add_output` that registers nothing.** -/
theorem tuAddOutput_refused (hW : WellFormed h) (hg : (h.graph? g).isSome) (hn : h n ≠ none)
    (hnot : ¬ OutputType h g type) (depth : ℕ) :
    tuAddOutput (depth + 2) h (some g) (some n) type = some (h, false) ∨
      tuAddOutput (depth + 2) h (some g) (some n) type = some (put h (.outputKey n type), true) ∧
        (h.graph? n).isSome := by
  rcases isSome_exec?_or_graph? hn with hexec | hgraph
  · exact Or.inl (tuAddOutput_exec_refused hg hexec hnot _)
  · obtain ⟨sub, hsub⟩ := Option.isSome_iff_exists.mp hgraph
    rw [tuAddOutput_graph hsub]
    by_cases hnil : flatOut h n type = []
    · rw [hnil]
      exact Or.inr ⟨rfl, hgraph⟩
    · rw [put_outputKey_eq_self (outputType_of_flatOut hgraph hnil)]
      refine Or.inl (forEach_eq_false hnil fun m hm => ?_)
      exact tuAddOutput_exec_refused hg (hW.hasOutput_flatOut hgraph hm).isSome_exec? hnot _

theorem tuAddOutput_not_graph {h' : Heap F} {ok : Bool} {depth : ℕ} (hW : WellFormed h)
    (hg : h.graph? g = none)
    (hrun : tuAddOutput (depth + 2) h (some g) (some n) type = some (h', ok)) :
    (h.graph? n).isSome ∧ h' = put h (.outputKey n type) := by
  have hn : h n ≠ none := by
    intro hn
    rw [tuAddOutput, hn] at hrun
    cases hrun
  rcases isSome_exec?_or_graph? hn with hexec | hgraph
  · obtain ⟨e, he⟩ := Option.isSome_iff_exists.mp hexec
    rw [tuAddOutput, Heap.exec?_eq_some.mp he] at hrun
    dsimp only at hrun
    rw [hg] at hrun
    cases hrun
  · obtain ⟨sub, hsub⟩ := Option.isSome_iff_exists.mp hgraph
    rw [tuAddOutput_graph hsub] at hrun
    cases hnodes : flatOut h n type with
    | nil =>
      rw [hnodes] at hrun
      cases hrun
      exact ⟨hgraph, rfl⟩
    | cons m ms =>
      have hm := hW.hasOutput_flatOut hgraph (m := m) (by rw [hnodes]; exact List.mem_cons_self)
      obtain ⟨e, he⟩ := Option.isSome_iff_exists.mp
        ((isSome_exec?_put (.outputKey n type)).trans hm.isSome_exec?)
      rw [hnodes, forEach, tuAddOutput, Heap.exec?_eq_some.mp he] at hrun
      dsimp only at hrun
      rw [graph?_put_eq_none hg] at hrun
      cases hrun

theorem WellFormed.isSome_flatOut (hW : WellFormed h) (hn : h n ≠ none) :
    ∀ m ∈ flatOut h n type, (h.exec? m).isSome := by
  intro m hm
  rcases isSome_exec?_or_graph? hn with hexec | hgraph
  · rw [flatOut, graph?_eq_none_of_isSome hexec] at hm
    exact List.mem_singleton.mp hm ▸ hexec
  · exact (hW.hasOutput_flatOut hgraph hm).isSome_exec?

/-! ## All input types -/

/-- The insertions of `tu_add_inputs` for an executable node. -/
def inputsEntries (h : Heap F) (g n : Address) : List Insertion :=
  (inputTypes h n).toList.map fun type => .input g type n

/-- The insertions of `tu_add_inputs`. -/
def allInputsEntries (h : Heap F) (g n : Address) : List Insertion :=
  match h.graph? n with
  | some sub => sub.inputs.keys.toList.flatMap fun type =>
      if type ∈ inputTypes h g then []
      else (nodesOf sub.inputs type).flatMap (inputsEntries h g)
  | none => inputsEntries h g n

theorem eq_input_of_mem {i : Insertion} (hi : i ∈ allInputsEntries h g n) :
    ∃ type m, i = .input g type m := by
  unfold allInputsEntries at hi
  split at hi
  · obtain ⟨type, -, hi⟩ := List.mem_flatMap.mp hi
    split at hi
    · cases hi
    · obtain ⟨m, -, hi⟩ := List.mem_flatMap.mp hi
      obtain ⟨type', -, rfl⟩ := List.mem_map.mp hi
      exact ⟨type', m, rfl⟩
  · obtain ⟨type, -, rfl⟩ := List.mem_map.mp hi
    exact ⟨type, n, rfl⟩

theorem put_input_eq {gr : Graph} (hgr : h.graph? g = some gr) (hn : HasInput h type n) :
    put h (.input g type n) =
      h.setGraph g { gr with inputs := gr.inputs.modify type (·.insert n) } := by
  obtain ⟨e, he, -⟩ := id hn
  by_cases htype : type ∈ gr.inputs.keys
  · rw [put_input hgr he, addInputExec_eq hgr he ⟨⟨gr, hgr, htype⟩, hn⟩]
  · rw [put_eq_self, OrderedMap.modify_eq_self _ htype, Heap.setGraph_eq_self hgr]
    rintro ⟨⟨gr', hgr', htype'⟩, -⟩
    obtain rfl := Option.some.inj (hgr.symm.trans hgr')
    exact htype htype'

/-- The loop of `tu_add_inputs` over the types of a node. -/
theorem putAll_inputs {gr : Graph} (types : List TypeId) (hgr : h.graph? g = some gr)
    (htypes : ∀ type ∈ types, HasInput h type n) :
    putAll h (types.map fun type => .input g type n) = h.setGraph g { gr with
      inputs := types.foldl (fun map type => map.modify type (·.insert n)) gr.inputs } := by
  induction types generalizing h gr with
  | nil => exact (Heap.setGraph_eq_self hgr).symm
  | cons type types ih =>
    have hput := put_input_eq hgr (htypes type List.mem_cons_self)
    have hgr' : (put h (.input g type n)).graph? g = some { gr with
        inputs := gr.inputs.modify type (·.insert n) } := by
      rw [hput, Heap.graph?_setGraph_self]
    rw [List.map_cons, putAll_cons, ih hgr' fun t ht =>
      (hasInput_put _).mpr (htypes t (List.mem_cons_of_mem _ ht)), hput, Heap.setGraph_setGraph,
      List.foldl_cons]

theorem tuAddInputs_exec (hg : (h.graph? g).isSome) (hn : (h.exec? n).isSome) (depth : ℕ) :
    tuAddInputs (depth + 1) h (some g) (some n) =
      some (putAll h (inputsEntries h g n), true) := by
  obtain ⟨gr, hgr⟩ := Option.isSome_iff_exists.mp hg
  obtain ⟨e, he⟩ := Option.isSome_iff_exists.mp hn
  have hloop := putAll_inputs (n := n) e.inputs.keys.toList hgr
    fun type htype => ⟨e, he, htype⟩
  rw [tuAddInputs, Heap.exec?_eq_some.mp he]
  dsimp only
  rw [hgr, Option.map_some, addInputsExec, inputsEntries, inputTypes_exec he, hloop]

theorem inputsEntries_putAll (hn : (h.exec? n).isSome) (l : List Insertion) :
    inputsEntries (putAll h l) g n = inputsEntries h g n := by
  rw [inputsEntries, inputTypes_putAll hn, inputsEntries]

/-- **`tu_add_inputs`.** -/
theorem tuAddInputs_eq (hW : WellFormed h) (hne : g ≠ n) (hg : (h.graph? g).isSome)
    (hn : h n ≠ none) (depth : ℕ) : tuAddInputs (depth + 2) h (some g) (some n) =
      some (putAll h (allInputsEntries h g n), true) := by
  unfold allInputsEntries
  cases hsub : h.graph? n with
  | none =>
    refine tuAddInputs_exec hg ?_ (depth + 1)
    rcases isSome_exec?_or_graph? hn with hexec | hgraph
    · exact hexec
    · rw [hsub] at hgraph
      cases hgraph
  | some sub =>
    rw [tuAddInputs, Heap.graph?_eq_some.mp hsub]
    dsimp only
    rw [tuAddInputsGraph, if_neg hne, hsub, Option.bind_some]
    have hkeys : ∀ {l : List Insertion}, (∀ i ∈ l, ∃ type m, i = .input g type m) →
        ∀ gr, (putAll h l).graph? g = some gr → ∀ type,
          (gr.inputs.contains type = true ↔ type ∈ inputTypes h g) := by
      intro l hl gr hgr type
      rw [mem_inputTypes_graph hg, OrderedMap.contains_iff]
      have hold : InputType (putAll h l) g type ↔ _ := inputType_putAll l
      rw [or_iff_left] at hold
      · rw [← hold]
        constructor
        · exact fun htype => ⟨gr, hgr, htype⟩
        · rintro ⟨gr', hgr', htype⟩
          obtain rfl := Option.some.inj (hgr.symm.trans hgr')
          exact htype
      · rintro ⟨hmem, -⟩
        obtain ⟨type', m, heq⟩ := hl _ hmem
        cases heq
    refine forEach_putAll _
      (I := fun h' => ∃ l, (∀ i ∈ l, ∃ type m, i = .input g type m) ∧ h' = putAll h l) ?_ ?_ ?_
    · rintro h' ⟨l, hl, rfl⟩ type htype
      obtain ⟨gr, hgr⟩ := Option.isSome_iff_exists.mp
        ((isSome_graph?_putAll (h := h) (g := g) l).trans hg)
      rw [hgr, Option.bind_some]
      split
      · next hdeclared =>
        rw [if_pos ((hkeys hl gr hgr type).mp hdeclared)]
        rfl
      · next hnot =>
        rw [if_neg fun htype => hnot ((hkeys hl gr hgr type).mpr htype)]
        refine forEach_putAll _ (I := fun h' => ∃ l, h' = putAll h l) ?_ ?_ ⟨l, rfl⟩
        · rintro h' ⟨l, rfl⟩ m hm
          have hexec := (hW.inputs n sub hsub type m hm).isSome_exec?
          rw [tuAddInputs_exec (by rw [isSome_graph?_putAll]; exact hg)
            (by rw [isSome_exec?_putAll]; exact hexec) depth, inputsEntries_putAll hexec]
        · rintro h' ⟨l, rfl⟩ m hm
          exact ⟨l ++ inputsEntries h g m, (putAll_append _ _ _).symm⟩
    · rintro h' ⟨l, hl, rfl⟩ type htype
      refine ⟨_, fun i hi => ?_, (putAll_append h l _).symm⟩
      rcases List.mem_append.mp hi with hi | hi
      · exact hl i hi
      · split at hi
        · cases hi
        · obtain ⟨m, -, hi⟩ := List.mem_flatMap.mp hi
          obtain ⟨type', -, rfl⟩ := List.mem_map.mp hi
          exact ⟨type', m, rfl⟩
    · exact ⟨[], by simp, rfl⟩

/-! ## All output types -/

/-- The insertions of `tu_add_outputs` for an executable node. -/
def outputsEntries (h : Heap F) (g n : Address) : List Insertion :=
  (outputTypes h n).toList.map fun type => .output g type n

/-- The insertions of `tu_add_outputs`. -/
def allOutputsEntries (h : Heap F) (g n : Address) : List Insertion :=
  match h.graph? n with
  | some sub => sub.outputs.keys.toList.flatMap fun type =>
      if type ∈ outputTypes h g then []
      else (nodesOf sub.outputs type).flatMap (outputsEntries h g)
  | none => outputsEntries h g n

theorem eq_output_of_mem {i : Insertion} (hi : i ∈ allOutputsEntries h g n) :
    ∃ type m, i = .output g type m := by
  unfold allOutputsEntries at hi
  split at hi
  · obtain ⟨type, -, hi⟩ := List.mem_flatMap.mp hi
    split at hi
    · cases hi
    · obtain ⟨m, -, hi⟩ := List.mem_flatMap.mp hi
      obtain ⟨type', -, rfl⟩ := List.mem_map.mp hi
      exact ⟨type', m, rfl⟩
  · obtain ⟨type, -, rfl⟩ := List.mem_map.mp hi
    exact ⟨type, n, rfl⟩

/-- The loop of `tu_add_outputs` over the types of a node: the sink is set once, or once for each
type that the graph declares. -/
theorem putAll_outputs {gr gr' : Graph} {e : ExecNode F} (types : List TypeId)
    (hgr : h.graph? g = some gr) (he : h.exec? n = some e)
    (htypes : ∀ type ∈ types, type ∈ e.outputs.keys) (hgr' : gr' = { gr with
      outputs := types.foldl (fun map type => map.modify type (·.insert n)) gr.outputs }) :
    putAll h (types.map fun type => .output g type n) =
      if types.any gr.outputs.contains then
        (h.setGraph g gr').setExec n { e with sink := some g }
      else h.setGraph g gr' := by
  subst hgr'
  induction types generalizing h gr e with
  | nil => exact (Heap.setGraph_eq_self hgr).symm
  | cons type types ih =>
    have hrest : ∀ t ∈ types, t ∈ e.outputs.keys := fun t ht =>
      htypes t (List.mem_cons_of_mem _ ht)
    rw [List.map_cons, putAll_cons, List.foldl_cons, List.any_cons]
    by_cases hdeclared : type ∈ gr.outputs.keys
    · have hput : put h (.output g type n) = (h.setGraph g { gr with
          outputs := gr.outputs.modify type (·.insert n) }).setExec n
            { e with sink := some g } := by
        rw [put_output hgr he, addOutputExec_eq hgr he
          ⟨⟨gr, hgr, hdeclared⟩, e, he, htypes type List.mem_cons_self⟩]
      have hng : g ≠ n := by
        rintro rfl
        rw [Heap.graph?_of_exec? he] at hgr
        cases hgr
      have hexec : (h.setGraph g { gr with
          outputs := gr.outputs.modify type (·.insert n) }).graph? n = none := by
        refine Heap.graph?_of_exec? (e := e) ?_
        rw [Heap.exec?_setGraph (Heap.exec?_of_graph? hgr)]
        exact he
      have hcomm : ∀ X : Graph, (put h (.output g type n)).setGraph g X =
          (h.setGraph g X).setExec n { e with sink := some g } := by
        intro X
        rw [hput, Heap.setExec, Heap.setGraph, Heap.setGraph, Heap.setGraph, Heap.setExec,
          Function.update_comm hng.symm, Function.update_idem]
      have hgr' : (put h (.output g type n)).graph? g = some { gr with
          outputs := gr.outputs.modify type (·.insert n) } := by
        rw [hput, Heap.graph?_setExec hexec, Heap.graph?_setGraph_self]
      have he' : (put h (.output g type n)).exec? n = some { e with sink := some g } := by
        rw [hput, Heap.exec?_setExec_self]
      rw [ih hgr' he' hrest, OrderedMap.contains_iff.mpr hdeclared, Bool.true_or, if_pos rfl]
      rw [hcomm, Heap.setExec_setExec, ite_self]
    · have hput : put h (.output g type n) = h := by
        refine put_eq_self fun hand => hdeclared ?_
        obtain ⟨⟨gr', hgr', htype⟩, -⟩ := hand
        obtain rfl := Option.some.inj (hgr.symm.trans hgr')
        exact htype
      have hlacks : gr.outputs.contains type = false :=
        Bool.eq_false_iff.mpr fun htype => hdeclared (OrderedMap.contains_iff.mp htype)
      rw [hput, ih hgr he hrest, OrderedMap.modify_eq_self _ hdeclared, hlacks, Bool.false_or]

theorem tuAddOutputs_exec (hg : (h.graph? g).isSome) (hn : (h.exec? n).isSome) (depth : ℕ) :
    tuAddOutputs (depth + 1) h (some g) (some n) =
      some (putAll h (outputsEntries h g n), true) := by
  obtain ⟨gr, hgr⟩ := Option.isSome_iff_exists.mp hg
  obtain ⟨e, he⟩ := Option.isSome_iff_exists.mp hn
  have hloop := putAll_outputs e.outputs.keys.toList hgr he (fun _ htype => htype) rfl
  rw [tuAddOutputs, Heap.exec?_eq_some.mp he]
  dsimp only
  rw [hgr, Option.map_some, addOutputsExec, outputsEntries, outputTypes_exec he, hloop]
  split <;> rfl

theorem outputsEntries_putAll (hn : (h.exec? n).isSome) (l : List Insertion) :
    outputsEntries (putAll h l) g n = outputsEntries h g n := by
  rw [outputsEntries, outputTypes_putAll hn, outputsEntries]

/-- **`tu_add_outputs`.** -/
theorem tuAddOutputs_eq (hW : WellFormed h) (hg : (h.graph? g).isSome) (hn : h n ≠ none)
    (depth : ℕ) : tuAddOutputs (depth + 2) h (some g) (some n) =
      some (putAll h (allOutputsEntries h g n), true) := by
  unfold allOutputsEntries
  cases hsub : h.graph? n with
  | none =>
    refine tuAddOutputs_exec hg ?_ (depth + 1)
    rcases isSome_exec?_or_graph? hn with hexec | hgraph
    · exact hexec
    · rw [hsub] at hgraph
      cases hgraph
  | some sub =>
    rw [tuAddOutputs, Heap.graph?_eq_some.mp hsub]
    dsimp only
    rw [tuAddOutputsGraph, hsub, Option.bind_some]
    have hkeys : ∀ {l : List Insertion}, (∀ i ∈ l, ∃ type m, i = .output g type m) →
        ∀ gr, (putAll h l).graph? g = some gr → ∀ type,
          (gr.outputs.contains type = true ↔ type ∈ outputTypes h g) := by
      intro l hl gr hgr type
      rw [mem_outputTypes_graph hg, OrderedMap.contains_iff]
      have hold : OutputType (putAll h l) g type ↔ _ := outputType_putAll l
      rw [or_iff_left] at hold
      · rw [← hold]
        constructor
        · exact fun htype => ⟨gr, hgr, htype⟩
        · rintro ⟨gr', hgr', htype⟩
          obtain rfl := Option.some.inj (hgr.symm.trans hgr')
          exact htype
      · rintro ⟨hmem, -⟩
        obtain ⟨type', m, heq⟩ := hl _ hmem
        cases heq
    refine forEach_putAll _
      (I := fun h' => ∃ l, (∀ i ∈ l, ∃ type m, i = .output g type m) ∧ h' = putAll h l) ?_ ?_ ?_
    · rintro h' ⟨l, hl, rfl⟩ type htype
      obtain ⟨gr, hgr⟩ := Option.isSome_iff_exists.mp
        ((isSome_graph?_putAll (h := h) (g := g) l).trans hg)
      rw [hgr, Option.bind_some]
      split
      · next hdeclared =>
        rw [if_pos ((hkeys hl gr hgr type).mp hdeclared)]
        rfl
      · next hnot =>
        rw [if_neg fun htype => hnot ((hkeys hl gr hgr type).mpr htype)]
        refine forEach_putAll _ (I := fun h' => ∃ l, h' = putAll h l) ?_ ?_ ⟨l, rfl⟩
        · rintro h' ⟨l, rfl⟩ m hm
          have hexec := (hW.outputs n sub hsub type m hm).isSome_exec?
          rw [tuAddOutputs_exec (by rw [isSome_graph?_putAll]; exact hg)
            (by rw [isSome_exec?_putAll]; exact hexec) depth, outputsEntries_putAll hexec]
        · rintro h' ⟨l, rfl⟩ m hm
          exact ⟨l ++ outputsEntries h g m, (putAll_append _ _ _).symm⟩
    · rintro h' ⟨l, hl, rfl⟩ type htype
      refine ⟨_, fun i hi => ?_, (putAll_append h l _).symm⟩
      rcases List.mem_append.mp hi with hi | hi
      · exact hl i hi
      · split at hi
        · cases hi
        · obtain ⟨m, -, hi⟩ := List.mem_flatMap.mp hi
          obtain ⟨type', -, rfl⟩ := List.mem_map.mp hi
          exact ⟨type', m, rfl⟩
    · exact ⟨[], by simp, rfl⟩

end Builder
end Dfg
end ThreadUtils
