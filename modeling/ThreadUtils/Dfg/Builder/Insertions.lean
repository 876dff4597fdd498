import ThreadUtils.Dfg.Builder.Sink

/-!
# The insertions of a call

A call that registers a node or draws an edge inserts into the maps of graphs and nodes, one entry
after the other.  `Insertion` names the entries and `putAll` makes a list of them, so that a call is
told by its list: two calls do the same if their lists have the same members.

## Two layers

The functions of the builder are recursive, loop inside of loops and test before they write.  Were
each property proved about them directly, each proof would go through the loops again.  Here a call
is turned into a list of entries once (`tuEdge_eq` and its like), and a property is proved about an
entry.

An entry is refused where its map has no such key or its node no such type.  `put` is the write with
these tests and `Insertion.Enabled` is what they test.  Where no entry of a list touches what the
tests read, it can be read off the heap before the call which of them are refused (`putAll_adds`).

## What is in the heap

An insertion adds an entry and takes none away, apart from the sink of a node, which is a single
pointer and takes the last value.  So all questions about the heap after a list are questions about
the members of the list:

* `connected_putAll`, `declaredInput_putAll`, `declaredOutput_putAll`, `sinkOf_putAll` --- what is
  in the heap after a list of insertions.
-/

namespace ThreadUtils
namespace Dfg
namespace Builder

variable {F : Type*} {h : Heap F}

/-- The graph declares the input type. -/
def InputType (h : Heap F) (g : Address) (type : TypeId) : Prop :=
  ∃ gr, h.graph? g = some gr ∧ type ∈ gr.inputs.keys

/-- The graph declares the output type. -/
def OutputType (h : Heap F) (g : Address) (type : TypeId) : Prop :=
  ∃ gr, h.graph? g = some gr ∧ type ∈ gr.outputs.keys

/-- `n` is in `graph->inputs[type]`. -/
def DeclaredInput (h : Heap F) (g : Address) (type : TypeId) (n : Address) : Prop :=
  ∃ gr, h.graph? g = some gr ∧ n ∈ nodesOf gr.inputs type

/-- What the builder inserts. -/
inductive Insertion where
  /-- The key of `graph->inputs[type]`. -/
  | inputKey (g : Address) (type : TypeId)
  /-- The key of `graph->outputs[type]`. -/
  | outputKey (g : Address) (type : TypeId)
  /-- An executable node of `graph->inputs[type]`. -/
  | input (g : Address) (type : TypeId) (n : Address)
  /-- An executable node of `graph->outputs[type]`, with its sink. -/
  | output (g : Address) (type : TypeId) (n : Address)
  /-- A receiver of `sender->outputs[type]`. -/
  | edge (n m : Address) (type : TypeId)
  deriving DecidableEq

/-- The heap after an insertion, the same one when the code refuses it. -/
def put (h : Heap F) : Insertion → Heap F
  | .inputKey g type =>
      match h.graph? g with
      | some gr => h.setGraph g { gr with inputs := gr.inputs.insert type .empty }
      | none => h
  | .outputKey g type =>
      match h.graph? g with
      | some gr => h.setGraph g { gr with outputs := gr.outputs.insert type .empty }
      | none => h
  | .input g type n =>
      match h.graph? g, h.exec? n with
      | some gr, some e => (addInputExec h g gr n e type).1
      | _, _ => h
  | .output g type n =>
      match h.graph? g, h.exec? n with
      | some gr, some e => (addOutputExec h g gr n e type).1
      | _, _ => h
  | .edge n m type =>
      match h.exec? n, h.exec? m with
      | some e, some e' => (edgeExec h n e m e' type).1
      | _, _ => h

/-- The heap after a list of insertions. -/
def putAll (h : Heap F) (entries : List Insertion) : Heap F :=
  entries.foldl put h

/-- The tests of the code before an insertion. -/
def Insertion.Enabled (h : Heap F) : Insertion → Prop
  | .inputKey g _ | .outputKey g _ => ∃ gr, h.graph? g = some gr
  | .input g type n => InputType h g type ∧ HasInput h type n
  | .output g type n => OutputType h g type ∧ HasOutput h type n
  | .edge n m type => HasOutput h type n ∧ HasInput h type m

/-! ## One insertion -/

theorem addInputExec_eq {g n : Address} {gr : Graph} {e : ExecNode F} {type : TypeId}
    (hgr : h.graph? g = some gr) (he : h.exec? n = some e)
    (henabled : (Insertion.input g type n).Enabled h) : addInputExec h g gr n e type =
      (h.setGraph g { gr with inputs := gr.inputs.modify type (·.insert n) }, true) := by
  obtain ⟨⟨gr₀, hgr₀, hdeclared⟩, e₀, he₀, hinput⟩ := henabled
  obtain rfl := Option.some.inj (hgr₀.symm.trans hgr)
  obtain rfl := Option.some.inj (he₀.symm.trans he)
  rw [addInputExec, if_pos (OrderedMap.contains_iff.mpr hinput),
    if_pos (OrderedMap.contains_iff.mpr hdeclared)]

theorem addInputExec_eq_self {g n : Address} {gr : Graph} {e : ExecNode F} {type : TypeId}
    (hgr : h.graph? g = some gr) (he : h.exec? n = some e)
    (hnot : ¬ (Insertion.input g type n).Enabled h) :
    addInputExec h g gr n e type = (h, false) := by
  unfold addInputExec
  split
  · next hinput =>
    split
    · next hdeclared =>
      exact absurd ⟨⟨gr, hgr, OrderedMap.contains_iff.mp hdeclared⟩, e, he,
        OrderedMap.contains_iff.mp hinput⟩ hnot
    · rfl
  · rfl

theorem addOutputExec_eq {g n : Address} {gr : Graph} {e : ExecNode F} {type : TypeId}
    (hgr : h.graph? g = some gr) (he : h.exec? n = some e)
    (henabled : (Insertion.output g type n).Enabled h) : addOutputExec h g gr n e type =
      ((h.setGraph g { gr with outputs := gr.outputs.modify type (·.insert n) }).setExec n
        { e with sink := some g }, true) := by
  obtain ⟨⟨gr₀, hgr₀, hdeclared⟩, e₀, he₀, houtput⟩ := henabled
  obtain rfl := Option.some.inj (hgr₀.symm.trans hgr)
  obtain rfl := Option.some.inj (he₀.symm.trans he)
  rw [addOutputExec, if_pos (OrderedMap.contains_iff.mpr hdeclared),
    if_pos (OrderedMap.contains_iff.mpr houtput)]

/-- A node that lacks the type is worth a warning, a graph that lacks it an error. -/
theorem addOutputExec_eq_self {g n : Address} {gr : Graph} {e : ExecNode F} {type : TypeId}
    (hgr : h.graph? g = some gr) (he : h.exec? n = some e)
    (hnot : ¬ (Insertion.output g type n).Enabled h) :
    addOutputExec h g gr n e type = (h, gr.outputs.contains type) := by
  unfold addOutputExec
  split
  · next hdeclared =>
    split
    · next houtput =>
      exact absurd ⟨⟨gr, hgr, OrderedMap.contains_iff.mp hdeclared⟩, e, he,
        OrderedMap.contains_iff.mp houtput⟩ hnot
    · rw [hdeclared]
  · next hdeclared => rw [Bool.eq_false_iff.mpr hdeclared]

theorem edgeExec_eq {n m : Address} {e e' : ExecNode F} {type : TypeId} (he : h.exec? n = some e)
    (he' : h.exec? m = some e') (henabled : (Insertion.edge n m type).Enabled h) :
    edgeExec h n e m e' type =
      (h.setExec n { e with outputs := e.outputs.modify type (·.insert m type) }, true) := by
  obtain ⟨⟨e₀, he₀, houtput⟩, e₁, he₁, hinput⟩ := henabled
  obtain rfl := Option.some.inj (he₀.symm.trans he)
  obtain rfl := Option.some.inj (he₁.symm.trans he')
  rw [edgeExec, if_pos ⟨OrderedMap.contains_iff.mpr houtput, OrderedMap.contains_iff.mpr hinput⟩]

theorem edgeExec_eq_self {n m : Address} {e e' : ExecNode F} {type : TypeId}
    (he : h.exec? n = some e) (he' : h.exec? m = some e')
    (hnot : ¬ (Insertion.edge n m type).Enabled h) : edgeExec h n e m e' type = (h, false) := by
  rw [edgeExec, if_neg]
  rintro ⟨houtput, hinput⟩
  exact hnot ⟨⟨e, he, OrderedMap.contains_iff.mp houtput⟩, e', he',
    OrderedMap.contains_iff.mp hinput⟩

/-- The heap after a call for executable nodes. -/
theorem put_input {g n : Address} {gr : Graph} {e : ExecNode F} (hgr : h.graph? g = some gr)
    (he : h.exec? n = some e) (type : TypeId) :
    put h (.input g type n) = (addInputExec h g gr n e type).1 := by
  rw [put, hgr, he]

theorem put_output {g n : Address} {gr : Graph} {e : ExecNode F} (hgr : h.graph? g = some gr)
    (he : h.exec? n = some e) (type : TypeId) :
    put h (.output g type n) = (addOutputExec h g gr n e type).1 := by
  rw [put, hgr, he]

theorem put_edge {n m : Address} {e e' : ExecNode F} (he : h.exec? n = some e)
    (he' : h.exec? m = some e') (type : TypeId) :
    put h (.edge n m type) = (edgeExec h n e m e' type).1 := by
  rw [put, he, he']

/-- An insertion that the code refuses does nothing. -/
theorem put_eq_self {i : Insertion} (hnot : ¬ i.Enabled h) : put h i = h := by
  cases i with
  | inputKey g type =>
    rw [put]
    split
    · next gr hgr => exact absurd ⟨gr, hgr⟩ hnot
    · rfl
  | outputKey g type =>
    rw [put]
    split
    · next gr hgr => exact absurd ⟨gr, hgr⟩ hnot
    · rfl
  | input g type n =>
    rw [put]
    split
    · next gr e hgr he => rw [addInputExec_eq_self hgr he hnot]
    · rfl
  | output g type n =>
    rw [put]
    split
    · next gr e hgr he => rw [addOutputExec_eq_self hgr he hnot]
    · rfl
  | edge n m type =>
    rw [put]
    split
    · next e e' he he' => rw [edgeExec_eq_self he he' hnot]
    · rfl

/-- The write of an insertion. -/
inductive Written (h : Heap F) : Insertion → Heap F → Prop
  | inputKey {g : Address} {gr : Graph} (type : TypeId) : h.graph? g = some gr →
      Written h (.inputKey g type)
        (h.setGraph g { gr with inputs := gr.inputs.insert type .empty })
  | outputKey {g : Address} {gr : Graph} (type : TypeId) : h.graph? g = some gr →
      Written h (.outputKey g type)
        (h.setGraph g { gr with outputs := gr.outputs.insert type .empty })
  | input {g n : Address} {gr : Graph} {type : TypeId} : h.graph? g = some gr →
      type ∈ gr.inputs.keys → HasInput h type n →
      Written h (.input g type n)
        (h.setGraph g { gr with inputs := gr.inputs.modify type (·.insert n) })
  | output {g n : Address} {gr : Graph} {e : ExecNode F} {type : TypeId} :
      h.graph? g = some gr → type ∈ gr.outputs.keys → h.exec? n = some e →
      type ∈ e.outputs.keys →
      Written h (.output g type n)
        ((h.setGraph g { gr with outputs := gr.outputs.modify type (·.insert n) }).setExec n
          { e with sink := some g })
  | edge {n m : Address} {e : ExecNode F} {type : TypeId} : h.exec? n = some e →
      type ∈ e.outputs.keys → HasInput h type m →
      Written h (.edge n m type)
        (h.setExec n { e with outputs := e.outputs.modify type (·.insert m type) })

/-- **An insertion that the code makes.** -/
theorem written_put {i : Insertion} (henabled : i.Enabled h) : Written h i (put h i) := by
  cases i with
  | inputKey g type =>
    obtain ⟨gr, hgr⟩ := henabled
    rw [put, hgr]
    exact .inputKey type hgr
  | outputKey g type =>
    obtain ⟨gr, hgr⟩ := henabled
    rw [put, hgr]
    exact .outputKey type hgr
  | input g type n =>
    obtain ⟨⟨gr, hgr, hdeclared⟩, e, he, hinput⟩ := henabled
    rw [put_input hgr he, addInputExec_eq hgr he ⟨⟨gr, hgr, hdeclared⟩, e, he, hinput⟩]
    exact .input hgr hdeclared ⟨e, he, hinput⟩
  | output g type n =>
    obtain ⟨⟨gr, hgr, hdeclared⟩, e, he, houtput⟩ := henabled
    rw [put_output hgr he, addOutputExec_eq hgr he ⟨⟨gr, hgr, hdeclared⟩, e, he, houtput⟩]
    exact .output hgr hdeclared he houtput
  | edge n m type =>
    obtain ⟨⟨e, he, houtput⟩, e', he', hinput⟩ := henabled
    rw [put_edge he he', edgeExec_eq he he' ⟨⟨e, he, houtput⟩, e', he', hinput⟩]
    exact .edge he houtput ⟨e', he', hinput⟩

/-- The edits of an insertion. -/
theorem edits_put (h : Heap F) (i : Insertion) : Edits h (put h i) := by
  by_cases henabled : i.Enabled h
  · have hwritten := written_put henabled
    generalize put h i = h' at hwritten ⊢
    cases hwritten with
    | inputKey type hgr => exact .single (.inputKey _ _ type hgr)
    | outputKey type hgr => exact .single (.outputKey _ _ type hgr)
    | input hgr hdeclared hinput =>
      obtain ⟨e, he, htype⟩ := hinput
      exact .single (.input _ _ _ e _ hgr he htype)
    | output hgr hdeclared he houtput =>
      refine .tail (.single (.output _ _ _ _ _ hgr he houtput)) ?_
      refine .sink _ _ _ _ _ Heap.graph?_setGraph_self ?_
        (mem_nodesOf_modify.mpr (Or.inr ⟨rfl, rfl, hdeclared⟩))
      rw [Heap.exec?_setGraph (Heap.exec?_of_graph? hgr)]
      exact he
    | edge he houtput hinput =>
      obtain ⟨e', he', htype⟩ := hinput
      exact .single (.edge _ _ _ e' _ he he' htype)
  · rw [put_eq_self henabled]

/-! ## The objects after an insertion -/

/-- What an insertion does to a graph. -/
structure GraphPut (h : Heap F) (i : Insertion) (g : Address) (gr gr' : Graph) : Prop where
  inputKeys : ∀ type, type ∈ gr'.inputs.keys ↔ type ∈ gr.inputs.keys ∨ i = .inputKey g type
  outputKeys : ∀ type, type ∈ gr'.outputs.keys ↔ type ∈ gr.outputs.keys ∨ i = .outputKey g type
  inputs : ∀ type n, n ∈ nodesOf gr'.inputs type ↔
    n ∈ nodesOf gr.inputs type ∨ i = .input g type n ∧ i.Enabled h
  outputs : ∀ type n, n ∈ nodesOf gr'.outputs type ↔
    n ∈ nodesOf gr.outputs type ∨ i = .output g type n ∧ i.Enabled h

/-- What an insertion does to an executable node. -/
structure ExecPut (h : Heap F) (i : Insertion) (n : Address) (e e' : ExecNode F) : Prop where
  inputKeys : e'.inputs.keys = e.inputs.keys
  outputKeys : e'.outputs.keys = e.outputs.keys
  sink : ∀ g, e'.sink = some g ↔
    (∃ type, i = .output g type n ∧ i.Enabled h) ∨
      (∀ g' type, ¬ (i = .output g' type n ∧ i.Enabled h)) ∧ e.sink = some g
  edges : ∀ type m, (∃ output, e'.outputs.find? type = some output ∧ m ∈ output.nodes) ↔
    (∃ output, e.outputs.find? type = some output ∧ m ∈ output.nodes) ∨
      i = .edge n m type ∧ i.Enabled h

/-- An insertion elsewhere. -/
theorem GraphPut.refl {i : Insertion} {g : Address} {gr : Graph}
    (hkeys : ∀ type, i ≠ .inputKey g type ∧ i ≠ .outputKey g type)
    (hnodes : ∀ type n, i ≠ .input g type n ∧ i ≠ .output g type n) : GraphPut h i g gr gr where
  inputKeys type := (or_iff_left (hkeys type).1).symm
  outputKeys type := (or_iff_left (hkeys type).2).symm
  inputs type n := (or_iff_left fun hand => (hnodes type n).1 hand.1).symm
  outputs type n := (or_iff_left fun hand => (hnodes type n).2 hand.1).symm

theorem GraphPut.refl_of_not_enabled {i : Insertion} {g : Address} {gr : Graph}
    (hgr : h.graph? g = some gr) (hnot : ¬ i.Enabled h) : GraphPut h i g gr gr where
  inputKeys type := by
    refine (or_iff_left ?_).symm
    rintro rfl
    exact hnot ⟨gr, hgr⟩
  outputKeys type := by
    refine (or_iff_left ?_).symm
    rintro rfl
    exact hnot ⟨gr, hgr⟩
  inputs type n := (or_iff_left fun hand => hnot hand.2).symm
  outputs type n := (or_iff_left fun hand => hnot hand.2).symm

theorem ExecPut.refl {i : Insertion} {n : Address} {e : ExecNode F}
    (hsink : ∀ g type, ¬ (i = .output g type n ∧ i.Enabled h))
    (hedge : ∀ m type, ¬ (i = .edge n m type ∧ i.Enabled h)) : ExecPut h i n e e where
  inputKeys := rfl
  outputKeys := rfl
  sink g := by
    constructor
    · exact fun hg => Or.inr ⟨hsink, hg⟩
    · rintro (⟨type, hand⟩ | ⟨-, hg⟩)
      · exact absurd hand (hsink g type)
      · exact hg
  edges type m := (or_iff_left (hedge m type)).symm

theorem keys_insert {V : Type*} (map : OrderedMap TypeId V) (type type' : TypeId) (v : V) :
    type' ∈ (map.insert type v).keys ↔ type' ∈ map.keys ∨ type' = type := by
  rw [OrderedMap.insert, OrderedSet.mem_insert]
  exact or_comm

/-- **A graph after an insertion.** -/
theorem graph?_put {g : Address} {gr : Graph} (hgr : h.graph? g = some gr) (i : Insertion) :
    ∃ gr', (put h i).graph? g = some gr' ∧ GraphPut h i g gr gr' := by
  by_cases henabled : i.Enabled h
  · have hwritten := written_put henabled
    generalize put h i = h' at hwritten ⊢
    cases hwritten with
    | @inputKey g₀ gr₀ type hgr₀ =>
      by_cases hg : g = g₀
      · subst hg
        obtain rfl := Option.some.inj (hgr.symm.trans hgr₀)
        refine ⟨_, Heap.graph?_setGraph_self, ?_⟩
        constructor
        · intro type'
          simp only [keys_insert, Insertion.inputKey.injEq, true_and, eq_comm]
        · simp
        · simp [nodesOf_insert]
        · simp
      · refine ⟨gr, (Heap.graph?_setGraph_of_ne hg).trans hgr, .refl ?_ ?_⟩
        · intro type'
          simp [Ne.symm hg]
        · simp
    | @outputKey g₀ gr₀ type hgr₀ =>
      by_cases hg : g = g₀
      · subst hg
        obtain rfl := Option.some.inj (hgr.symm.trans hgr₀)
        refine ⟨_, Heap.graph?_setGraph_self, ?_⟩
        constructor
        · simp
        · intro type'
          simp only [keys_insert, Insertion.outputKey.injEq, true_and, eq_comm]
        · simp
        · simp [nodesOf_insert]
      · refine ⟨gr, (Heap.graph?_setGraph_of_ne hg).trans hgr, .refl ?_ ?_⟩
        · intro type'
          simp [Ne.symm hg]
        · simp
    | @input g₀ n gr₀ type hgr₀ hdeclared hinput =>
      by_cases hg : g = g₀
      · subst hg
        obtain rfl := Option.some.inj (hgr.symm.trans hgr₀)
        refine ⟨_, Heap.graph?_setGraph_self, ?_⟩
        constructor
        · simp [OrderedMap.modify]
        · simp
        · intro type' m
          rw [mem_nodesOf_modify]
          constructor
          · rintro (hm | ⟨rfl, rfl, -⟩)
            · exact Or.inl hm
            · exact Or.inr ⟨rfl, henabled⟩
          · rintro (hm | ⟨heq, -⟩)
            · exact Or.inl hm
            · obtain ⟨-, rfl, rfl⟩ := Insertion.input.inj heq
              exact Or.inr ⟨rfl, rfl, hdeclared⟩
        · simp
      · refine ⟨gr, (Heap.graph?_setGraph_of_ne hg).trans hgr, .refl ?_ ?_⟩
        · simp
        · intro type' m
          simp [Ne.symm hg]
    | @output g₀ n gr₀ e type hgr₀ hdeclared he houtput =>
      have hexec : (h.setGraph g₀ { gr₀ with
          outputs := gr₀.outputs.modify type (·.insert n) }).graph? n = none := by
        refine Heap.graph?_of_exec? (e := e) ?_
        rw [Heap.exec?_setGraph (Heap.exec?_of_graph? hgr₀)]
        exact he
      by_cases hg : g = g₀
      · subst hg
        obtain rfl := Option.some.inj (hgr.symm.trans hgr₀)
        refine ⟨_, (Heap.graph?_setExec hexec).trans Heap.graph?_setGraph_self, ?_⟩
        constructor
        · simp
        · simp [OrderedMap.modify]
        · simp
        · intro type' m
          rw [mem_nodesOf_modify]
          constructor
          · rintro (hm | ⟨rfl, rfl, -⟩)
            · exact Or.inl hm
            · exact Or.inr ⟨rfl, henabled⟩
          · rintro (hm | ⟨heq, -⟩)
            · exact Or.inl hm
            · obtain ⟨-, rfl, rfl⟩ := Insertion.output.inj heq
              exact Or.inr ⟨rfl, rfl, hdeclared⟩
      · refine ⟨gr, ?_, .refl ?_ ?_⟩
        · rw [Heap.graph?_setExec hexec, Heap.graph?_setGraph_of_ne hg]
          exact hgr
        · simp
        · intro type' m
          simp [Ne.symm hg]
    | edge he houtput hinput =>
      refine ⟨gr, (Heap.graph?_setExec (Heap.graph?_of_exec? he)).trans hgr, .refl ?_ ?_⟩
      · simp
      · simp
  · rw [put_eq_self henabled]
    exact ⟨gr, hgr, .refl_of_not_enabled hgr henabled⟩

/-- **An executable node after an insertion.** -/
theorem exec?_put {n : Address} {e : ExecNode F} (he : h.exec? n = some e) (i : Insertion) :
    ∃ e', (put h i).exec? n = some e' ∧ ExecPut h i n e e' := by
  by_cases henabled : i.Enabled h
  · have hwritten := written_put henabled
    generalize put h i = h' at hwritten ⊢
    cases hwritten with
    | inputKey type hgr | outputKey type hgr | input hgr hdeclared hinput =>
      refine ⟨e, (Heap.exec?_setGraph (Heap.exec?_of_graph? hgr)).trans he, .refl ?_ ?_⟩
      · simp
      · simp
    | @output g n₀ gr e₀ type hgr hdeclared he₀ houtput =>
      by_cases hn : n = n₀
      · subst hn
        obtain rfl := Option.some.inj (he.symm.trans he₀)
        refine ⟨_, Heap.exec?_setExec_self, ⟨rfl, rfl, ?_, ?_⟩⟩
        · intro g'
          constructor
          · intro hg'
            obtain rfl := Option.some.inj hg'
            exact Or.inl ⟨type, rfl, henabled⟩
          · rintro (⟨type', heq, -⟩ | ⟨hnot, -⟩)
            · rw [(Insertion.output.inj heq).1]
            · exact absurd ⟨rfl, henabled⟩ (hnot g type)
        · simp
      · refine ⟨e, ?_, .refl ?_ ?_⟩
        · rw [Heap.exec?_setExec_of_ne hn, Heap.exec?_setGraph (Heap.exec?_of_graph? hgr)]
          exact he
        · rintro g' type' ⟨heq, -⟩
          exact hn (Insertion.output.inj heq).2.2.symm
        · simp
    | @edge n₀ m e₀ type he₀ houtput hinput =>
      by_cases hn : n = n₀
      · subst hn
        obtain rfl := Option.some.inj (he.symm.trans he₀)
        refine ⟨_, Heap.exec?_setExec_self, ⟨rfl, rfl, ?_, ?_⟩⟩
        · simp
        · intro type' m'
          obtain ⟨output, hfind⟩ := OrderedMap.exists_find? houtput
          by_cases htype : type' = type
          · subst htype
            simp only [OrderedMap.find?_modify_self, hfind, Option.map_some, Option.some.injEq,
              exists_eq_left', ExecNodeOutput.insert, Finset.mem_insert, Insertion.edge.injEq,
              true_and, and_true, henabled]
            rw [or_comm, eq_comm]
          · simp only [OrderedMap.find?_modify_of_ne _ _ htype, Insertion.edge.injEq]
            exact (or_iff_left fun hand => htype hand.1.2.2.symm).symm
      · refine ⟨e, (Heap.exec?_setExec_of_ne hn).trans he, .refl ?_ ?_⟩
        · simp
        · rintro m' type' ⟨heq, -⟩
          exact hn (Insertion.edge.inj heq).1.symm
  · rw [put_eq_self henabled]
    exact ⟨e, he, .refl (fun _ _ hand => henabled hand.2) fun _ _ hand => henabled hand.2⟩

/-- No insertion makes a node. -/
theorem exec?_put_eq_none {n : Address} (hn : h.exec? n = none) (i : Insertion) :
    (put h i).exec? n = none := by
  by_cases henabled : i.Enabled h
  · have hwritten := written_put henabled
    generalize put h i = h' at hwritten ⊢
    have hne : ∀ {m : Address} {e : ExecNode F}, h.exec? m = some e → n ≠ m := by
      rintro m e he rfl
      rw [hn] at he
      cases he
    cases hwritten with
    | inputKey type hgr | outputKey type hgr | input hgr _ _ =>
      exact (Heap.exec?_setGraph (Heap.exec?_of_graph? hgr)).trans hn
    | output hgr _ he _ =>
      rw [Heap.exec?_setExec_of_ne (hne he), Heap.exec?_setGraph (Heap.exec?_of_graph? hgr)]
      exact hn
    | edge he _ _ => exact (Heap.exec?_setExec_of_ne (hne he)).trans hn
  · rw [put_eq_self henabled]
    exact hn

/-- No insertion makes a graph. -/
theorem graph?_put_eq_none {g : Address} (hg : h.graph? g = none) (i : Insertion) :
    (put h i).graph? g = none := by
  by_cases henabled : i.Enabled h
  · have hwritten := written_put henabled
    generalize put h i = h' at hwritten ⊢
    have hne : ∀ {g' : Address} {gr : Graph}, h.graph? g' = some gr → g ≠ g' := by
      rintro g' gr hgr rfl
      rw [hg] at hgr
      cases hgr
    cases hwritten with
    | inputKey type hgr | outputKey type hgr | input hgr _ _ =>
      exact (Heap.graph?_setGraph_of_ne (hne hgr)).trans hg
    | @output g₀ n gr e type hgr _ he _ =>
      have hexec : (h.setGraph g₀ { gr with
          outputs := gr.outputs.modify type (·.insert n) }).graph? n = none := by
        refine Heap.graph?_of_exec? (e := e) ?_
        rw [Heap.exec?_setGraph (Heap.exec?_of_graph? hgr)]
        exact he
      rw [Heap.graph?_setExec hexec, Heap.graph?_setGraph_of_ne (hne hgr)]
      exact hg
    | edge he _ _ => exact (Heap.graph?_setExec (Heap.graph?_of_exec? he)).trans hg
  · rw [put_eq_self henabled]
    exact hg

/-- The executable nodes of the new heap are those of the old one. -/
theorem exists_exec?_put {n : Address} {i : Insertion} {P : ExecNode F → Prop} :
    (∃ e', (put h i).exec? n = some e' ∧ P e') ↔
      ∃ e e', h.exec? n = some e ∧ (put h i).exec? n = some e' ∧ ExecPut h i n e e' ∧ P e' := by
  constructor
  · rintro ⟨e', he', hP⟩
    cases he : h.exec? n with
    | none =>
      rw [exec?_put_eq_none he] at he'
      cases he'
    | some e =>
      obtain ⟨e'', he'', hput⟩ := exec?_put he i
      obtain rfl := Option.some.inj (he''.symm.trans he')
      exact ⟨e, e'', rfl, he', hput, hP⟩
  · rintro ⟨e, e', -, he', -, hP⟩
    exact ⟨e', he', hP⟩

theorem exists_graph?_put {g : Address} {i : Insertion} {P : Graph → Prop} :
    (∃ gr', (put h i).graph? g = some gr' ∧ P gr') ↔
      ∃ gr gr', h.graph? g = some gr ∧ (put h i).graph? g = some gr' ∧
        GraphPut h i g gr gr' ∧ P gr' := by
  constructor
  · rintro ⟨gr', hgr', hP⟩
    cases hgr : h.graph? g with
    | none =>
      rw [graph?_put_eq_none hgr] at hgr'
      cases hgr'
    | some gr =>
      obtain ⟨gr'', hgr'', hput⟩ := graph?_put hgr i
      obtain rfl := Option.some.inj (hgr''.symm.trans hgr')
      exact ⟨gr, gr'', rfl, hgr', hput, hP⟩
  · rintro ⟨gr, gr', -, hgr', -, hP⟩
    exact ⟨gr', hgr', hP⟩

/-! ## What is in the heap after an insertion -/

theorem hasInput_put {type : TypeId} {n : Address} (i : Insertion) :
    HasInput (put h i) type n ↔ HasInput h type n := by
  constructor
  · intro hn
    obtain ⟨e, e', he, -, hput, htype⟩ := exists_exec?_put.mp hn
    exact ⟨e, he, hput.inputKeys ▸ htype⟩
  · rintro ⟨e, he, htype⟩
    obtain ⟨e', he', hput⟩ := exec?_put he i
    exact ⟨e', he', hput.inputKeys ▸ htype⟩

theorem hasOutput_put {type : TypeId} {n : Address} (i : Insertion) :
    HasOutput (put h i) type n ↔ HasOutput h type n := by
  constructor
  · intro hn
    obtain ⟨e, e', he, -, hput, htype⟩ := exists_exec?_put.mp hn
    exact ⟨e, he, hput.outputKeys ▸ htype⟩
  · rintro ⟨e, he, htype⟩
    obtain ⟨e', he', hput⟩ := exec?_put he i
    exact ⟨e', he', hput.outputKeys ▸ htype⟩

theorem isSome_graph?_put {g : Address} (i : Insertion) :
    ((put h i).graph? g).isSome = (h.graph? g).isSome := by
  cases hgr : h.graph? g with
  | none => rw [graph?_put_eq_none hgr]
  | some gr =>
    obtain ⟨gr', hgr', -⟩ := graph?_put hgr i
    rw [hgr']
    rfl

theorem inputType_put {g : Address} {type : TypeId} (i : Insertion) :
    InputType (put h i) g type ↔
      InputType h g type ∨ i = .inputKey g type ∧ (h.graph? g).isSome := by
  constructor
  · intro htype
    obtain ⟨gr, gr', hgr, -, hput, htype⟩ := exists_graph?_put.mp htype
    rcases (hput.inputKeys type).mp htype with hold | hnew
    · exact Or.inl ⟨gr, hgr, hold⟩
    · exact Or.inr ⟨hnew, Option.isSome_iff_exists.mpr ⟨gr, hgr⟩⟩
  · rintro (⟨gr, hgr, htype⟩ | ⟨hnew, hsome⟩)
    · obtain ⟨gr', hgr', hput⟩ := graph?_put hgr i
      exact ⟨gr', hgr', (hput.inputKeys type).mpr (Or.inl htype)⟩
    · obtain ⟨gr, hgr⟩ := Option.isSome_iff_exists.mp hsome
      obtain ⟨gr', hgr', hput⟩ := graph?_put hgr i
      exact ⟨gr', hgr', (hput.inputKeys type).mpr (Or.inr hnew)⟩

theorem outputType_put {g : Address} {type : TypeId} (i : Insertion) :
    OutputType (put h i) g type ↔
      OutputType h g type ∨ i = .outputKey g type ∧ (h.graph? g).isSome := by
  constructor
  · intro htype
    obtain ⟨gr, gr', hgr, -, hput, htype⟩ := exists_graph?_put.mp htype
    rcases (hput.outputKeys type).mp htype with hold | hnew
    · exact Or.inl ⟨gr, hgr, hold⟩
    · exact Or.inr ⟨hnew, Option.isSome_iff_exists.mpr ⟨gr, hgr⟩⟩
  · rintro (⟨gr, hgr, htype⟩ | ⟨hnew, hsome⟩)
    · obtain ⟨gr', hgr', hput⟩ := graph?_put hgr i
      exact ⟨gr', hgr', (hput.outputKeys type).mpr (Or.inl htype)⟩
    · obtain ⟨gr, hgr⟩ := Option.isSome_iff_exists.mp hsome
      obtain ⟨gr', hgr', hput⟩ := graph?_put hgr i
      exact ⟨gr', hgr', (hput.outputKeys type).mpr (Or.inr hnew)⟩

theorem connected_put {type : TypeId} {n m : Address} (i : Insertion) :
    Connected (put h i) type n m ↔
      Connected h type n m ∨ i = .edge n m type ∧ HasOutput h type n ∧ HasInput h type m := by
  have hflat : ∀ h' : Heap F, Connected h' type n m ↔ ∃ e, h'.exec? n = some e ∧
      ∃ output, e.outputs.find? type = some output ∧ m ∈ output.nodes := fun h' =>
    exists_congr fun e => ⟨fun ⟨output, he, hrest⟩ => ⟨he, output, hrest⟩,
      fun ⟨he, output, hrest⟩ => ⟨output, he, hrest⟩⟩
  rw [hflat, hflat]
  constructor
  · intro hconnected
    obtain ⟨e, e', he, -, hput, hedge⟩ := exists_exec?_put.mp hconnected
    rcases (hput.edges type m).mp hedge with hold | ⟨rfl, henabled⟩
    · exact Or.inl ⟨e, he, hold⟩
    · exact Or.inr ⟨rfl, henabled⟩
  · rintro (⟨e, he, hedge⟩ | ⟨rfl, henabled⟩)
    · obtain ⟨e', he', hput⟩ := exec?_put he i
      exact ⟨e', he', (hput.edges type m).mpr (Or.inl hedge)⟩
    · obtain ⟨e, he, -⟩ := henabled.1
      obtain ⟨e', he', hput⟩ := exec?_put he (.edge n m type)
      exact ⟨e', he', (hput.edges type m).mpr (Or.inr ⟨rfl, henabled⟩)⟩

theorem declaredInput_put {g : Address} {type : TypeId} {n : Address} (i : Insertion) :
    DeclaredInput (put h i) g type n ↔
      DeclaredInput h g type n ∨ i = .input g type n ∧ InputType h g type ∧ HasInput h type n := by
  constructor
  · intro hn
    obtain ⟨gr, gr', hgr, -, hput, hn⟩ := exists_graph?_put.mp hn
    rcases (hput.inputs type n).mp hn with hold | ⟨rfl, henabled⟩
    · exact Or.inl ⟨gr, hgr, hold⟩
    · exact Or.inr ⟨rfl, henabled⟩
  · rintro (⟨gr, hgr, hn⟩ | ⟨rfl, henabled⟩)
    · obtain ⟨gr', hgr', hput⟩ := graph?_put hgr i
      exact ⟨gr', hgr', (hput.inputs type n).mpr (Or.inl hn)⟩
    · obtain ⟨gr, hgr, -⟩ := henabled.1
      obtain ⟨gr', hgr', hput⟩ := graph?_put hgr (.input g type n)
      exact ⟨gr', hgr', (hput.inputs type n).mpr (Or.inr ⟨rfl, henabled⟩)⟩

theorem declaredOutput_put {g : Address} {type : TypeId} {n : Address} (i : Insertion) :
    DeclaredOutput (put h i) g type n ↔ DeclaredOutput h g type n ∨
      i = .output g type n ∧ OutputType h g type ∧ HasOutput h type n := by
  constructor
  · intro hn
    obtain ⟨gr, gr', hgr, -, hput, hn⟩ := exists_graph?_put.mp hn
    rcases (hput.outputs type n).mp hn with hold | ⟨rfl, henabled⟩
    · exact Or.inl ⟨gr, hgr, hold⟩
    · exact Or.inr ⟨rfl, henabled⟩
  · rintro (⟨gr, hgr, hn⟩ | ⟨rfl, henabled⟩)
    · obtain ⟨gr', hgr', hput⟩ := graph?_put hgr i
      exact ⟨gr', hgr', (hput.outputs type n).mpr (Or.inl hn)⟩
    · obtain ⟨gr, hgr, -⟩ := henabled.1
      obtain ⟨gr', hgr', hput⟩ := graph?_put hgr (.output g type n)
      exact ⟨gr', hgr', (hput.outputs type n).mpr (Or.inr ⟨rfl, henabled⟩)⟩

theorem sinkOf_put {n g : Address} (i : Insertion) : sinkOf (put h i) n = some g ↔
    (∃ type, i = .output g type n ∧ OutputType h g type ∧ HasOutput h type n) ∨
      (∀ g' type, ¬ (i = .output g' type n ∧ OutputType h g' type ∧ HasOutput h type n)) ∧
        sinkOf h n = some g := by
  have hout : ∀ g' type, (i = .output g' type n ∧ i.Enabled h ↔
      i = .output g' type n ∧ OutputType h g' type ∧ HasOutput h type n) := by
    intro g' type
    constructor <;> rintro ⟨rfl, henabled⟩ <;> exact ⟨rfl, henabled⟩
  rw [sinkOf, sinkOf]
  cases he : h.exec? n with
  | none =>
    rw [exec?_put_eq_none he]
    constructor
    · intro hnone
      cases hnone
    · rintro (⟨type, -, -, e, he', -⟩ | ⟨-, hnone⟩)
      · rw [he] at he'
        cases he'
      · cases hnone
  | some e =>
    obtain ⟨e', he', hput⟩ := exec?_put he i
    rw [he', Option.bind_some, Option.bind_some, hput.sink g]
    simp only [hout]

/-! ## Lists of insertions -/

@[simp] theorem putAll_nil (h : Heap F) : putAll h [] = h := rfl

@[simp] theorem putAll_cons (h : Heap F) (i : Insertion) (l : List Insertion) :
    putAll h (i :: l) = putAll (put h i) l := rfl

theorem putAll_append (h : Heap F) (l l' : List Insertion) :
    putAll h (l ++ l') = putAll (putAll h l) l' :=
  List.foldl_append

/-- What one insertion preserves, a list of them does. -/
theorem putAll_invariant {I : Heap F → Prop} {l : List Insertion}
    (hput : ∀ h, I h → ∀ i ∈ l, I (put h i)) (hI : I h) : I (putAll h l) := by
  induction l generalizing h with
  | nil => exact hI
  | cons i l ih =>
    exact ih (fun h hI j hj => hput h hI j (List.mem_cons_of_mem _ hj))
      (hput h hI i List.mem_cons_self)

theorem WellFormed.putAll (hW : WellFormed h) (l : List Insertion) : WellFormed (putAll h l) := by
  refine putAll_invariant (fun h hW i _ => ?_) hW
  have hedits := edits_put h i
  generalize put h i = h' at hedits ⊢
  induction hedits with
  | refl => exact hW
  | tail _ hlast ih => exact ih.of_edit hlast

/-- **What a list of insertions adds.**  `P` becomes true by the insertion `i₀` alone, made where
`ok` holds, and no insertion of the list touches `ok`. -/
theorem putAll_adds {P ok : Heap F → Prop} {i₀ : Insertion} {l : List Insertion}
    (hput : ∀ h, ∀ i ∈ l, (P (put h i) ↔ P h ∨ i = i₀ ∧ ok h))
    (hok : ∀ h, ∀ i ∈ l, (ok (put h i) ↔ ok h)) : P (putAll h l) ↔ P h ∨ i₀ ∈ l ∧ ok h := by
  induction l generalizing h with
  | nil => simp
  | cons i l ih =>
    rw [putAll_cons, ih (fun h j hj => hput h j (List.mem_cons_of_mem _ hj))
      (fun h j hj => hok h j (List.mem_cons_of_mem _ hj)), hput h i List.mem_cons_self,
      hok h i List.mem_cons_self, List.mem_cons]
    constructor
    · rintro ((hP | ⟨rfl, hmade⟩) | ⟨hmem, hmade⟩)
      · exact Or.inl hP
      · exact Or.inr ⟨Or.inl rfl, hmade⟩
      · exact Or.inr ⟨Or.inr hmem, hmade⟩
    · rintro (hP | ⟨rfl | hmem, hmade⟩)
      · exact Or.inl (Or.inl hP)
      · exact Or.inl (Or.inr ⟨rfl, hmade⟩)
      · exact Or.inr ⟨hmem, hmade⟩

theorem hasInput_putAll {type : TypeId} {n : Address} (l : List Insertion) :
    HasInput (putAll h l) type n ↔ HasInput h type n := by
  induction l generalizing h with
  | nil => rfl
  | cons i l ih => exact ih.trans (hasInput_put i)

theorem hasOutput_putAll {type : TypeId} {n : Address} (l : List Insertion) :
    HasOutput (putAll h l) type n ↔ HasOutput h type n := by
  induction l generalizing h with
  | nil => rfl
  | cons i l ih => exact ih.trans (hasOutput_put i)

theorem isSome_graph?_putAll {g : Address} (l : List Insertion) :
    ((putAll h l).graph? g).isSome = (h.graph? g).isSome := by
  induction l generalizing h with
  | nil => rfl
  | cons i l ih => exact ih.trans (isSome_graph?_put i)

theorem inputType_putAll {g : Address} {type : TypeId} (l : List Insertion) :
    InputType (putAll h l) g type ↔
      InputType h g type ∨ .inputKey g type ∈ l ∧ (h.graph? g).isSome :=
  putAll_adds (P := fun h => InputType h g type) (fun _ i _ => inputType_put i)
    fun h i _ => by rw [isSome_graph?_put]

theorem outputType_putAll {g : Address} {type : TypeId} (l : List Insertion) :
    OutputType (putAll h l) g type ↔
      OutputType h g type ∨ .outputKey g type ∈ l ∧ (h.graph? g).isSome :=
  putAll_adds (P := fun h => OutputType h g type) (fun _ i _ => outputType_put i)
    fun h i _ => by rw [isSome_graph?_put]

/-- **The edges** after a list of insertions. -/
theorem connected_putAll {type : TypeId} {n m : Address} (l : List Insertion) :
    Connected (putAll h l) type n m ↔ Connected h type n m ∨
      .edge n m type ∈ l ∧ HasOutput h type n ∧ HasInput h type m :=
  putAll_adds (P := fun h => Connected h type n m) (fun _ i _ => connected_put i)
    fun h i _ => by rw [hasOutput_put, hasInput_put]

/-- **The inputs of the graphs** after a list of insertions that declares no type. -/
theorem declaredInput_putAll {g : Address} {type : TypeId} {n : Address} {l : List Insertion}
    (hkey : .inputKey g type ∉ l) : DeclaredInput (putAll h l) g type n ↔
      DeclaredInput h g type n ∨
        .input g type n ∈ l ∧ InputType h g type ∧ HasInput h type n := by
  refine putAll_adds (P := fun h => DeclaredInput h g type n) (fun _ i _ => declaredInput_put i)
    fun h i hi => ?_
  have hne : i ≠ .inputKey g type := by
    rintro rfl
    exact hkey hi
  rw [inputType_put, hasInput_put, or_iff_left fun hand => hne hand.1]

/-- **The outputs of the graphs** after a list of insertions that declares no type. -/
theorem declaredOutput_putAll {g : Address} {type : TypeId} {n : Address} {l : List Insertion}
    (hkey : .outputKey g type ∉ l) : DeclaredOutput (putAll h l) g type n ↔
      DeclaredOutput h g type n ∨
        .output g type n ∈ l ∧ OutputType h g type ∧ HasOutput h type n := by
  refine putAll_adds (P := fun h => DeclaredOutput h g type n) (fun _ i _ => declaredOutput_put i)
    fun h i hi => ?_
  have hne : i ≠ .outputKey g type := by
    rintro rfl
    exact hkey hi
  rw [outputType_put, hasOutput_put, or_iff_left fun hand => hne hand.1]

/-- **The sinks** after outputs of one graph were registered. -/
theorem sinkOf_putAll {g : Address} {l : List Insertion}
    (hl : ∀ i ∈ l, ∃ type n, i = .output g type n) (n g' : Address) :
    sinkOf (putAll h l) n = some g' ↔
      (g' = g ∧ ∃ type, .output g type n ∈ l ∧ OutputType h g type ∧ HasOutput h type n) ∨
        (¬ ∃ type, .output g type n ∈ l ∧ OutputType h g type ∧ HasOutput h type n) ∧
          sinkOf h n = some g' := by
  induction l generalizing h with
  | nil => simp
  | cons i l ih =>
    obtain ⟨type₀, n₀, rfl⟩ := hl i List.mem_cons_self
    have hok : ∀ type, (OutputType (put h (.output g type₀ n₀)) g type ∧
        HasOutput (put h (.output g type₀ n₀)) type n ↔
        OutputType h g type ∧ HasOutput h type n) := fun type => by
      rw [outputType_put, hasOutput_put, or_iff_left fun hand => Insertion.noConfusion hand.1]
    rw [putAll_cons, ih fun j hj => hl j (List.mem_cons_of_mem _ hj)]
    simp only [hok, List.mem_cons, sinkOf_put, Insertion.output.injEq]
    grind

end Builder
end Dfg
end ThreadUtils
