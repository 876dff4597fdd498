import Mathlib.Data.Finset.Image
import ThreadUtils.Dfg.Builder.Edits

/-!
# The graphs that the builder makes

`GraphStep` and `ExecStep` say what an edit can do to a graph and to an executable node: the
sets of a graph only grow, by nodes with an input or an output for the type, and the keys of a
node never change.  From this the invariant `WellFormed` follows, which holds of every heap that
calls of the builder lead to.

## What is invariant

The nodes of `inputs[type]` and `outputs[type]` have the type, as have the nodes behind an edge, and
the queues of an output are those of its nodes.  A node with a sink is an output of the graph of
that sink.  A node that was created in a graph is in its list, and the nodes of the list were
created there or are graphs.  One property that one would expect is missing, because it is false: a
node of `outputs[type]` need not have the sink of the graph.

The nodes that are declared as inputs or outputs of a graph are always executable, although the
code is prepared for graphs there.

## How it is kept

Between the calls and the invariant stand the edits.  A call is a sequence of them, whatever it goes
through, and each comes with the tests that the code has made.  Every field of `WellFormed` speaks
of one graph or of one node and of what it points to, so it follows from what the edit does to that
object and from the fact that an object stays what it is (`Edit.exists_exec`, `Edit.exists_graph`).
-/

namespace ThreadUtils
namespace Dfg
namespace Builder

variable {F : Type*} {h h' : Heap F}

/-! ## What an edit does to an object -/

/-- What an edit does to a graph. -/
structure GraphStep (h h' : Heap F) (g : Address) (gr gr' : Graph) : Prop where
  inputs : ∀ type, ∀ n ∈ nodesOf gr'.inputs type, n ∈ nodesOf gr.inputs type ∨
    ∃ e, h.exec? n = some e ∧ type ∈ e.inputs.keys
  outputs : ∀ type, ∀ n ∈ nodesOf gr'.outputs type, n ∈ nodesOf gr.outputs type ∨
    ∃ e, h.exec? n = some e ∧ type ∈ e.outputs.keys
  outputs_mono : ∀ type, ∀ n ∈ nodesOf gr.outputs type, n ∈ nodesOf gr'.outputs type
  /-- A node is created in the graph, or another graph is nested in it. -/
  nodes : gr'.nodes = gr.nodes ∨ ∃ n, gr'.nodes = gr.nodes ++ [n] ∧
    ((h n = none ∧ ∃ e, h'.exec? n = some e ∧ e.graph = some g) ∨ ∃ sub, h.graph? n = some sub)

/-- What an edit does to an executable node. -/
structure ExecStep (h : Heap F) (n : Address) (e e' : ExecNode F) : Prop where
  kind : e'.kind = e.kind
  graph : e'.graph = e.graph
  group : e'.group = e.group
  maxThreadCount : e'.maxThreadCount = e.maxThreadCount
  inputs : e'.inputs.keys = e.inputs.keys
  outputs : e'.outputs.keys = e.outputs.keys
  sink : e'.sink = e.sink ∨ e'.sink = none ∨
    ∃ g gr type, e'.sink = some g ∧ h.graph? g = some gr ∧ n ∈ nodesOf gr.outputs type
  output : ∀ type output', e'.outputs.find? type = some output' →
    ∃ output, e.outputs.find? type = some output ∧ (output' = output ∨
      ∃ m e'', output' = output.insert m type ∧ h.exec? m = some e'' ∧ type ∈ e''.inputs.keys)

theorem GraphStep.refl (h h' : Heap F) (g : Address) (gr : Graph) : GraphStep h h' g gr gr where
  inputs _ _ hn := Or.inl hn
  outputs _ _ hn := Or.inl hn
  outputs_mono _ _ hn := hn
  nodes := Or.inl rfl

theorem ExecStep.refl (h : Heap F) (n : Address) (e : ExecNode F) : ExecStep h n e e where
  kind := rfl
  graph := rfl
  group := rfl
  maxThreadCount := rfl
  inputs := rfl
  outputs := rfl
  sink := Or.inl rfl
  output _ output' houtput := ⟨output', houtput, Or.inl rfl⟩

/-- A graph without nodes. -/
structure NewGraph (h : Heap F) (g : Address) (gr : Graph) : Prop where
  free : h g = none
  nodes : gr.nodes = []
  inputs : ∀ type, nodesOf gr.inputs type = []
  outputs : ∀ type, nodesOf gr.outputs type = []

/-- A node without edges. -/
structure NewNode (h h' : Heap F) (n : Address) (e : ExecNode F) : Prop where
  free : h n = none
  sink : e.sink = none
  state : e.kind = .state → e.maxThreadCount = 1
  output : ∀ type output, e.outputs.find? type = some output → output = .empty
  owner : ∀ g, e.graph = some g → ∃ gr, h'.graph? g = some gr ∧ n ∈ gr.nodes

theorem nodesOf_const (types : OrderedSet TypeId) (type : TypeId) :
    nodesOf (.const types .empty) type = [] := by
  rw [nodesOf, OrderedMap.find?_const]
  split <;> rfl

theorem newNode_makeExecBase {n : Address} {kind : NodeKind} {graph : Option Address}
    {inputTypes outputTypes : OrderedSet TypeId} {group maxThreadCount : ℕ} (hfree : h n = none)
    (hstate : kind = .state → maxThreadCount = 1)
    (howner : ∀ g, graph = some g → ∃ gr, h'.graph? g = some gr ∧ n ∈ gr.nodes) :
    NewNode h h' n
      (makeExecBase kind graph inputTypes outputTypes group maxThreadCount : ExecNode F) := by
  exact ⟨hfree, rfl, hstate, fun _ _ houtput => OrderedMap.eq_of_find?_const houtput, howner⟩

/-- **The graphs after an edit.** -/
theorem Edit.graphStep (hedit : Edit h h') {g : Address} {gr' : Graph}
    (hgr' : h'.graph? g = some gr') :
    NewGraph h g gr' ∨ ∃ gr, h.graph? g = some gr ∧ GraphStep h h' g gr gr' := by
  have hexec : ∀ {n e e'}, h.exec? n = some e → h' = h.setExec n e' →
      NewGraph h g gr' ∨ ∃ gr, h.graph? g = some gr ∧ GraphStep h h' g gr gr' := by
    rintro n e e' he rfl
    rw [Heap.graph?_setExec (Heap.graph?_of_exec? he)] at hgr'
    exact Or.inr ⟨gr', hgr', .refl _ _ _ _⟩
  have hgraph : ∀ {g₀ gr₀ gr₁}, h.graph? g₀ = some gr₀ → h' = h.setGraph g₀ gr₁ →
      GraphStep h h' g₀ gr₀ gr₁ →
      NewGraph h g gr' ∨ ∃ gr, h.graph? g = some gr ∧ GraphStep h h' g gr gr' := by
    rintro g₀ gr₀ gr₁ hgr₀ rfl hstep
    by_cases hg : g = g₀
    · subst hg
      obtain rfl := Option.some.inj (Heap.graph?_setGraph_self.symm.trans hgr')
      exact Or.inr ⟨gr₀, hgr₀, hstep⟩
    · rw [Heap.graph?_setGraph_of_ne hg] at hgr'
      exact Or.inr ⟨gr', hgr', .refl _ _ _ _⟩
  cases hedit with
  | newGraph g₀ inputTypes outputTypes hfree =>
    by_cases hg : g = g₀
    · subst hg
      obtain rfl := Option.some.inj (Heap.graph?_setGraph_self.symm.trans hgr')
      exact Or.inl ⟨hfree, rfl, nodesOf_const _, nodesOf_const _⟩
    · rw [Heap.graph?_setGraph_of_ne hg] at hgr'
      exact Or.inr ⟨gr', hgr', .refl _ _ _ _⟩
  | newNode n kind inputTypes outputTypes group maxThreadCount hfree hstate =>
    rw [Heap.graph?_setExec (Heap.graph?_of_free hfree)] at hgr'
    exact Or.inr ⟨gr', hgr', .refl _ _ _ _⟩
  | newNodeOf n g₀ gr₀ kind inputTypes outputTypes group maxThreadCount hfree hstate hgr₀ =>
    have hn : n ≠ g₀ := by
      rintro rfl
      rw [Heap.graph?_of_free hfree] at hgr₀
      cases hgr₀
    by_cases hg : g = g₀
    · subst hg
      obtain rfl := Option.some.inj (Heap.graph?_setGraph_self.symm.trans hgr')
      refine Or.inr ⟨gr₀, hgr₀, fun _ _ hm => Or.inl hm, fun _ _ hm => Or.inl hm,
        fun _ _ hm => hm, Or.inr ⟨n, rfl, Or.inl ⟨hfree,
          makeExecBase kind (some g) inputTypes outputTypes group maxThreadCount, ?_, rfl⟩⟩⟩
      rw [Heap.exec?_setGraph, Heap.exec?_setExec_self]
      rw [Heap.exec?_setExec_of_ne hn.symm]
      exact Heap.exec?_of_graph? hgr₀
    · rw [Heap.graph?_setGraph_of_ne hg, Heap.graph?_setExec (Heap.graph?_of_free hfree)] at hgr'
      exact Or.inr ⟨gr', hgr', .refl _ _ _ _⟩
  | subGraph g₀ sub gr₀ gr₁ hgr₀ hgr₁ =>
    exact hgraph hgr₀ rfl ⟨fun _ _ hm => Or.inl hm, fun _ _ hm => Or.inl hm, fun _ _ hm => hm,
      Or.inr ⟨sub, rfl, Or.inr ⟨gr₁, hgr₁⟩⟩⟩
  | clearSink n e he => exact hexec he rfl
  | exec n e type proc he => exact hexec he rfl
  | inputKey g₀ gr₀ type hgr₀ =>
    refine hgraph hgr₀ rfl ⟨fun type' n hn => ?_, fun _ _ hn => Or.inl hn, fun _ _ hn => hn,
      Or.inl rfl⟩
    rw [nodesOf_insert] at hn
    exact Or.inl hn
  | outputKey g₀ gr₀ type hgr₀ =>
    refine hgraph hgr₀ rfl ⟨fun _ _ hn => Or.inl hn, fun type' n hn => ?_, fun type' n hn => ?_,
      Or.inl rfl⟩
    · rw [nodesOf_insert] at hn
      exact Or.inl hn
    · rw [nodesOf_insert]
      exact hn
  | input g₀ n gr₀ e type hgr₀ he htype =>
    refine hgraph hgr₀ rfl ⟨fun type' m hm => ?_, fun _ _ hm => Or.inl hm, fun _ _ hm => hm,
      Or.inl rfl⟩
    rcases mem_nodesOf_modify.mp hm with hm | ⟨rfl, rfl, -⟩
    · exact Or.inl hm
    · exact Or.inr ⟨e, he, htype⟩
  | output g₀ n gr₀ e type hgr₀ he htype =>
    refine hgraph hgr₀ rfl ⟨fun _ _ hm => Or.inl hm, fun type' m hm => ?_, fun type' m hm => ?_,
      Or.inl rfl⟩
    · rcases mem_nodesOf_modify.mp hm with hm | ⟨rfl, rfl, -⟩
      · exact Or.inl hm
      · exact Or.inr ⟨e, he, htype⟩
    · exact mem_nodesOf_modify.mpr (Or.inl hm)
  | sink g₀ n gr₀ e type hgr₀ he hn => exact hexec he rfl
  | edge n m e e' type he he' htype => exact hexec he rfl

/-- **The executable nodes after an edit.** -/
theorem Edit.execStep (hedit : Edit h h') {n : Address} {e' : ExecNode F}
    (he' : h'.exec? n = some e') :
    NewNode h h' n e' ∨ ∃ e, h.exec? n = some e ∧ ExecStep h n e e' := by
  have hgraph : ∀ {g gr}, h.exec? g = none → h' = h.setGraph g gr →
      NewNode h h' n e' ∨ ∃ e, h.exec? n = some e ∧ ExecStep h n e e' := by
    rintro g gr hg rfl
    rw [Heap.exec?_setGraph hg] at he'
    exact Or.inr ⟨e', he', .refl _ _ _⟩
  have hexec : ∀ {n₀ e₀ e₁}, h.exec? n₀ = some e₀ → h' = h.setExec n₀ e₁ → ExecStep h n₀ e₀ e₁ →
      NewNode h h' n e' ∨ ∃ e, h.exec? n = some e ∧ ExecStep h n e e' := by
    rintro n₀ e₀ e₁ he₀ rfl hstep
    by_cases hn : n = n₀
    · subst hn
      obtain rfl := Option.some.inj (Heap.exec?_setExec_self.symm.trans he')
      exact Or.inr ⟨e₀, he₀, hstep⟩
    · rw [Heap.exec?_setExec_of_ne hn] at he'
      exact Or.inr ⟨e', he', .refl _ _ _⟩
  cases hedit with
  | newGraph g inputTypes outputTypes hfree => exact hgraph (Heap.exec?_of_free hfree) rfl
  | newNode n₀ kind inputTypes outputTypes group maxThreadCount hfree hstate =>
    by_cases hn : n = n₀
    · subst hn
      obtain rfl := Option.some.inj (Heap.exec?_setExec_self.symm.trans he')
      exact Or.inl (newNode_makeExecBase hfree hstate (by simp))
    · rw [Heap.exec?_setExec_of_ne hn] at he'
      exact Or.inr ⟨e', he', .refl _ _ _⟩
  | newNodeOf n₀ g gr kind inputTypes outputTypes group maxThreadCount hfree hstate hgr =>
    have hne : g ≠ n₀ := by
      rintro rfl
      rw [Heap.graph?_of_free hfree] at hgr
      cases hgr
    rw [Heap.exec?_setGraph ((Heap.exec?_setExec_of_ne hne).trans (Heap.exec?_of_graph? hgr))]
      at he'
    by_cases hn : n = n₀
    · subst hn
      obtain rfl := Option.some.inj (Heap.exec?_setExec_self.symm.trans he')
      refine Or.inl (newNode_makeExecBase hfree hstate ?_)
      rintro _ ⟨⟩
      exact ⟨_, Heap.graph?_setGraph_self, List.mem_append_right _ (List.mem_singleton.mpr rfl)⟩
    · rw [Heap.exec?_setExec_of_ne hn] at he'
      exact Or.inr ⟨e', he', .refl _ _ _⟩
  | subGraph g sub gr gr' hgr hgr' | inputKey g gr type hgr | outputKey g gr type hgr
  | input g m gr e type hgr he htype | output g m gr e type hgr he htype =>
    exact hgraph (Heap.exec?_of_graph? hgr) rfl
  | clearSink n₀ e₀ he₀ =>
    exact hexec he₀ rfl { ExecStep.refl h n₀ e₀ with sink := Or.inr (Or.inl rfl) }
  | exec n₀ e₀ type proc he₀ =>
    exact hexec he₀ rfl ⟨rfl, rfl, rfl, rfl, rfl, rfl, Or.inl rfl,
      fun _ output' houtput => ⟨output', houtput, Or.inl rfl⟩⟩
  | sink g n₀ gr e₀ type hgr he₀ hn₀ =>
    exact hexec he₀ rfl ⟨rfl, rfl, rfl, rfl, rfl, rfl, Or.inr (Or.inr ⟨g, gr, type, rfl, hgr, hn₀⟩),
      fun _ output' houtput => ⟨output', houtput, Or.inl rfl⟩⟩
  | edge n₀ m e₀ e₁ type he₀ he₁ htype =>
    refine hexec he₀ rfl ⟨rfl, rfl, rfl, rfl, rfl, rfl, Or.inl rfl, fun type' output' houtput => ?_⟩
    by_cases htype' : type' = type
    · subst htype'
      obtain ⟨output, hfind, rfl⟩ :=
        Option.map_eq_some_iff.mp ((OrderedMap.find?_modify_self _ _ _).symm.trans houtput)
      exact ⟨output, hfind, Or.inr ⟨m, e₁, rfl, he₁, htype⟩⟩
    · exact ⟨output', (OrderedMap.find?_modify_of_ne _ _ htype').symm.trans houtput, Or.inl rfl⟩

/-- An executable node stays one. -/
theorem Edit.exists_exec (hedit : Edit h h') {n : Address} {e : ExecNode F}
    (he : h.exec? n = some e) : ∃ e', h'.exec? n = some e' ∧ ExecStep h n e e' := by
  suffices hsome : ∃ e', h'.exec? n = some e' by
    obtain ⟨e', he'⟩ := hsome
    rcases hedit.execStep he' with hnew | ⟨e₀, he₀, hstep⟩
    · rw [Heap.exec?_of_free hnew.free] at he
      cases he
    · obtain rfl := Option.some.inj (he.symm.trans he₀)
      exact ⟨e', he', hstep⟩
  have hset : ∀ {n₀ e₀}, ∃ e', (h.setExec n₀ e₀).exec? n = some e' := by
    intro n₀ e₀
    by_cases hn : n = n₀
    · subst hn
      exact ⟨e₀, Heap.exec?_setExec_self⟩
    · exact ⟨e, (Heap.exec?_setExec_of_ne hn).trans he⟩
  cases hedit with
  | newGraph g inputTypes outputTypes hfree =>
    exact ⟨e, (Heap.exec?_setGraph (Heap.exec?_of_free hfree)).trans he⟩
  | newNodeOf n₀ g gr kind inputTypes outputTypes group maxThreadCount hfree hstate hgr =>
    have hne : g ≠ n₀ := by
      rintro rfl
      rw [Heap.graph?_of_free hfree] at hgr
      cases hgr
    rw [Heap.exec?_setGraph ((Heap.exec?_setExec_of_ne hne).trans (Heap.exec?_of_graph? hgr))]
    exact hset
  | subGraph g sub gr gr' hgr hgr' | inputKey g gr type hgr | outputKey g gr type hgr
  | input g m gr e type hgr he₀ htype | output g m gr e type hgr he₀ htype =>
    exact ⟨_, (Heap.exec?_setGraph (Heap.exec?_of_graph? hgr)).trans he⟩
  | _ => exact hset

/-- A graph stays one. -/
theorem Edit.exists_graph (hedit : Edit h h') {g : Address} {gr : Graph}
    (hgr : h.graph? g = some gr) : ∃ gr', h'.graph? g = some gr' ∧ GraphStep h h' g gr gr' := by
  suffices hsome : ∃ gr', h'.graph? g = some gr' by
    obtain ⟨gr', hgr'⟩ := hsome
    rcases hedit.graphStep hgr' with hnew | ⟨gr₀, hgr₀, hstep⟩
    · rw [Heap.graph?_of_free hnew.free] at hgr
      cases hgr
    · obtain rfl := Option.some.inj (hgr.symm.trans hgr₀)
      exact ⟨gr', hgr', hstep⟩
  have hset : ∀ {h₀ : Heap F} {g₀ gr₀}, h₀.graph? g = h.graph? g →
      ∃ gr', (h₀.setGraph g₀ gr₀).graph? g = some gr' := by
    intro h₀ g₀ gr₀ hsame
    by_cases hg : g = g₀
    · subst hg
      exact ⟨gr₀, Heap.graph?_setGraph_self⟩
    · exact ⟨gr, (Heap.graph?_setGraph_of_ne hg).trans (hsame.trans hgr)⟩
  cases hedit with
  | newNode n kind inputTypes outputTypes group maxThreadCount hfree hstate =>
    exact ⟨gr, (Heap.graph?_setExec (Heap.graph?_of_free hfree)).trans hgr⟩
  | newNodeOf n g₀ gr₀ kind inputTypes outputTypes group maxThreadCount hfree hstate hgr₀ =>
    exact hset (Heap.graph?_setExec (Heap.graph?_of_free hfree))
  | clearSink n e he | exec n e type proc he | sink g₀ n gr₀ e type hgr₀ he hn
  | edge n m e e' type he he' htype =>
    exact ⟨gr, (Heap.graph?_setExec (Heap.graph?_of_exec? he)).trans hgr⟩
  | _ => exact hset rfl

/-! ## The invariant -/

/-- The node has an input for the type. -/
def HasInput (h : Heap F) (type : TypeId) (n : Address) : Prop :=
  ∃ e, h.exec? n = some e ∧ type ∈ e.inputs.keys

/-- The node has an output for the type. -/
def HasOutput (h : Heap F) (type : TypeId) (n : Address) : Prop :=
  ∃ e, h.exec? n = some e ∧ type ∈ e.outputs.keys

/-- The receiver is in `outputs[type].nodes` of the sender. -/
def Connected (h : Heap F) (type : TypeId) (sender receiver : Address) : Prop :=
  ∃ e output, h.exec? sender = some e ∧ e.outputs.find? type = some output ∧
    receiver ∈ output.nodes

theorem HasInput.of_edit {type : TypeId} {n : Address} (hn : HasInput h type n)
    (hedit : Edit h h') : HasInput h' type n := by
  obtain ⟨e, he, htype⟩ := hn
  obtain ⟨e', he', hstep⟩ := hedit.exists_exec he
  exact ⟨e', he', hstep.inputs ▸ htype⟩

theorem HasOutput.of_edit {type : TypeId} {n : Address} (hn : HasOutput h type n)
    (hedit : Edit h h') : HasOutput h' type n := by
  obtain ⟨e, he, htype⟩ := hn
  obtain ⟨e', he', hstep⟩ := hedit.exists_exec he
  exact ⟨e', he', hstep.outputs ▸ htype⟩

/-- The queues of an output are the ones of its nodes for the type. -/
def ExecNodeOutput.Matched (type : TypeId) (output : ExecNodeOutput) : Prop :=
  output.queues = output.nodes.image fun m => (m, type)

theorem ExecNodeOutput.matched_empty (type : TypeId) : ExecNodeOutput.empty.Matched type :=
  rfl

theorem ExecNodeOutput.Matched.insert {type : TypeId} {output : ExecNodeOutput}
    (hmatched : output.Matched type) (m : Address) : (output.insert m type).Matched type := by
  rw [Matched, ExecNodeOutput.insert, Finset.image_insert, hmatched]

/-- What holds of every heap that the builder makes. -/
structure WellFormed (h : Heap F) : Prop where
  /-- The nodes of `inputs[type]` have an input for the type. -/
  inputs : ∀ g gr, h.graph? g = some gr → ∀ type, ∀ n ∈ nodesOf gr.inputs type, HasInput h type n
  outputs : ∀ g gr, h.graph? g = some gr → ∀ type, ∀ n ∈ nodesOf gr.outputs type,
    HasOutput h type n
  /-- The nodes of `outputs[type].nodes` have an input for the type. -/
  edges : ∀ n e, h.exec? n = some e → ∀ type output, e.outputs.find? type = some output →
    output.Matched type ∧ ∀ m ∈ output.nodes, HasInput h type m
  /-- A node with a sink is an output of its graph. -/
  sink : ∀ n e g, h.exec? n = some e → e.sink = some g →
    ∃ gr type, h.graph? g = some gr ∧ n ∈ nodesOf gr.outputs type
  owner : ∀ n e g, h.exec? n = some e → e.graph = some g →
    ∃ gr, h.graph? g = some gr ∧ n ∈ gr.nodes
  /-- The nodes of a graph were created in it, or are graphs. -/
  nodes : ∀ g gr, h.graph? g = some gr → ∀ n ∈ gr.nodes,
    (∃ e, h.exec? n = some e ∧ e.graph = some g) ∨ ∃ sub, h.graph? n = some sub
  count_nodes : ∀ g gr, h.graph? g = some gr → ∀ n e, h.exec? n = some e → gr.nodes.count n ≤ 1
  state : ∀ n e, h.exec? n = some e → e.kind = .state → e.maxThreadCount = 1

theorem wellFormed_empty : WellFormed (Heap.empty : Heap F) where
  inputs _ _ hgr := by cases hgr
  outputs _ _ hgr := by cases hgr
  edges _ _ he := by cases he
  sink _ _ _ he := by cases he
  owner _ _ _ he := by cases he
  nodes _ _ hgr := by cases hgr
  count_nodes _ _ hgr := by cases hgr
  state _ _ he := by cases he

/-- **Every edit keeps a heap well-formed.** -/
theorem WellFormed.of_edit (hW : WellFormed h) (hedit : Edit h h') : WellFormed h' where
  inputs g gr' hgr' type n hn := by
    rcases hedit.graphStep hgr' with hnew | ⟨gr, hgr, hstep⟩
    · rw [hnew.inputs] at hn
      cases hn
    · rcases hstep.inputs type n hn with hn | hn
      · exact (hW.inputs g gr hgr type n hn).of_edit hedit
      · exact HasInput.of_edit hn hedit
  outputs g gr' hgr' type n hn := by
    rcases hedit.graphStep hgr' with hnew | ⟨gr, hgr, hstep⟩
    · rw [hnew.outputs] at hn
      cases hn
    · rcases hstep.outputs type n hn with hn | hn
      · exact (hW.outputs g gr hgr type n hn).of_edit hedit
      · exact HasOutput.of_edit hn hedit
  edges n e' he' type output' houtput' := by
    rcases hedit.execStep he' with hnew | ⟨e, he, hstep⟩
    · obtain rfl := hnew.output type output' houtput'
      exact ⟨ExecNodeOutput.matched_empty type, fun m hm => absurd hm (Finset.notMem_empty m)⟩
    · obtain ⟨output, houtput, heq⟩ := hstep.output type output' houtput'
      obtain ⟨hmatched, hnodes⟩ := hW.edges n e he type output houtput
      rcases heq with rfl | ⟨m, e'', rfl, hm, htype⟩
      · exact ⟨hmatched, fun m hm => (hnodes m hm).of_edit hedit⟩
      · refine ⟨hmatched.insert m, fun m' hm' => ?_⟩
        rcases Finset.mem_insert.mp hm' with rfl | hm'
        · exact HasInput.of_edit ⟨e'', hm, htype⟩ hedit
        · exact (hnodes m' hm').of_edit hedit
  sink n e' g he' hsink := by
    rcases hedit.execStep he' with hnew | ⟨e, he, hstep⟩
    · rw [hnew.sink] at hsink
      cases hsink
    · suffices hold : ∃ gr type, h.graph? g = some gr ∧ n ∈ nodesOf gr.outputs type by
        obtain ⟨gr, type, hgr, hn⟩ := hold
        obtain ⟨gr', hgr', hgstep⟩ := hedit.exists_graph hgr
        exact ⟨gr', type, hgr', hgstep.outputs_mono type n hn⟩
      rcases hstep.sink with hsame | hnone | ⟨g', gr, type, hsome, hgr, hn⟩
      · exact hW.sink n e g he (hsame.symm.trans hsink)
      · rw [hnone] at hsink
        cases hsink
      · obtain rfl := Option.some.inj (hsome.symm.trans hsink)
        exact ⟨gr, type, hgr, hn⟩
  owner n e' g he' hgraph := by
    rcases hedit.execStep he' with hnew | ⟨e, he, hstep⟩
    · exact hnew.owner g hgraph
    · obtain ⟨gr, hgr, hn⟩ := hW.owner n e g he (hstep.graph.symm.trans hgraph)
      obtain ⟨gr', hgr', hgstep⟩ := hedit.exists_graph hgr
      refine ⟨gr', hgr', ?_⟩
      rcases hgstep.nodes with hsame | ⟨m, happend, -⟩
      · rwa [hsame]
      · rw [happend]
        exact List.mem_append_left _ hn
  nodes g gr' hgr' n hn := by
    have hpersist : (∃ e, h.exec? n = some e ∧ e.graph = some g) ∨ (∃ sub, h.graph? n = some sub) →
        (∃ e, h'.exec? n = some e ∧ e.graph = some g) ∨ ∃ sub, h'.graph? n = some sub := by
      rintro (⟨e, he, hgraph⟩ | ⟨sub, hsub⟩)
      · obtain ⟨e', he', hstep⟩ := hedit.exists_exec he
        exact Or.inl ⟨e', he', hstep.graph.trans hgraph⟩
      · obtain ⟨sub', hsub', -⟩ := hedit.exists_graph hsub
        exact Or.inr ⟨sub', hsub'⟩
    rcases hedit.graphStep hgr' with hnew | ⟨gr, hgr, hstep⟩
    · rw [hnew.nodes] at hn
      cases hn
    · rcases hstep.nodes with hsame | ⟨m, happend, hm⟩
      · rw [hsame] at hn
        exact hpersist (hW.nodes g gr hgr n hn)
      · rw [happend] at hn
        rcases List.mem_append.mp hn with hn | hn
        · exact hpersist (hW.nodes g gr hgr n hn)
        · obtain rfl := List.mem_singleton.mp hn
          rcases hm with ⟨-, hnode⟩ | hsub
          · exact Or.inl hnode
          · exact hpersist (Or.inr hsub)
  count_nodes g gr' hgr' n e' he' := by
    rcases hedit.graphStep hgr' with hnew | ⟨gr, hgr, hstep⟩
    · rw [hnew.nodes]
      exact Nat.zero_le 1
    · have hold : h n ≠ none → gr.nodes.count n ≤ 1 := by
        intro hne
        rcases hedit.execStep he' with hnew | ⟨e, he, -⟩
        · exact absurd hnew.free hne
        · exact hW.count_nodes g gr hgr n e he
      have hfresh : h n = none → gr.nodes.count n = 0 := by
        intro hfree
        refine List.count_eq_zero.mpr fun hn => ?_
        rcases hW.nodes g gr hgr n hn with ⟨e, he, -⟩ | ⟨sub, hsub⟩
        · rw [Heap.exec?_of_free hfree] at he
          cases he
        · rw [Heap.graph?_of_free hfree] at hsub
          cases hsub
      have hbound : gr.nodes.count n ≤ 1 := by
        by_cases hfree : h n = none
        · rw [hfresh hfree]
          exact Nat.zero_le 1
        · exact hold hfree
      rcases hstep.nodes with hsame | ⟨m, happend, hm⟩
      · rw [hsame]
        exact hbound
      · rw [happend, List.count_append]
        by_cases hnm : n = m
        · subst hnm
          rcases hm with ⟨hfree, -⟩ | ⟨sub, hsub⟩
          · rw [hfresh hfree, List.count_singleton_self]
          · obtain ⟨sub', hsub', -⟩ := hedit.exists_graph hsub
            rw [Heap.exec?_of_graph? hsub'] at he'
            cases he'
        · rw [List.count_singleton, if_neg (by simpa using Ne.symm hnm)]
          exact hbound
  state n e' he' hkind := by
    rcases hedit.execStep he' with hnew | ⟨e, he, hstep⟩
    · exact hnew.state hkind
    · rw [hstep.maxThreadCount]
      exact hW.state n e he (hstep.kind.symm.trans hkind)

/-- **Whatever calls are made**, the heap is well-formed. -/
theorem wellFormed_of_reaches {ok : Heap F → Action F → Prop} (hr : (system F).Reaches ok h) :
    WellFormed h :=
  invariant_of_edit wellFormed_empty (fun _ _ hW hedit => hW.of_edit hedit) hr

end Builder
end Dfg
end ThreadUtils
