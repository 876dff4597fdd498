import Mathlib.Data.Int.Notation
import Mathlib.Data.List.Basic

/-!
# The data-flow graph

A graph is a set of executable nodes.  A node has one queue for each of its input
types, and for each of its output types the queues of the nodes that an edge connects
it to.  What a node does with a datum is not part of the graph.

The maps and the sets of the source are ordered, by the type or by the address of their
elements.  Here they are lists and functions: a list has the elements of a set in the
order of the loops over it, which is not fixed.
-/

namespace ThreadUtils
namespace Dfg

/-- `TU_TypeId`. -/
abbrev TypeId := ℤ

/-- A pointer, or `nullptr`, with the type of what it points to. -/
structure GraphData (V : Type*) where
  data : Option V
  type : TypeId
  deriving DecidableEq

/-- The kinds of the nodes that workers execute. -/
inductive NodeKind where
  | task
  | state
  deriving DecidableEq

/-- The queue of a node for one of its input types. -/
abbrev NodeQueue (N : Type*) := N × TypeId

variable {G N : Type*}

/-- The successors of a node for one of its output types, and their queues for it. -/
structure ExecNodeOutput (N : Type*) (type : TypeId) where
  nodes : List N
  queues : List (NodeQueue N)
  mem_queues : ∀ q, q ∈ queues ↔ q.1 ∈ nodes ∧ q.2 = type

/-- An output without successors. -/
def ExecNodeOutput.empty (N : Type*) (type : TypeId) : ExecNodeOutput N type where
  nodes := []
  queues := []
  mem_queues := by simp

/-- What `tu_edge` inserts into the output of the sender. -/
def ExecNodeOutput.insert [DecidableEq N] {type : TypeId} (output : ExecNodeOutput N type)
    (receiver : N) : ExecNodeOutput N type where
  nodes := output.nodes.insert receiver
  queues := output.queues.insert (receiver, type)
  mem_queues q := by
    rw [List.mem_insert_iff, List.mem_insert_iff, output.mem_queues]
    constructor
    · rintro (rfl | ⟨hmem, htype⟩)
      · exact ⟨Or.inl rfl, rfl⟩
      · exact ⟨Or.inr hmem, htype⟩
    · rintro ⟨heq | hmem, htype⟩
      · exact Or.inl (Prod.ext heq htype)
      · exact Or.inr ⟨hmem, htype⟩

theorem ExecNodeOutput.mem_insert [DecidableEq N] {type : TypeId} {output : ExecNodeOutput N type}
    {receiver n : N} : n ∈ (output.insert receiver).nodes ↔ n = receiver ∨ n ∈ output.nodes :=
  List.mem_insert_iff

/-- A task or a state.  `graph` is the graph it was created in and `sink` the graph whose
sink it writes to; graphs are told apart by a number. -/
structure ExecNode (G N : Type*) where
  kind : NodeKind
  graph : ℕ
  /-- The keys of `inputs`. -/
  inputs : List TypeId
  outputs : (type : TypeId) → Option (ExecNodeOutput N type)
  sink : Option ℕ
  group : G
  maxThreadCount : ℕ
  maxThreadCount_state : kind = .state → maxThreadCount = 1

/-- The map that `make_exec_base` fills with empty outputs. -/
def makeOutputs (N : Type*) (types : List TypeId) (type : TypeId) :
    Option (ExecNodeOutput N type) :=
  if type ∈ types then some (.empty N type) else none

/-- `tu_task`. -/
def tuTask (graph : ℕ) (inputs outputs : List TypeId) (group : G) (maxThreadCount : ℕ) :
    ExecNode G N where
  kind := .task
  graph := graph
  inputs := inputs
  outputs := makeOutputs N outputs
  sink := none
  group := group
  maxThreadCount := maxThreadCount
  maxThreadCount_state := by simp

/-- `tu_state`. -/
def tuState (graph : ℕ) (inputs outputs : List TypeId) (group : G) : ExecNode G N where
  kind := .state
  graph := graph
  inputs := inputs
  outputs := makeOutputs N outputs
  sink := none
  group := group
  maxThreadCount := 1
  maxThreadCount_state := fun _ => rfl

theorem eq_some_of_makeOutputs {types : List TypeId} {type : TypeId}
    {output : ExecNodeOutput N type} (h : makeOutputs N types type = some output) :
    type ∈ types ∧ output.nodes = [] := by
  unfold makeOutputs at h
  split at h
  · next hmem =>
    obtain rfl := Option.some.inj h
    exact ⟨hmem, rfl⟩
  · cases h

/-- The graph that is executed, with what its nodes read of other graphs.  `tu_add_input` and
`tu_edge` refuse a node without an input for the type. -/
structure Graph (G N : Type*) where
  /-- The number of the graph. -/
  id : ℕ
  node : N → ExecNode G N
  /-- `inputs`: the input nodes for a type of data, if the graph accepts the type. -/
  inputs : TypeId → Option (List N)
  /-- `outputs.contains(type)`, for the graph of this number. -/
  outputs : ℕ → TypeId → Bool
  mem_inputs : ∀ type nodes, inputs type = some nodes → ∀ n ∈ nodes, type ∈ (node n).inputs
  mem_outputs : ∀ n type output, (node n).outputs type = some output →
    ∀ m ∈ output.nodes, type ∈ (node m).inputs

/-- The sink that a result goes to: `exec_node->sink != nullptr` and
`node->graph->outputs.contains(type)`. -/
def Graph.sinkOf (graph : Graph G N) (n : N) (type : TypeId) : Option ℕ :=
  if graph.outputs (graph.node n).graph type then (graph.node n).sink else none

end Dfg
end ThreadUtils
