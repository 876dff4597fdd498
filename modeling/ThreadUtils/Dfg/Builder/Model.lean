import ThreadUtils.Dfg.Builder.Heap
import ThreadUtils.Transition.System

/-!
# The graph builder

The functions that create nodes, declare the inputs and outputs of a graph and draw edges.
Several of them take an executable node or a graph, and in the latter case call themselves for
the nodes of the graph.  `depth` bounds how deep these calls are nested: a function that is
out of depth returns nothing, and so does one that goes through a pointer to no object.

What `operator[]` does to a key that is not in the map, an insertion, is done here too.  The
names of the nodes, the pointer to the user's data and the messages are left out.

## Calls that write and then fail

Most functions return a boolean, and a loop in them stops at the first false.  What was written up
to then stays written; the outcome of a call is therefore the heap and the boolean together
(`Outcome`), and `forEach` is the loop.

## Functions for nodes and for graphs

A function for an executable node is a definition of its own, `addInputExec` for instance, and the
function of the source is the recursion around it.  The function for a graph takes the recursive
call as an argument, as the source has it: `tu_add_input` and `tu_add_input_graph` call each other.

The builder as a system makes one call after the other from an empty heap, with any arguments, and
an address that is free for what `new` returns.  A call without an outcome is no step.
-/

namespace ThreadUtils
namespace Dfg
namespace Builder

variable {F : Type*}

/-- The heap after a call, and what the call returns. -/
abbrev Outcome (F : Type*) := Option (Heap F × Bool)

/-- A loop that returns false when a call in it does, and true at its end. -/
def forEach {β : Type*} (call : Heap F → β → Outcome F) : Heap F → List β → Outcome F
  | h, [] => some (h, true)
  | h, b :: bs =>
      match call h b with
      | some (h', true) => forEach call h' bs
      | some (h', false) => some (h', false)
      | none => none

/-- The nodes of a set that may be missing. -/
def nodesOf (map : OrderedMap TypeId (OrderedSet Address)) (type : TypeId) : List Address :=
  ((map.find? type).map OrderedSet.toList).getD []

/-! ## Creation -/

/-- `make_exec_base`, with the fields that `make_node` sets. -/
def makeExecBase (kind : NodeKind) (graph : Option Address)
    (inputTypes outputTypes : OrderedSet TypeId) (group maxThreadCount : ℕ) : ExecNode F where
  kind := kind
  graph := graph
  inputs := .const inputTypes ⟨none⟩
  outputs := .const outputTypes .empty
  sink := none
  group := group
  maxThreadCount := maxThreadCount

/-- `make_node` for a task or a state, at the address that `new` returns. -/
def makeNode (h : Heap F) (fresh : Address) (e : ExecNode F) : Option (Heap F) :=
  if (h fresh).isSome then none
  else match e.graph with
    | none => some (h.setExec fresh e)
    | some g => (h.graph? g).map fun gr =>
        (h.setExec fresh e).setGraph g { gr with nodes := gr.nodes ++ [fresh] }

/-- `tu_task`. -/
def tuTask (h : Heap F) (fresh : Address) (graph : Option Address)
    (inputTypes outputTypes : OrderedSet TypeId) (dfgGroup maxThreadCount : ℕ) : Option (Heap F) :=
  makeNode h fresh (makeExecBase .task graph inputTypes outputTypes dfgGroup maxThreadCount)

/-- `tu_state`. -/
def tuState (h : Heap F) (fresh : Address) (graph : Option Address)
    (inputTypes outputTypes : OrderedSet TypeId) (dfgGroup : ℕ) : Option (Heap F) :=
  makeNode h fresh (makeExecBase .state graph inputTypes outputTypes dfgGroup 1)

/-- `tu_graph_create`. -/
def tuGraphCreate (h : Heap F) (fresh : Address) (inputTypes outputTypes : OrderedSet TypeId) :
    Option (Heap F) :=
  if (h fresh).isSome then none
  else some (h.setGraph fresh ⟨[], .const inputTypes .empty, .const outputTypes .empty⟩)

/-- `exec_node->sink = nullptr`, unless the node is a graph. -/
def clearSink (h : Heap F) (n : Address) : Heap F :=
  match h.exec? n with
  | some e => h.setExec n { e with sink := none }
  | none => h

/-- `tu_sub_graph`. -/
def tuSubGraph (h : Heap F) (graph subGraph : Address) : Option (Heap F) :=
  (h.graph? subGraph).bind fun sub =>
    let h' := (sub.outputs.keys.toList.flatMap (nodesOf sub.outputs)).foldl clearSink h
    (h'.graph? graph).map fun gr => h'.setGraph graph { gr with nodes := gr.nodes ++ [subGraph] }

/-- `tu_exec`. -/
def tuExec (h : Heap F) (node : Option Address) (type : TypeId) (exec : Option F) : Outcome F :=
  match node with
  | none => some (h, false)
  | some n =>
      match h n with
      | none => none
      | some (.graph _) => some (h, false)
      | some (.exec e) =>
          if e.inputs.contains type then
            some (h.setExec n { e with inputs := e.inputs.modify type fun _ => ⟨exec⟩ }, true)
          else some (h, false)

/-! ## The inputs and the outputs of a graph -/

/-- `tu_add_input` for an executable node. -/
def addInputExec (h : Heap F) (g : Address) (gr : Graph) (n : Address) (e : ExecNode F)
    (type : TypeId) : Heap F × Bool :=
  if e.inputs.contains type then
    if gr.inputs.contains type then
      (h.setGraph g { gr with inputs := gr.inputs.modify type (·.insert n) }, true)
    else (h, false)
  else (h, false)

/-- `tu_add_input_graph`, with the recursive call. -/
def tuAddInputGraph (addInput : Heap F → Address → Outcome F) (h : Heap F)
    (graph subGraph : Address) (type : TypeId) : Outcome F :=
  if graph = subGraph then some (h, false)
  else (h.graph? subGraph).bind fun sub =>
    let inputs := sub.inputs.insert type .empty
    forEach addInput (h.setGraph subGraph { sub with inputs := inputs }) (nodesOf inputs type)

/-- `tu_add_input`. -/
def tuAddInput : ℕ → Heap F → Option Address → Option Address → TypeId → Outcome F
  | 0, _, _, _, _ => none
  | depth + 1, h, some g, some n, type =>
      match h n with
      | none => none
      | some (.graph _) =>
          tuAddInputGraph (fun h m => tuAddInput depth h (some g) (some m) type) h g n type
      | some (.exec e) => (h.graph? g).map fun gr => addInputExec h g gr n e type
  | _ + 1, h, _, _, _ => some (h, false)

/-- `tu_add_inputs` for an executable node: `find` fails for a type that the graph does not
declare. -/
def addInputsExec (h : Heap F) (g : Address) (gr : Graph) (n : Address) (e : ExecNode F) :
    Heap F × Bool :=
  (h.setGraph g { gr with
    inputs := e.inputs.keys.toList.foldl (fun map type => map.modify type (·.insert n)) gr.inputs },
    true)

/-- `tu_add_inputs_graph`, with the recursive call. -/
def tuAddInputsGraph (addInputs : Heap F → Address → Outcome F) (h : Heap F)
    (graph subGraph : Address) : Outcome F :=
  if graph = subGraph then some (h, false)
  else (h.graph? subGraph).bind fun sub =>
    forEach (fun h type => (h.graph? graph).bind fun gr =>
      if gr.inputs.contains type then some (h, true)
      else forEach addInputs h (nodesOf sub.inputs type)) h sub.inputs.keys.toList

/-- `tu_add_inputs`. -/
def tuAddInputs : ℕ → Heap F → Option Address → Option Address → Outcome F
  | 0, _, _, _ => none
  | depth + 1, h, some g, some n =>
      match h n with
      | none => none
      | some (.graph _) =>
          tuAddInputsGraph (fun h m => tuAddInputs depth h (some g) (some m)) h g n
      | some (.exec e) => (h.graph? g).map fun gr => addInputsExec h g gr n e
  | _ + 1, h, _, _ => some (h, false)

/-- `tu_add_output` for an executable node: a type that the node does not output is only worth
a warning. -/
def addOutputExec (h : Heap F) (g : Address) (gr : Graph) (n : Address) (e : ExecNode F)
    (type : TypeId) : Heap F × Bool :=
  if gr.outputs.contains type then
    if e.outputs.contains type then
      ((h.setGraph g { gr with outputs := gr.outputs.modify type (·.insert n) }).setExec n
        { e with sink := some g }, true)
    else (h, true)
  else (h, false)

/-- `tu_add_output_graph`, with the recursive call.  A graph may be added to itself. -/
def tuAddOutputGraph (addOutput : Heap F → Address → Outcome F) (h : Heap F)
    (subGraph : Address) (type : TypeId) : Outcome F :=
  (h.graph? subGraph).bind fun sub =>
    let outputs := sub.outputs.insert type .empty
    forEach addOutput (h.setGraph subGraph { sub with outputs := outputs }) (nodesOf outputs type)

/-- `tu_add_output`. -/
def tuAddOutput : ℕ → Heap F → Option Address → Option Address → TypeId → Outcome F
  | 0, _, _, _, _ => none
  | depth + 1, h, some g, some n, type =>
      match h n with
      | none => none
      | some (.graph _) =>
          tuAddOutputGraph (fun h m => tuAddOutput depth h (some g) (some m) type) h n type
      | some (.exec e) => (h.graph? g).map fun gr => addOutputExec h g gr n e type
  | _ + 1, h, _, _, _ => some (h, false)

/-- `tu_add_outputs` for an executable node. -/
def addOutputsExec (h : Heap F) (g : Address) (gr : Graph) (n : Address) (e : ExecNode F) :
    Heap F × Bool :=
  let h' := h.setGraph g { gr with
    outputs := e.outputs.keys.toList.foldl (fun map type => map.modify type (·.insert n))
      gr.outputs }
  if e.outputs.keys.toList.any gr.outputs.contains then
    (h'.setExec n { e with sink := some g }, true)
  else (h', true)

/-- `tu_add_outputs_graph`, with the recursive call. -/
def tuAddOutputsGraph (addOutputs : Heap F → Address → Outcome F) (h : Heap F)
    (graph subGraph : Address) : Outcome F :=
  (h.graph? subGraph).bind fun sub =>
    forEach (fun h type => (h.graph? graph).bind fun gr =>
      if gr.outputs.contains type then some (h, true)
      else forEach addOutputs h (nodesOf sub.outputs type)) h sub.outputs.keys.toList

/-- `tu_add_outputs`. -/
def tuAddOutputs : ℕ → Heap F → Option Address → Option Address → Outcome F
  | 0, _, _, _ => none
  | depth + 1, h, some g, some n =>
      match h n with
      | none => none
      | some (.graph _) =>
          tuAddOutputsGraph (fun h m => tuAddOutputs depth h (some g) (some m)) h g n
      | some (.exec e) => (h.graph? g).map fun gr => addOutputsExec h g gr n e
  | _ + 1, h, _, _ => some (h, false)

/-! ## Edges -/

/-- `tu_edge` for two executable nodes. -/
def edgeExec (h : Heap F) (sender : Address) (e : ExecNode F) (receiver : Address)
    (e' : ExecNode F) (type : TypeId) : Heap F × Bool :=
  if e.outputs.contains type ∧ e'.inputs.contains type then
    (h.setExec sender { e with outputs := e.outputs.modify type (·.insert receiver type) }, true)
  else (h, false)

/-- `tu_edge`. -/
def tuEdge : ℕ → Heap F → Option Address → Option Address → TypeId → Outcome F
  | 0, _, _, _, _ => none
  | depth + 1, h, some sender, some receiver, type =>
      match h sender, h receiver with
      | some (.graph gr), some _ =>
          let outputs := gr.outputs.insert type .empty
          forEach (fun h m => tuEdge depth h (some m) (some receiver) type)
            (h.setGraph sender { gr with outputs := outputs }) (nodesOf outputs type)
      | some (.exec _), some (.graph gr) =>
          let inputs := gr.inputs.insert type .empty
          forEach (fun h m => tuEdge depth h (some sender) (some m) type)
            (h.setGraph receiver { gr with inputs := inputs }) (nodesOf inputs type)
      | some (.exec e), some (.exec e') => some (edgeExec h sender e receiver e' type)
      | _, _ => none
  | _ + 1, h, _, _, _ => some (h, false)

/-- `tu_edges` for two executable nodes. -/
def edgesExec (h : Heap F) (sender : Address) (e : ExecNode F) (receiver : Address)
    (e' : ExecNode F) : Heap F × Bool :=
  (h.setExec sender { e with
    outputs := e'.inputs.keys.toList.foldl
      (fun map type => map.modify type (·.insert receiver type)) e.outputs }, true)

/-- `tu_edges`. -/
def tuEdges : ℕ → Heap F → Option Address → Option Address → Outcome F
  | 0, _, _, _ => none
  | depth + 1, h, some sender, some receiver =>
      match h sender, h receiver with
      | some (.graph gr), some _ =>
          forEach (fun h m => tuEdges depth h (some m) (some receiver)) h
            (gr.outputs.keys.toList.flatMap (nodesOf gr.outputs))
      | some (.exec _), some (.graph gr) =>
          forEach (fun h m => tuEdges depth h (some sender) (some m)) h
            (gr.inputs.keys.toList.flatMap (nodesOf gr.inputs))
      | some (.exec e), some (.exec e') => some (edgesExec h sender e receiver e')
      | _, _ => none
  | _ + 1, h, _, _ => some (h, false)

/-! ## Sequences of calls -/

/-- A call of the builder.  `fresh` is the address that `new` returns. -/
inductive Call (F : Type*) where
  | graphCreate (fresh : Address) (inputTypes outputTypes : OrderedSet TypeId)
  | task (fresh : Address) (graph : Option Address) (inputTypes outputTypes : OrderedSet TypeId)
      (dfgGroup maxThreadCount : ℕ)
  | state (fresh : Address) (graph : Option Address) (inputTypes outputTypes : OrderedSet TypeId)
      (dfgGroup : ℕ)
  | subGraph (graph subGraph : Address)
  | exec (node : Option Address) (type : TypeId) (exec : Option F)
  | addInput (graph node : Option Address) (type : TypeId)
  | addInputs (graph node : Option Address)
  | addOutput (graph node : Option Address) (type : TypeId)
  | addOutputs (graph node : Option Address)
  | edge (sender receiver : Option Address) (type : TypeId)
  | edges (sender receiver : Option Address)

/-- The heap after a call. -/
def Call.run (depth : ℕ) (h : Heap F) : Call F → Option (Heap F)
  | .graphCreate fresh inputTypes outputTypes => tuGraphCreate h fresh inputTypes outputTypes
  | .task fresh graph inputTypes outputTypes dfgGroup maxThreadCount =>
      tuTask h fresh graph inputTypes outputTypes dfgGroup maxThreadCount
  | .state fresh graph inputTypes outputTypes dfgGroup =>
      tuState h fresh graph inputTypes outputTypes dfgGroup
  | .subGraph graph sub => tuSubGraph h graph sub
  | .exec node type proc => (tuExec h node type proc).map Prod.fst
  | .addInput graph node type => (tuAddInput depth h graph node type).map Prod.fst
  | .addInputs graph node => (tuAddInputs depth h graph node).map Prod.fst
  | .addOutput graph node type => (tuAddOutput depth h graph node type).map Prod.fst
  | .addOutputs graph node => (tuAddOutputs depth h graph node).map Prod.fst
  | .edge sender receiver type => (tuEdge depth h sender receiver type).map Prod.fst
  | .edges sender receiver => (tuEdges depth h sender receiver).map Prod.fst

/-- A call with a bound on the depth of the calls in it. -/
structure Action (F : Type*) where
  call : Call F
  depth : ℕ

/-- The builder, from an empty heap. -/
def system (F : Type*) : TransitionSystem (Heap F) (Action F) where
  init h := h = .empty
  step h a := a.call.run a.depth h

end Builder
end Dfg
end ThreadUtils
