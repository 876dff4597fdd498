import ThreadUtils.Dfg.Builder.Check
import ThreadUtils.Dfg.Builder.Runner
import ThreadUtils.Dfg.Dispatch

/-!
# Typed dispatch

What the builder guarantees of the heap and what the runner guarantees of a run meet here: a
worker finds a function for whatever it pops, and no assertion about the kind or the inputs of a
node fails.

The chain has three links.  The builder registers and connects only nodes that have the type
(`WellTyped`).  So in the graph of the runner every output for a type has queues for that type, and
a datum is only ever pushed to a queue of its own type at a node with such an input.  And a
graph that passed the check has a function for each input.  None of the three would do alone: the
runner tests nothing but the group of a node, and the builder does not run.
-/

namespace ThreadUtils
namespace Dfg
namespace Builder

variable {F W C V : Type*} {h : Heap F} {g : Address}

/-- The nodes that a graph names for a type of data are executable, and have the type among
their own inputs or outputs. -/
structure WellTyped (h : Heap F) : Prop where
  inputs : ∀ g gr, h.graph? g = some gr → ∀ type, ∀ n ∈ nodesOf gr.inputs type,
    HasInput h type n
  outputs : ∀ g gr, h.graph? g = some gr → ∀ type, ∀ n ∈ nodesOf gr.outputs type,
    HasOutput h type n

/-- The queues hold data of their type, and the threads that put data in a queue or execute them
are at nodes that take them. -/
structure DispatchSound {k : ℕ} (h : Heap F)
    (s : Dfg.State (Fin k) (Executable h) W C V) : Prop where
  queue : ∀ n type, ∀ data ∈ s.queue (n, type), data.type = type
  /-- `tu_dfg_push_data` and `tu_internal_node_enqueue`, at the input node `n`. -/
  enqueue : ∀ c data (n : Executable h) rest, s.client c = .enqueue data n rest →
    ∃ e, h.exec? n = some e ∧ e.group < k ∧ data.type ∈ e.inputs.keys
  /-- `tu_result`, at the queue `q`. -/
  push : ∀ w v i data result (q : NodeQueue (Executable h)) queues nodes todo,
    s.worker w = .exec v i data (.push result (q :: queues) nodes todo) →
      result.type = q.2 ∧ HasInput h q.2 q.1
  /-- `worker_node_exec`, when it looks the function up. -/
  exec : ∀ w (v : Visit (Executable h)) i data, s.worker w = .fetched v i data →
    HasExec h v.node data.type

theorem graph_of_tuDfgSetGraph {threadCounts : List ℕ} {depth : ℕ} {dfg : TuDfg}
    (hset : tuDfgSetGraph depth h (newDfg threadCounts) (some g) = some dfg) :
    dfg.graph = some g ∧ ∃ gr, h.graph? g = some gr := by
  have hnew : (newDfg threadCounts).graph = none := graph_of_addWorkerGroup threadCounts _
  rw [tuDfgSetGraph, if_neg fun hne => hne.1 hnew] at hset
  obtain ⟨groups, hrun, rfl⟩ := Option.map_eq_some_iff.mp hset
  cases depth with
  | zero => cases hrun
  | succ depth =>
    obtain ⟨gr, hgr, -⟩ := Option.bind_eq_some_iff.mp hrun
    exact ⟨rfl, gr, hgr⟩

/-- An input of a node of the runner is one of the node in the heap. -/
theorem Represents.hasInput {k : ℕ} {r : Dfg.Runner (Fin k) (Executable h) W}
    (hr : Represents h g r) {n : Executable h} {type : TypeId}
    (htype : type ∈ (r.graph.node n).inputs) : HasInput h type n := by
  rw [(hr.node n).inputs] at htype
  exact ⟨n.get, n.exec?_val, htype⟩

variable [DecidableEq W] [DecidableEq C] [DecidableEq V]

/-- A run of a checked graph. -/
theorem dispatchSound_of_runs {dfg : TuDfg} {depth : ℕ} (hgroups : OnlyNodes h g dfg.groups)
    (hcheck : tuGraphCheck depth h g = some true)
    {r : Dfg.Runner (Fin dfg.groups.length) (Executable h) W} (hr : Runs h g dfg r)
    {ok : Dfg.State (Fin dfg.groups.length) (Executable h) W C V →
      Dfg.Action W C V → Prop}
    {s : Dfg.State (Fin dfg.groups.length) (Executable h) W C V}
    (hs : (Dfg.system r C V).Reaches ok s) : DispatchSound h s := by
  have hT := typed_of_reaches hs
  refine ⟨fun n type data hdata => (hT.queue (n, type) data hdata).1,
    fun c data n rest hc => ?_, fun w v i data result q queues nodes todo hw => ?_,
    fun w v i data hw => ?_⟩
  · have hclient := hT.client c
    rw [hc] at hclient
    obtain ⟨e, he, htype⟩ := hr.hasInput (hclient n List.mem_cons_self)
    obtain rfl := Option.some.inj (n.exec?_val.symm.trans he)
    exact ⟨n.get, he, (hr.node n).group ▸ (r.graph.node n).group.isLt, htype⟩
  · have hworker := hT.worker w
    rw [hw] at hworker
    obtain ⟨htype, hinput, -⟩ := hworker q List.mem_cons_self
    exact ⟨htype.symm, hr.hasInput hinput⟩
  · have hworker := dispatched_of_reaches hs w
    rw [hw] at hworker
    have hnode : v.node.val ∈ (dfg.groups.get (r.group w)).nodes := by
      rw [← hr.nodes]
      exact List.mem_map_of_mem (hworker.atHome v rfl)
    obtain ⟨hnodeOf, -⟩ := hgroups (r.group w) _
      (List.getElem?_eq_getElem (r.group w).isLt) v.node.val hnode
    exact hasExec_of_tuGraphCheck hcheck hnodeOf (hr.hasInput hworker.accepted)

/-- **Typed dispatch is sound.** -/
theorem dispatchSound_of_reaches {ok : Heap F → Action F → Prop} (hr : (system F).Reaches ok h)
    {threadCounts : List ℕ} {depth depth' : ℕ} {dfg : TuDfg}
    (hvalid : ∀ n e, h.exec? n = some e → e.group < dfg.groups.length)
    (hcheck : tuGraphCheck depth h g = some true)
    (hset : tuDfgSetGraph depth' h (newDfg threadCounts) (some g) = some dfg)
    (base : Groups (Fin dfg.groups.length) W) (maxDequeueCount : Fin dfg.groups.length → ℕ) :
    WellTyped h ∧ dfg.graph = some g ∧
      (∃ r, r.toGroups = base ∧ r.maxDequeueCount = maxDequeueCount ∧ Runs h g dfg r) ∧
      ∀ r : Dfg.Runner (Fin dfg.groups.length) (Executable h) W, Runs h g dfg r →
        ∀ s, (Dfg.system r C V).Reachable s → DispatchSound h s := by
  have hW := wellFormed_of_reaches hr
  have hgroups := onlyNodes_of_tuDfgSetGraph hset
  obtain ⟨hgraph, gr, hgr⟩ := graph_of_tuDfgSetGraph hset
  refine ⟨⟨hW.inputs, hW.outputs⟩, hgraph, ?_, fun r hr s hs =>
    dispatchSound_of_runs hgroups hcheck hr hs⟩
  exact exists_runs hW hgr hgroups (fun n => hvalid n.val n.get n.exec?_val) base maxDequeueCount

/-- A task for the type `1` with an edge to a state for the type `2`. -/
def typedHeap : Heap Unit :=
  (system Unit).replay .empty
    [⟨.graphCreate 0 (.ofList [1]) .empty, 1⟩,
      ⟨.task 1 (some 0) (.ofList [1]) (.ofList [2]) 0 1, 1⟩,
      ⟨.state 2 (some 0) (.ofList [2]) .empty 0, 1⟩,
      ⟨.addInput (some 0) (some 1) 1, 1⟩, ⟨.edges (some 1) (some 2), 1⟩,
      ⟨.exec (some 1) 1 (some ()), 1⟩, ⟨.exec (some 2) 2 (some ()), 1⟩]

/-- The dfg of one worker that has registered the graph. -/
def typedDfg : TuDfg := ⟨[⟨[1, 2], [{2, 1}]⟩], some 0⟩

/-- One worker in one group. -/
def oneWorker : Groups (Fin 1) Unit where
  groups := [0]
  workers := fun _ => [()]
  group := fun _ => 0
  mem_groups := by decide
  mem_workers := by decide
  nodup_workers := by decide

theorem reachable_typedHeap : (system Unit).Reachable typedHeap :=
  .replay (.start rfl) _ (by decide)

theorem group_typedHeap : ∀ n e, typedHeap.exec? n = some e →
    e.group < typedDfg.groups.length := by
  rintro (_ | _ | _ | n) e he
  all_goals cases he
  all_goals exact Nat.one_pos

theorem tuDfgSetGraph_typedHeap :
    tuDfgSetGraph 1 typedHeap (newDfg [1]) (some 0) = some typedDfg :=
  rfl

theorem dispatchSound_typedHeap : WellTyped typedHeap ∧ typedDfg.graph = some 0 ∧
    (∃ r, r.toGroups = oneWorker ∧ r.maxDequeueCount = (fun _ => 1) ∧
      Runs typedHeap 0 typedDfg r) ∧
    ∀ r : Dfg.Runner (Fin 1) (Executable typedHeap) Unit, Runs typedHeap 0 typedDfg r →
      ∀ s, (Dfg.system r Unit ℕ).Reachable s → DispatchSound typedHeap s := by
  have hcheck : tuGraphCheck 1 typedHeap 0 = some true := by decide
  exact dispatchSound_of_reaches reachable_typedHeap group_typedHeap hcheck
    tuDfgSetGraph_typedHeap oneWorker fun _ => 1

end Builder
end Dfg
end ThreadUtils
