import Mathlib.Data.Int.Order.Basic
import ThreadUtils.Dfg.Graph
import ThreadUtils.Groups
import ThreadUtils.Transition.System

/-!
# The graph runner

The nodes of a graph are registered in the worker groups.  Whoever puts a datum in a
queue of a node releases the semaphore of the group of that node, and a worker that
acquires a permit passes over the nodes of its group until a pass has processed nothing.
The counter `thread_count` of a node bounds how many workers process it at a time: a
worker that finds the node at its limit goes on to the next node.

The program counter of a thread names its next access.  What a node does with a datum is
not fixed: when its execution begins, any list of results is chosen for it, and each is
passed to `tu_result` before the execution returns.

The flag `parked` of a worker is written and never read, and left out.  The fields
`pushed` to `received` record the history and are read by no step.
-/

namespace ThreadUtils
namespace Dfg

variable {G N W C V : Type*}

/-- A graph with the groups that execute it. -/
structure Runner (G N W : Type*) extends Groups G W where
  graph : Graph G N
  maxDequeueCount : G → ℕ
  /-- `group->nodes`, after `dfg_register_nodes`. -/
  nodes : G → List N
  group_of_mem : ∀ g n, n ∈ nodes g → (graph.node n).group = g

/-- The local variables of `worker_process_queues`, with `worker->process_count`. -/
structure Visit (N : Type*) where
  nodeIdx : ℕ
  node : N
  processCount : ℕ
  deriving DecidableEq

/-- The next access of the execution of a node, whose remaining results are `todo`. -/
inductive ExecPc (N V : Type*) where
  /-- The next call of `tu_result`, or the return of the execution. -/
  | run (todo : List (GraphData V))
  /-- `cond.notify_all()`. -/
  | notify (data : GraphData V) (todo : List (GraphData V))
  /-- `queue->push(data)` of the remaining queues. -/
  | push (data : GraphData V) (queues : List (NodeQueue N)) (nodes : List N)
      (todo : List (GraphData V))
  /-- `sem.release()` for the remaining nodes. -/
  | release (nodes : List N) (todo : List (GraphData V))
  deriving DecidableEq

/-- The next access of a worker. -/
inductive WorkerPc (N V : Type*) where
  /-- `sem.acquire()`. -/
  | acquire
  /-- `if (worker->can_terminate.load())`. -/
  | checkTerminate
  /-- `if (thread_count.load() < max_thread_count)`. -/
  | load (v : Visit N)
  /-- `if (thread_count.fetch_add(1) < max_thread_count)`. -/
  | fetchAdd (v : Visit N)
  /-- `input.queue.pop(data)` for the remaining input types, in the loop iteration `i` of
  `worker_process_task_queue`. -/
  | dequeue (v : Visit N) (i : ℕ) (types : List TypeId)
  /-- `input->second.exec(..)`, when it begins. -/
  | fetched (v : Visit N) (i : ℕ) (data : GraphData V)
  /-- `input->second.exec(..)`. -/
  | exec (v : Visit N) (i : ℕ) (data : GraphData V) (e : ExecPc N V)
  /-- `thread_count -= 1`. -/
  | decrement (v : Visit N)
  | exited
  /-- `assert(node_idx < worker->group->nodes.size())` has failed. -/
  | abort
  deriving DecidableEq

/-- The next access of a client thread. -/
inductive ClientPc (G N W V : Type*) where
  | idle
  /-- `inputs[data->type].queue.push(*data)` in `tu_internal_node_enqueue`. -/
  | enqueue (data : GraphData V) (n : N) (rest : List N)
  /-- `sem.release()` in `tu_internal_node_enqueue`. -/
  | release (data : GraphData V) (n : N) (rest : List N)
  /-- `TU_Lock lck(dfg->mutex)`. -/
  | waitLock
  /-- The predicate `result_queue.pop(&result)`. -/
  | waitTest
  /-- The predicate was false: unlock and block, in one step. -/
  | waitBlock
  | blocked
  /-- The condition variable locks the mutex again. -/
  | relock
  /-- The predicate was true: unlock and return. -/
  | waitReturn (result : GraphData V)
  /-- `worker.can_terminate.store(true)` of the remaining workers of a group. -/
  | termStore (rest : List W) (g : G) (groups : List G)
  /-- `group->sem.release(group->workers.size())`. -/
  | termRelease (g : G) (groups : List G)
  /-- `worker->thread.join()` of the remaining workers of a group. -/
  | termJoin (rest : List W) (groups : List G)
  deriving DecidableEq

/-- A graph runner with its threads. -/
structure State (G N W C V : Type*) where
  queue : NodeQueue N → List (GraphData V)
  /-- `sink.result_queue`, for the graph of this number. -/
  resultQueue : ℕ → List (GraphData V)
  threadCount : N → ℤ
  sem : G → ℕ
  canTerminate : W → Bool
  worker : W → WorkerPc N V
  client : C → ClientPc G N W V
  mutex : Option C
  /-- What has been pushed to a queue. -/
  pushed : NodeQueue N → List (GraphData V)
  /-- The executions that have begun. -/
  executed : List (N × GraphData V)
  /-- What has been pushed to the sink of a graph. -/
  sunk : ℕ → List (GraphData V)
  /-- The data that `tu_dfg_push_data` was called with. -/
  received : List (GraphData V)

/-- The state after `tu_dfg_exec`. -/
def initial : State G N W C V where
  queue := fun _ => []
  resultQueue := fun _ => []
  threadCount := fun _ => 0
  sem := fun _ => 0
  canTerminate := fun _ => false
  worker := fun _ => .acquire
  client := fun _ => .idle
  mutex := none
  pushed := fun _ => []
  executed := []
  sunk := fun _ => []
  received := []

/-- What a thread may do next. -/
inductive Action (W C V : Type*) where
  /-- The next access of a worker.  When the execution of a node begins, `results` are the
  arguments of its calls of `tu_result`. -/
  | worker (w : W) (results : List (GraphData V))
  /-- A client calls `tu_dfg_push_data`. -/
  | pushData (c : C) (data : GraphData V)
  /-- A client calls `tu_dfg_wait_result`. -/
  | waitResult (c : C)
  /-- A client calls `tu_dfg_term`. -/
  | term (c : C)
  /-- The next access of a client. -/
  | client (c : C)
  /-- A spurious wake-up. -/
  | wake (c : C)

/-! ## The loop of `worker_process_queues` -/

/-- The loop at the index `k`, with the process count `p`. -/
def Runner.enter (dfg : Runner G N W) (g : G) (k p : ℕ) : WorkerPc N V :=
  match (dfg.nodes g)[k]? with
  | some n => .load ⟨k, n, p⟩
  | none => .abort

/-- The end of a loop iteration. -/
def Runner.next (dfg : Runner G N W) (g : G) (v : Visit N) : WorkerPc N V :=
  if (dfg.nodes g).length ≤ v.nodeIdx + 1 then
    if v.processCount = 0 then .acquire else dfg.enter g 0 0
  else dfg.enter g (v.nodeIdx + 1) v.processCount

/-- `tu_internal_node_dequeue`, when it is called. -/
def Runner.beginDequeue (dfg : Runner G N W) (v : Visit N) (i : ℕ) : WorkerPc N V :=
  .dequeue v i (dfg.graph.node v.node).inputs

/-- The return of `worker_node_exec`: `worker_process_state_queue` goes on, and
`worker_process_task_queue` does so up to `max_dequeue_count` times. -/
def Runner.afterExec (dfg : Runner G N W) (g : G) (v : Visit N) (i : ℕ) : WorkerPc N V :=
  let v' := { v with processCount := v.processCount + 1 }
  match (dfg.graph.node v.node).kind with
  | .state => dfg.beginDequeue v' i
  | .task =>
      if i + 1 < dfg.maxDequeueCount g then dfg.beginDequeue v' (i + 1) else .decrement v'

/-- `tu_result` after its write to the sink. -/
def Graph.afterSink (graph : Graph G N) (n : N) (data : GraphData V)
    (todo : List (GraphData V)) : ExecPc N V :=
  match (graph.node n).outputs data.type with
  | some output => .push data output.queues output.nodes todo
  | none => .run todo

/-! ## The steps -/

variable [DecidableEq G] [DecidableEq N] [DecidableEq W] [DecidableEq C] [DecidableEq V]

/-- The push of a datum to the queue of a node. -/
def State.push (s : State G N W C V) (q : NodeQueue N) (data : GraphData V) :
    State G N W C V :=
  { s with
    queue := Function.update s.queue q (s.queue q ++ [data])
    pushed := Function.update s.pushed q (s.pushed q ++ [data]) }

/-- `tu_internal_node_notify_workers`. -/
def State.release (dfg : Runner G N W) (s : State G N W C V) (n : N) : State G N W C V :=
  let g := (dfg.graph.node n).group
  { s with sem := Function.update s.sem g (s.sem g + 1) }

/-- The worker `w` goes on to `pc`. -/
def State.goto (s : State G N W C V) (w : W) (pc : WorkerPc N V) : State G N W C V :=
  { s with worker := Function.update s.worker w pc }

/-- The client `c` goes on to `pc`. -/
def State.clientGoto (s : State G N W C V) (c : C) (pc : ClientPc G N W V) :
    State G N W C V :=
  { s with client := Function.update s.client c pc }

/-- The accesses of the execution of a node: the calls of `tu_result` and the return. -/
def State.execStep (dfg : Runner G N W) (s : State G N W C V) (w : W) (v : Visit N) (i : ℕ)
    (data : GraphData V) : ExecPc N V → State G N W C V
  | .run [] => s.goto w (dfg.afterExec (dfg.group w) v i)
  | .run (⟨none, _⟩ :: todo) => s.goto w (.exec v i data (.run todo))
  | .run (result :: todo) =>
      match dfg.graph.sinkOf v.node result.type with
      | some k =>
          { s.goto w (.exec v i data (.notify result todo)) with
            resultQueue := Function.update s.resultQueue k (s.resultQueue k ++ [result])
            sunk := Function.update s.sunk k (s.sunk k ++ [result]) }
      | none => s.goto w (.exec v i data (dfg.graph.afterSink v.node result todo))
  | .notify result todo =>
      { s.goto w (.exec v i data (dfg.graph.afterSink v.node result todo)) with
        client := fun c => if s.client c = .blocked then .relock else s.client c }
  | .push result (q :: queues) nodes todo =>
      (s.push q result).goto w (.exec v i data (.push result queues nodes todo))
  | .push _ [] nodes todo => s.goto w (.exec v i data (.release nodes todo))
  | .release (n :: nodes) todo =>
      (s.release dfg n).goto w (.exec v i data (.release nodes todo))
  | .release [] todo => s.goto w (.exec v i data (.run todo))

/-- The accesses of `worker_run` and of the functions it calls. -/
def State.workerStep (dfg : Runner G N W) (s : State G N W C V) (w : W)
    (results : List (GraphData V)) : Option (State G N W C V) :=
  match s.worker w with
  | .acquire =>
      if 0 < s.sem (dfg.group w) then some
        { s.goto w .checkTerminate with
          sem := Function.update s.sem (dfg.group w) (s.sem (dfg.group w) - 1) }
      else none
  | .checkTerminate => some
      (s.goto w (if s.canTerminate w then .exited else dfg.enter (dfg.group w) 0 0))
  | .load v => some
      (s.goto w (if s.threadCount v.node < (dfg.graph.node v.node).maxThreadCount
        then .fetchAdd v else dfg.next (dfg.group w) v))
  | .fetchAdd v => some
      { s.goto w (if s.threadCount v.node < (dfg.graph.node v.node).maxThreadCount
          then dfg.beginDequeue v 0 else .decrement v) with
        threadCount := Function.update s.threadCount v.node (s.threadCount v.node + 1) }
  | .dequeue v i (type :: types) =>
      match s.queue (v.node, type) with
      | data :: rest => some
          { s.goto w (.fetched v i data) with
            queue := Function.update s.queue (v.node, type) rest }
      | [] => some (s.goto w (.dequeue v i types))
  | .dequeue v _ [] => some (s.goto w (.decrement v))
  | .fetched v i data => some
      { s.goto w (.exec v i data (.run results)) with
        executed := s.executed ++ [(v.node, data)] }
  | .exec v i data e => some (s.execStep dfg w v i data e)
  | .decrement v => some
      { s.goto w (dfg.next (dfg.group w) v) with
        threadCount := Function.update s.threadCount v.node (s.threadCount v.node - 1) }
  | .exited | .abort => none

/-- `tu_dfg_push_data` at the next input node. -/
def pushNext (data : GraphData V) : List N → ClientPc G N W V
  | [] => .idle
  | n :: rest => .enqueue data n rest

/-- `tu_dfg_term` at the next group. -/
def Runner.termNext (dfg : Runner G N W) : List G → ClientPc G N W V
  | [] => .idle
  | g :: groups => .termStore (dfg.workers g) g groups

/-- The accesses of `tu_dfg_push_data`, `tu_dfg_wait_result` and `tu_dfg_term`. -/
def State.clientStep (dfg : Runner G N W) (s : State G N W C V) (c : C) :
    Option (State G N W C V) :=
  match s.client c with
  | .idle | .blocked => none
  | .enqueue data n rest => some
      ((s.push (n, data.type) data).clientGoto c (.release data n rest))
  | .release data n rest => some ((s.release dfg n).clientGoto c (pushNext data rest))
  | .waitLock | .relock =>
      match s.mutex with
      | some _ => none
      | none => some { s.clientGoto c .waitTest with mutex := some c }
  | .waitTest =>
      match s.resultQueue dfg.graph.id with
      | result :: rest => some
          { s.clientGoto c (.waitReturn result) with
            resultQueue := Function.update s.resultQueue dfg.graph.id rest }
      | [] => some (s.clientGoto c .waitBlock)
  | .waitBlock => some { s.clientGoto c .blocked with mutex := none }
  | .waitReturn _ => some { s.clientGoto c .idle with mutex := none }
  | .termStore (w :: rest) g groups => some
      { s.clientGoto c (.termStore rest g groups) with
        canTerminate := Function.update s.canTerminate w true }
  | .termStore [] g groups => some (s.clientGoto c (.termRelease g groups))
  | .termRelease g groups => some
      { s.clientGoto c (.termJoin (dfg.workers g) groups) with
        sem := Function.update s.sem g (s.sem g + (dfg.workers g).length) }
  | .termJoin (w :: rest) groups =>
      if s.worker w = .exited then some (s.clientGoto c (.termJoin rest groups)) else none
  | .termJoin [] groups => some (s.clientGoto c (dfg.termNext groups))

/-- One step of one thread. -/
def step (dfg : Runner G N W) (s : State G N W C V) : Action W C V → Option (State G N W C V)
  | .worker w results => s.workerStep dfg w results
  | .pushData c data =>
      if s.client c = .idle then some
        { s.clientGoto c (pushNext data ((dfg.graph.inputs data.type).getD [])) with
          received := s.received ++ [data] }
      else none
  | .waitResult c => if s.client c = .idle then some (s.clientGoto c .waitLock) else none
  | .term c => if s.client c = .idle then some (s.clientGoto c (dfg.termNext dfg.groups)) else none
  | .client c => s.clientStep dfg c
  | .wake c => if s.client c = .blocked then some (s.clientGoto c .relock) else none

/-- The graph runner with the clients `C` and the values `V`. -/
def system (dfg : Runner G N W) (C V : Type*) [DecidableEq C] [DecidableEq V] :
    TransitionSystem (State G N W C V) (Action W C V) where
  init s := s = initial
  step := step dfg

end Dfg
end ThreadUtils
