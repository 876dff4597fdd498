import Mathlib.Data.Finset.Insert
import Mathlib.Data.Fintype.Sum
import ThreadUtils.Groups
import ThreadUtils.Transition.System

/-!
# The task manager

Groups of workers `G` share a queue and a semaphore each.  A push counts the operation
in `operation_counter`, puts it in the queue of a group and releases the semaphore.  A
worker that acquires a permit drains the queue: it executes a task on the spot, and
puts an operation of a state `S` in the queue of that state, which one worker at a time
drains.  Tasks that a running operation pushes to its own group wait in a small private
cache.  A client thread pushes operations, waits for the completion and finally shuts
the manager down.

The program counter of a thread names its next access.  What an operation does is not
fixed: while it runs, its worker may make any number of pushes before the operation
returns.  The queues of the groups and of the states give out any of their elements,
and may answer that they are empty when they are not.

The fields `issued` to `seen` record the history and are read by no step.
-/

namespace ThreadUtils
namespace TaskManager

variable {G W C S : Type*}

/-- `TU_TaskManagerOperation`: the state it belongs to, if any.  The identity `uid` tells
the calls of the push functions apart. -/
structure Operation (S : Type*) where
  uid : ℕ
  state : Option S
  deriving DecidableEq

/-- The next access of a call of `tu_tm_push_op`.  The call returns the push of the
operation `call`: this is the pushed one, or the new one that drove it out of a cache. -/
inductive PushPc (G S : Type*) where
  /-- `tm->operation_counter += 1`. -/
  | count (g : G) (op : Operation S) (call : ℕ)
  /-- `tm->groups[group].queue.push(..)`, before the element can be popped. -/
  | enqueue (g : G) (op : Operation S) (call : ℕ)
  /-- The rest of `push`, when the element can be popped. -/
  | complete (g : G) (call : ℕ)
  /-- `tm->groups[group].sem.release()`. -/
  | release (g : G) (call : ℕ)
  deriving DecidableEq

/-- The next access of a worker.  `p` is `processed_operation_count` in
`tu_tm_worker_process_operation_queue`, and `n` the one of the ownership loop. -/
inductive WorkerPc (S : Type*) where
  /-- `worker->parked.store(true)`. -/
  | park
  /-- `cond.notify_all()`. -/
  | notify
  /-- `sem.acquire()`. -/
  | acquire
  /-- `if (worker->can_terminate.load())`. -/
  | checkTerminate
  /-- `worker->parked.store(false)`. -/
  | unpark
  /-- `worker_pop_op`. -/
  | pop (p : ℕ)
  /-- `op->exec(..)` of a task. -/
  | exec (p : ℕ) (op : Operation S)
  /-- `state_push_op(op->state, op)`. -/
  | statePush (p : ℕ) (op : Operation S) (state : S)
  /-- `if (op->state->counter.fetch_add(1) == 0)`. -/
  | stateAdd (p : ℕ) (state : S)
  /-- `state_pop_op(op->state, &local_op)`. -/
  | statePop (p : ℕ) (state : S) (n : ℕ)
  /-- `local_op.exec(..)`. -/
  | stateExec (p : ℕ) (state : S) (n : ℕ) (op : Operation S)
  /-- `if (op->state->counter.fetch_sub(1) == 1)`. -/
  | stateSub (p : ℕ) (state : S) (n : ℕ)
  /-- `worker->cache.pop(&op)`. -/
  | cachePop (p : ℕ)
  /-- `op.exec(..)` in `worker_process_cache`. -/
  | cacheExec (p : ℕ) (op : Operation S)
  /-- `operation_counter -= processed_operation_count`. -/
  | sub (p : ℕ)
  /-- `assert(operation_counter.load() >= 0)`. -/
  | check
  | exited
  deriving DecidableEq

/-- The next access of a client thread, when it is not inside a push. -/
inductive ClientPc (G W : Type*) where
  | idle
  /-- `TU_Lock lck(tm->mutex)`. -/
  | waitLock
  /-- The predicate: `parked.load()` of the remaining workers, then the counter. -/
  | waitTest (rest : List W)
  /-- The predicate was false: unlock and block, in one step. -/
  | waitBlock
  | blocked
  /-- The condition variable locks the mutex again. -/
  | relock
  /-- The predicate was true: unlock and return. -/
  | waitReturn
  /-- `worker.can_terminate.store(true)` of the remaining workers of a group. -/
  | finiStore (rest : List W) (g : G) (groups : List G)
  /-- `group->sem.release(group->workers.size())`. -/
  | finiRelease (g : G) (groups : List G)
  /-- `worker.thread.join()` of the remaining workers of a group. -/
  | finiJoin (rest : List W) (groups : List G)
  deriving DecidableEq

/-- The operations in every place where they can be, and the counters about them. -/
structure Ledger (G W C S : Type*) where
  operationCounter : ℤ
  /-- `group->queue`. -/
  queue : G → List (Operation S)
  /-- The call of `tu_tm_push_op` that a thread is in. -/
  push : W ⊕ C → Option (PushPc G S)
  worker : W → WorkerPc S
  /-- `worker->cache`, the oldest element first. -/
  cache : W → List (Operation S)
  /-- `state->counter`. -/
  counter : S → ℕ
  /-- `state->queue`. -/
  stateQueue : S → List (Operation S)
  /-- The number of calls of the push functions. -/
  issued : ℕ
  /-- The operations whose push has returned. -/
  returned : Finset ℕ
  /-- The operations whose execution has begun, and those whose execution has ended. -/
  started : List ℕ
  executed : List ℕ
  /-- The calls of `tu_tm_worker_process_operation` for a state, and the sum of the
  values those calls returned. -/
  given : S → ℕ
  yielded : S → ℕ

/-- A task manager with its threads. -/
structure State (G W C S : Type*) extends Ledger G W C S where
  sem : G → ℕ
  parked : W → Bool
  canTerminate : W → Bool
  client : C → ClientPc G W
  mutex : Option C
  /-- The operations whose push had returned when a client began to evaluate the
  predicate for the last time. -/
  seen : C → Finset ℕ

/-- The state after `tu_tm_start`. -/
def initial : State G W C S where
  operationCounter := 0
  queue := fun _ => []
  push := fun _ => none
  worker := fun _ => .park
  cache := fun _ => []
  counter := fun _ => 0
  stateQueue := fun _ => []
  issued := 0
  returned := ∅
  started := []
  executed := []
  given := fun _ => 0
  yielded := fun _ => 0
  sem := fun _ => 0
  parked := fun _ => true
  canTerminate := fun _ => false
  client := fun _ => .idle
  mutex := none
  seen := fun _ => ∅

/-- What a thread may do next. -/
inductive Action (G W C S : Type*) where
  /-- A client, or an operation that runs on a worker, calls `tu_tm_push_op` (for an
  operation, possibly through `tu_tm_push_state`). -/
  | push (t : W ⊕ C) (g : G) (state : Option S)
  /-- The operation that runs on a worker calls `tu_tm_push_task`. -/
  | pushTask (w : W) (g : G)
  /-- The next access of a call of `tu_tm_push_op`. -/
  | pushing (t : W ⊕ C)
  /-- The operation that runs on a worker returns. -/
  | execReturn (w : W)
  /-- The next access of a worker.  `pick` is the element that a queue gives out, and
  `none` when it answers that it is empty. -/
  | worker (w : W) (pick : Option ℕ)
  /-- A client calls `tu_tm_wait_completion`. -/
  | wait (c : C)
  /-- A client calls `tu_tm_fini`. -/
  | fini (c : C)
  /-- The next access of a client. -/
  | client (c : C)
  /-- A spurious wake-up. -/
  | wake (c : C)

/-! ## The private cache -/

/-- The size of `worker->cache`. -/
def cacheSize : ℕ := 4

/-- `TU_CacheQueue::cache`: the cache with the new element at its end, and the element
that was driven out of a full cache. -/
def cacheInsert {α : Type*} (cache : List α) (value : α) : List α × Option α :=
  if cacheSize ≤ cache.length then (cache.tail ++ [value], cache.head?)
  else (cache ++ [value], none)

/-! ## The steps -/

/-- The operation that runs on a worker. -/
def WorkerPc.running : WorkerPc S → Option (Operation S)
  | .exec _ op | .stateExec _ _ _ op | .cacheExec _ op => some op
  | _ => none

/-- The program counter of a worker after the operation that runs on it returned. -/
def WorkerPc.afterExec : WorkerPc S → WorkerPc S
  | .exec p _ => .cachePop (p + 1)
  | .stateExec p state n _ => .stateSub p state (n + 1)
  | .cacheExec p _ => .cachePop p
  | pc => pc

variable [DecidableEq G] [DecidableEq W] [DecidableEq C] [DecidableEq S]

/-- The thread may call a push function. -/
def State.mayPush (s : State G W C S) : W ⊕ C → Prop
  | .inl w => (s.worker w).running.isSome ∧ s.push (.inl w) = none
  | .inr c => s.client c = .idle ∧ s.push (.inr c) = none

instance (s : State G W C S) (t : W ⊕ C) : Decidable (s.mayPush t) :=
  match t with
  | .inl _ => inferInstanceAs (Decidable (_ ∧ _))
  | .inr _ => inferInstanceAs (Decidable (_ ∧ _))

/-- `tu_tm_push_op`, when it is called. -/
def State.pushOp (s : State G W C S) (t : W ⊕ C) (g : G) (op : Operation S) (call : ℕ) :
    State G W C S :=
  { s with push := Function.update s.push t (some (.count g op call)) }

/-- `tu_tm_push_task`, called on the worker `w`. -/
def State.pushTask (tm : Groups G W) (s : State G W C S) (w : W) (g : G) : State G W C S :=
  let op : Operation S := ⟨s.issued, none⟩
  if tm.group w ≠ g then
    { s.pushOp (.inl w) g op s.issued with issued := s.issued + 1 }
  else
    match cacheInsert (s.cache w) op with
    | (cache, some old) =>
        { s.pushOp (.inl w) g old s.issued with
          cache := Function.update s.cache w cache, issued := s.issued + 1 }
    | (cache, none) =>
        { s with
          cache := Function.update s.cache w cache, issued := s.issued + 1
          returned := insert s.issued s.returned }

/-- The accesses of `tu_tm_push_op`. -/
def State.pushing (s : State G W C S) (t : W ⊕ C) : Option (State G W C S) :=
  match s.push t with
  | none => none
  | some (.count g op call) => some
      { s with
        operationCounter := s.operationCounter + 1
        push := Function.update s.push t (some (.enqueue g op call)) }
  | some (.enqueue g op call) => some
      { s with
        queue := Function.update s.queue g (s.queue g ++ [op])
        push := Function.update s.push t (some (.complete g call)) }
  | some (.complete g call) => some
      { s with push := Function.update s.push t (some (.release g call)) }
  | some (.release g call) => some
      { s with
        sem := Function.update s.sem g (s.sem g + 1)
        push := Function.update s.push t none
        returned := insert call s.returned }

/-- The return of the operation that runs on `w`. -/
def State.execReturn (s : State G W C S) (w : W) : Option (State G W C S) :=
  match (s.worker w).running with
  | some op =>
      if s.push (.inl w) = none then some
        { s with
          worker := Function.update s.worker w (s.worker w).afterExec
          executed := s.executed ++ [op.uid] }
      else none
  | none => none

/-- The accesses of `worker_run` and of the functions it calls. -/
def State.workerStep (tm : Groups G W) (s : State G W C S) (w : W) (pick : Option ℕ) :
    Option (State G W C S) :=
  match s.worker w with
  | .park => some
      { s with
        parked := Function.update s.parked w true
        worker := Function.update s.worker w .notify }
  | .notify => some
      { s with
        client := fun c => if s.client c = .blocked then .relock else s.client c
        worker := Function.update s.worker w .acquire }
  | .acquire =>
      if 0 < s.sem (tm.group w) then some
        { s with
          sem := Function.update s.sem (tm.group w) (s.sem (tm.group w) - 1)
          worker := Function.update s.worker w .checkTerminate }
      else none
  | .checkTerminate => some
      { s with
        worker := Function.update s.worker w (if s.canTerminate w then .exited else .unpark) }
  | .unpark => some
      { s with
        parked := Function.update s.parked w false
        worker := Function.update s.worker w (.pop 0) }
  | .pop p =>
      match pick with
      | none => some { s with worker := Function.update s.worker w (.sub p) }
      | some k => (s.queue (tm.group w))[k]?.map fun op =>
          let queue := Function.update s.queue (tm.group w) ((s.queue (tm.group w)).eraseIdx k)
          match op.state with
          | none =>
              { s with
                queue := queue
                worker := Function.update s.worker w (.exec p op)
                started := s.started ++ [op.uid] }
          | some state =>
              { s with
                queue := queue
                worker := Function.update s.worker w (.statePush p op state)
                given := Function.update s.given state (s.given state + 1) }
  | .statePush p op state => some
      { s with
        stateQueue := Function.update s.stateQueue state (s.stateQueue state ++ [op])
        worker := Function.update s.worker w (.stateAdd p state) }
  | .stateAdd p state => some
      { s with
        counter := Function.update s.counter state (s.counter state + 1)
        worker := Function.update s.worker w
          (if s.counter state = 0 then .statePop p state 0 else .cachePop p) }
  | .statePop p state n =>
      match pick with
      | none => some s
      | some k => (s.stateQueue state)[k]?.map fun op =>
          { s with
            stateQueue := Function.update s.stateQueue state ((s.stateQueue state).eraseIdx k)
            worker := Function.update s.worker w (.stateExec p state n op)
            started := s.started ++ [op.uid] }
  | .stateSub p state n =>
      if s.counter state = 1 then some
        { s with
          counter := Function.update s.counter state (s.counter state - 1)
          worker := Function.update s.worker w (.cachePop (p + n))
          yielded := Function.update s.yielded state (s.yielded state + n) }
      else some
        { s with
          counter := Function.update s.counter state (s.counter state - 1)
          worker := Function.update s.worker w (.statePop p state n) }
  | .cachePop p =>
      match (s.cache w).getLast? with
      | none => some { s with worker := Function.update s.worker w (.pop p) }
      | some op => some
          { s with
            cache := Function.update s.cache w (s.cache w).dropLast
            worker := Function.update s.worker w (.cacheExec p op)
            started := s.started ++ [op.uid] }
  | .sub p => some
      { s with
        operationCounter := s.operationCounter - p
        worker := Function.update s.worker w .check }
  | .check =>
      if 0 ≤ s.operationCounter then some { s with worker := Function.update s.worker w .park }
      else none
  | .exec _ _ | .stateExec _ _ _ _ | .cacheExec _ _ | .exited => none

/-- The begin of an evaluation of the predicate of `tu_tm_wait_completion`. -/
def State.beginTest (tm : Groups G W) (s : State G W C S) (c : C) : Option (State G W C S) :=
  match s.mutex with
  | some _ => none
  | none => some
      { s with
        mutex := some c
        client := Function.update s.client c (.waitTest tm.allWorkers)
        seen := Function.update s.seen c s.returned }

/-- `tu_tm_fini` at the next group. -/
def finiNext (tm : Groups G W) : List G → ClientPc G W
  | [] => .idle
  | g :: groups => .finiStore (tm.workers g) g groups

/-- The accesses of `tu_tm_wait_completion` and of `tu_tm_fini`. -/
def State.clientStep (tm : Groups G W) (s : State G W C S) (c : C) : Option (State G W C S) :=
  match s.client c with
  | .idle | .blocked => none
  | .waitLock | .relock => s.beginTest tm c
  | .waitTest (w :: rest) => some
      { s with
        client := Function.update s.client c
          (if s.parked w then .waitTest rest else .waitBlock) }
  | .waitTest [] => some
      { s with
        client := Function.update s.client c
          (if s.operationCounter = 0 then .waitReturn else .waitBlock) }
  | .waitBlock => some
      { s with mutex := none, client := Function.update s.client c .blocked }
  | .waitReturn => some
      { s with mutex := none, client := Function.update s.client c .idle }
  | .finiStore (w :: rest) g groups => some
      { s with
        canTerminate := Function.update s.canTerminate w true
        client := Function.update s.client c (.finiStore rest g groups) }
  | .finiStore [] g groups => some
      { s with client := Function.update s.client c (.finiRelease g groups) }
  | .finiRelease g groups => some
      { s with
        sem := Function.update s.sem g (s.sem g + (tm.workers g).length)
        client := Function.update s.client c (.finiJoin (tm.workers g) groups) }
  | .finiJoin (w :: rest) groups =>
      if s.worker w = .exited then some
        { s with client := Function.update s.client c (.finiJoin rest groups) }
      else none
  | .finiJoin [] groups => some
      { s with client := Function.update s.client c (finiNext tm groups) }

/-- One step of one thread. -/
def step (tm : Groups G W) (s : State G W C S) : Action G W C S → Option (State G W C S)
  | .push t g state =>
      if s.mayPush t then some
        { s.pushOp t g ⟨s.issued, state⟩ s.issued with issued := s.issued + 1 }
      else none
  | .pushTask w g => if s.mayPush (.inl w) then some (s.pushTask tm w g) else none
  | .pushing t => s.pushing t
  | .execReturn w => s.execReturn w
  | .worker w pick => s.workerStep tm w pick
  | .wait c =>
      if s.mayPush (.inr c) then some
        { s with client := Function.update s.client c .waitLock }
      else none
  | .fini c =>
      if s.mayPush (.inr c) then some
        { s with client := Function.update s.client c (finiNext tm tm.groups) }
      else none
  | .client c => s.clientStep tm c
  | .wake c =>
      if s.client c = .blocked then some
        { s with client := Function.update s.client c .relock }
      else none

/-- The task manager with the clients `C` and the states `S`. -/
def system (tm : Groups G W) (C S : Type*) [DecidableEq C] [DecidableEq S] :
    TransitionSystem (State G W C S) (Action G W C S) where
  init s := s = initial
  step := step tm

end TaskManager
end ThreadUtils
