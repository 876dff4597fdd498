import Mathlib.Data.Finset.Lattice.Basic
import Mathlib.Order.Interval.Finset.Nat
import ThreadUtils.Transition.System

/-!
# The thread pool

Clients `C` launch jobs on handles `H` with `tu_tp_exec` and `tu_tp_lauch`, and wait for
all jobs of a handle with `tu_tp_op_wait`.  The jobs of all handles share one queue and one
semaphore: a launch stores `process_count`, pushes its jobs and then releases one permit
for each of them.  A worker `W` that acquires a permit pops jobs until the queue is empty;
after a job it decrements `process_count` under the mutex of the handle, and notifies the
condition variable of the handle when it has reached `0`.

The program counter of a thread names its next access.  The queue is a `TU_LockFreeQueue`,
whose operations take effect at one instant each: a push and a pop are one access.  What a
job does is not part of the model.

The flag `work_done` of a worker and the durations are written and never read, and left
out.  The fields `issued` to `status` record the history and are read by no step.
-/

namespace ThreadUtils
namespace ThreadPool

variable {C H W : Type*}

/-- The workers of a pool in their order, and the client each handle belongs to. -/
structure Pool (C H W : Type*) where
  workers : List W
  mem_workers : ∀ w, w ∈ workers
  nodup_workers : workers.Nodup
  owner : H → C

/-- `TU_ThreadPoolOperation`: its handle.  The identity `uid` tells the jobs apart. -/
structure Operation (H : Type*) where
  uid : ℕ
  handle : H
  deriving DecidableEq

/-- The next access of a worker. -/
inductive WorkerPc (H : Type*) where
  /-- `sem.acquire()`. -/
  | acquire
  /-- `if (worker->can_terminate.load())`. -/
  | checkTerminate
  /-- `pool->operation_queue.pop(op)`. -/
  | pop
  /-- `op.exec_data.exec_func(..)`, when it begins. -/
  | exec (op : Operation H)
  /-- The return of `op.exec_data.exec_func(..)`. -/
  | execReturn (op : Operation H)
  /-- `TU_Lock lck(op->handle->mutex)`. -/
  | lock (op : Operation H)
  /-- `op->handle->process_count -= 1`. -/
  | decrement (op : Operation H)
  /-- `if (op->handle->process_count == 0)`. -/
  | test (handle : H)
  /-- `op->handle->cv.notify_all()`. -/
  | notify (handle : H)
  /-- The return from `tu_tp_progress_op` unlocks the mutex. -/
  | unlock (handle : H)
  | exited
  deriving DecidableEq

/-- The next access of a client. -/
inductive ClientPc (H W : Type*) where
  | idle
  /-- `op_handle->process_count = jobs_len`. -/
  | setCount (handle : H) (jobsLen : ℕ)
  /-- `pool->operation_queue.push(..)` of the remaining jobs. -/
  | push (rest : List (Operation H)) (jobsLen : ℕ)
  /-- `pool->sem.release(jobs_len)`. -/
  | release (jobsLen : ℕ)
  /-- `TU_Lock lck(op_handle->mutex)`. -/
  | waitLock (handle : H)
  /-- The predicate `tu_tp_op_done(op_handle)`. -/
  | waitTest (handle : H)
  /-- The predicate was false: unlock and block, in one step. -/
  | waitBlock (handle : H)
  | blocked (handle : H)
  /-- The condition variable locks the mutex again. -/
  | relock (handle : H)
  /-- The predicate was true: unlock and return. -/
  | waitReturn (handle : H)
  /-- `worker.can_terminate.store(true)` of the remaining workers. -/
  | finiStore (rest : List W)
  /-- `pool->sem.release(pool->workers.size())`. -/
  | finiRelease
  /-- `worker.thread.join()` of the remaining workers. -/
  | finiJoin (rest : List W)
  deriving DecidableEq

/-- What the client of a handle has done with it last. -/
inductive HandleStatus where
  | unused
  | launched
  | waited
  deriving DecidableEq

/-- A thread pool with its threads. -/
structure State (C H W : Type*) where
  sem : ℕ
  queue : List (Operation H)
  processCount : H → ℤ
  mutex : H → Option (W ⊕ C)
  worker : W → WorkerPc H
  canTerminate : W → Bool
  client : C → ClientPc H W
  /-- The number of jobs so far. -/
  issued : ℕ
  /-- The jobs that were launched on a handle. -/
  jobs : H → Finset ℕ
  /-- The jobs whose execution has begun, has returned, and was subtracted from
  `process_count`. -/
  started : List ℕ
  finished : List ℕ
  recorded : List ℕ
  status : H → HandleStatus

/-- The state after `tu_tp_init`. -/
def initial : State C H W where
  sem := 0
  queue := []
  processCount := fun _ => 0
  mutex := fun _ => none
  worker := fun _ => .acquire
  canTerminate := fun _ => false
  client := fun _ => .idle
  issued := 0
  jobs := fun _ => ∅
  started := []
  finished := []
  recorded := []
  status := fun _ => .unused

/-- What a thread may do next. -/
inductive Action (C H W : Type*) where
  /-- The next access of a worker. -/
  | worker (w : W)
  /-- A client calls `tu_tp_exec`. -/
  | exec (c : C) (handle : H)
  /-- A client calls `tu_tp_lauch`. -/
  | lauch (c : C) (handle : H) (jobsLen : ℕ)
  /-- A client calls `tu_tp_op_wait`. -/
  | opWait (c : C) (handle : H)
  /-- A client calls `tu_tp_fini`. -/
  | fini (c : C)
  /-- The next access of a client. -/
  | client (c : C)
  /-- A spurious wake-up. -/
  | wake (c : C)

/-- The jobs of a launch, in the order of the array. -/
def launchedJobs (issued : ℕ) (handle : H) (jobsLen : ℕ) : List (Operation H) :=
  (List.range' issued jobsLen).map fun uid => ⟨uid, handle⟩

variable [DecidableEq C] [DecidableEq H] [DecidableEq W]

/-- `tu_tp_op_done`. -/
def State.opDone (s : State C H W) (handle : H) : Bool :=
  s.processCount handle = 0

/-- The worker `w` goes on to `pc`. -/
def State.goto (s : State C H W) (w : W) (pc : WorkerPc H) : State C H W :=
  { s with worker := Function.update s.worker w pc }

/-- The client `c` goes on to `pc`. -/
def State.clientGoto (s : State C H W) (c : C) (pc : ClientPc H W) : State C H W :=
  { s with client := Function.update s.client c pc }

/-- The mutex of a handle is locked by `t`, if it is free. -/
def State.lock (s : State C H W) (handle : H) (t : W ⊕ C) : Option (State C H W) :=
  if s.mutex handle = none then
    some { s with mutex := Function.update s.mutex handle (some t) }
  else none

/-- The mutex of a handle is unlocked. -/
def State.unlock (s : State C H W) (handle : H) : State C H W :=
  { s with mutex := Function.update s.mutex handle none }

/-- `cv.notify_all()` of a handle. -/
def State.notifyAll (s : State C H W) (handle : H) : State C H W :=
  { s with
    client := fun c => if s.client c = .blocked handle then .relock handle else s.client c }

/-- The accesses of `tu_tp_worker_run` and of the functions it calls. -/
def State.workerStep (s : State C H W) (w : W) : Option (State C H W) :=
  match s.worker w with
  | .acquire =>
      if 0 < s.sem then some { s.goto w .checkTerminate with sem := s.sem - 1 } else none
  | .checkTerminate => some (s.goto w (if s.canTerminate w then .exited else .pop))
  | .pop =>
      match s.queue with
      | op :: rest => some { s.goto w (.exec op) with queue := rest }
      | [] => some (s.goto w .acquire)
  | .exec op => some { s.goto w (.execReturn op) with started := s.started ++ [op.uid] }
  | .execReturn op => some { s.goto w (.lock op) with finished := s.finished ++ [op.uid] }
  | .lock op => (s.lock op.handle (.inl w)).map fun s => s.goto w (.decrement op)
  | .decrement op => some
      { s.goto w (.test op.handle) with
        processCount :=
          Function.update s.processCount op.handle (s.processCount op.handle - 1)
        recorded := s.recorded ++ [op.uid] }
  | .test h => some (s.goto w (if s.opDone h then .notify h else .unlock h))
  | .notify h => some ((s.notifyAll h).goto w (.unlock h))
  | .unlock h => some ((s.unlock h).goto w .pop)
  | .exited => none

/-- The accesses of `tu_tp_exec`, `tu_tp_lauch`, `tu_tp_op_wait` and `tu_tp_fini`. -/
def State.clientStep (pool : Pool C H W) (s : State C H W) (c : C) : Option (State C H W) :=
  match s.client c with
  | .idle | .blocked _ => none
  | .setCount h n => some
      { s.clientGoto c (.push (launchedJobs s.issued h n) n) with
        processCount := Function.update s.processCount h n
        issued := s.issued + n
        jobs := Function.update s.jobs h (s.jobs h ∪ Finset.Ico s.issued (s.issued + n))
        status := Function.update s.status h .launched }
  | .push (op :: rest) n => some
      { s.clientGoto c (.push rest n) with queue := s.queue ++ [op] }
  | .push [] n => some (s.clientGoto c (.release n))
  | .release n => some { s.clientGoto c .idle with sem := s.sem + n }
  | .waitLock h | .relock h => (s.lock h (.inr c)).map fun s => s.clientGoto c (.waitTest h)
  | .waitTest h => some (s.clientGoto c (if s.opDone h then .waitReturn h else .waitBlock h))
  | .waitBlock h => some ((s.unlock h).clientGoto c (.blocked h))
  | .waitReturn h => some
      { (s.unlock h).clientGoto c .idle with
        status := Function.update s.status h .waited }
  | .finiStore (w :: rest) => some
      { s.clientGoto c (.finiStore rest) with
        canTerminate := Function.update s.canTerminate w true }
  | .finiStore [] => some (s.clientGoto c .finiRelease)
  | .finiRelease => some
      { s.clientGoto c (.finiJoin pool.workers) with sem := s.sem + pool.workers.length }
  | .finiJoin (w :: rest) =>
      if s.worker w = .exited then some (s.clientGoto c (.finiJoin rest)) else none
  | .finiJoin [] => some (s.clientGoto c .idle)

/-- One step of one thread.  `tu_tp_exec` does what `tu_tp_lauch` does for one job. -/
def step (pool : Pool C H W) (s : State C H W) : Action C H W → Option (State C H W)
  | .worker w => s.workerStep w
  | .exec c h => if s.client c = .idle then some (s.clientGoto c (.setCount h 1)) else none
  | .lauch c h n => if s.client c = .idle then some (s.clientGoto c (.setCount h n)) else none
  | .opWait c h => if s.client c = .idle then some (s.clientGoto c (.waitLock h)) else none
  | .fini c => if s.client c = .idle then some (s.clientGoto c (.finiStore pool.workers)) else none
  | .client c => s.clientStep pool c
  | .wake c =>
      match s.client c with
      | .blocked h => some (s.clientGoto c (.relock h))
      | _ => none

/-- The thread pool with its clients, handles and workers. -/
def system (pool : Pool C H W) : TransitionSystem (State C H W) (Action C H W) where
  init s := s = initial
  step := step pool

end ThreadPool
end ThreadUtils
