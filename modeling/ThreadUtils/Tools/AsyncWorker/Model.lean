import Mathlib.Data.Fintype.Basic
import ThreadUtils.Transition.System

/-!
# The async worker

A `TU_AsyncWorker` is one thread that executes one job at a time.  Clients `C` hand it a
job with `tu_aw_exec`, wait for the end of the job with `tu_aw_wait` and stop it with
`tu_aw_fini`.  The worker and the clients wait on the same condition variable: the worker
until there is a job, a client until there is none.

The program counter of a thread names its next access.  `notify_one` wakes one of the
blocked threads, which is part of the action, and nobody when no thread is blocked.  The
fields `started` and `finiNotified` record the history and are read by no step.
-/

namespace ThreadUtils
namespace AsyncWorker

variable {C J : Type*}

/-- The threads that lock `aw->mutex` and wait on `aw->cv`. -/
inductive Thread (C : Type*) where
  | worker
  | client (c : C)
  deriving DecidableEq

/-- The next access of the worker in `tu_aw_run`. -/
inductive WorkerPc where
  /-- `TU_Lock lck(aw->mutex)`. -/
  | lock
  /-- The predicate `!aw->work_done || aw->can_terminate`. -/
  | test
  /-- The predicate was false: unlock and block, in one step. -/
  | block
  | blocked
  /-- The condition variable locks the mutex again. -/
  | relock
  /-- `if (aw->can_terminate)`; the break unlocks the mutex. -/
  | check
  /-- `aw->exec_data.exec_func(..)`, when it begins: a null function cannot be called. -/
  | exec
  /-- The return of `aw->exec_data.exec_func(..)`. -/
  | execReturn
  /-- `aw->work_done = true`. -/
  | setDone
  /-- `lck.unlock()`. -/
  | unlock
  /-- `aw->cv.notify_all()`. -/
  | notify
  | exited
  deriving DecidableEq

/-- The next access of a client. -/
inductive ClientPc (J : Type*) where
  | idle
  /-- `TU_Lock lck(aw->mutex)` in `tu_aw_exec`. -/
  | execLock (job : J)
  /-- The assertions, and `aw->exec_data = ..`. -/
  | execSet (job : J)
  /-- `aw->work_done = false`. -/
  | execClear
  /-- `lck.unlock()`. -/
  | execUnlock
  /-- `aw->cv.notify_one()`. -/
  | execNotify
  /-- `TU_Lock lck(aw->mutex)` in `tu_aw_wait`. -/
  | waitLock
  /-- `if (aw->work_done)`. -/
  | waitCheck
  /-- The predicate `aw->work_done || aw->can_terminate`. -/
  | waitTest
  /-- The predicate was false: unlock and block, in one step. -/
  | waitBlock
  | blocked
  /-- The condition variable locks the mutex again. -/
  | relock
  /-- Unlock and return. -/
  | waitReturn
  /-- `TU_Lock lck(aw->mutex)` in `tu_aw_fini`. -/
  | finiLock
  /-- `aw->can_terminate = true`. -/
  | finiSet
  /-- The end of the block unlocks the mutex. -/
  | finiUnlock
  /-- `aw->cv.notify_one()`. -/
  | finiNotify
  /-- `aw->thread.join()`. -/
  | finiJoin
  deriving DecidableEq

/-- An async worker with its clients. -/
structure State (C J : Type*) where
  mutex : Option (Thread C)
  workDone : Bool
  canTerminate : Bool
  execData : Option J
  worker : WorkerPc
  client : C → ClientPc J
  /-- The execution of the job of `exec_data` has begun. -/
  started : Bool
  /-- `tu_aw_fini` has called `notify_one`. -/
  finiNotified : Bool

/-- The state after `tu_aw_init`. -/
def initial : State C J where
  mutex := none
  workDone := true
  canTerminate := false
  execData := none
  worker := .lock
  client := fun _ => .idle
  started := false
  finiNotified := false

/-- What a thread may do next. -/
inductive Action (C J : Type*) where
  /-- The next access of the worker. -/
  | worker
  /-- A client calls `tu_aw_exec`. -/
  | exec (c : C) (job : J)
  /-- A client calls `tu_aw_wait`. -/
  | wait (c : C)
  /-- A client calls `tu_aw_fini`. -/
  | fini (c : C)
  /-- The next access of a client.  `woken` is the thread that a `notify_one` wakes. -/
  | client (c : C) (woken : Option (Thread C))
  /-- A spurious wake-up. -/
  | wake (t : Thread C)

/-- The thread is blocked in `cv.wait` and has not been notified. -/
def State.isBlocked (s : State C J) : Thread C → Prop
  | .worker => s.worker = .blocked
  | .client c => s.client c = .blocked

instance [DecidableEq J] (s : State C J) (t : Thread C) : Decidable (s.isBlocked t) :=
  match t with
  | .worker => inferInstanceAs (Decidable (s.worker = .blocked))
  | .client c => inferInstanceAs (Decidable (s.client c = .blocked))

variable [DecidableEq C] [DecidableEq J]

/-- The worker goes on to `pc`. -/
def State.goto (s : State C J) (pc : WorkerPc) : State C J :=
  { s with worker := pc }

/-- The client `c` goes on to `pc`. -/
def State.clientGoto (s : State C J) (c : C) (pc : ClientPc J) : State C J :=
  { s with client := Function.update s.client c pc }

/-- A blocked thread is woken: it has to lock the mutex again. -/
def State.wakeUp (s : State C J) : Thread C → State C J
  | .worker => s.goto .relock
  | .client c => s.clientGoto c .relock

/-- `notify_one`, when it wakes the thread `woken`. -/
def State.notifyOne [Fintype C] (s : State C J) (woken : Option (Thread C)) :
    Option (State C J) :=
  match woken with
  | some t => if s.isBlocked t then some (s.wakeUp t) else none
  | none =>
      if ¬ s.isBlocked .worker ∧ ∀ c, ¬ s.isBlocked (.client c) then some s else none

/-- `notify_all`. -/
def State.notifyAll (s : State C J) : State C J :=
  { s with
    worker := if s.worker = .blocked then .relock else s.worker
    client := fun c => if s.client c = .blocked then .relock else s.client c }

/-- The mutex is locked by `t`, if it is free. -/
def State.lock (s : State C J) (t : Thread C) : Option (State C J) :=
  if s.mutex = none then some { s with mutex := some t } else none

/-- The accesses of `tu_aw_run`. -/
def State.workerStep (s : State C J) : Option (State C J) :=
  match s.worker with
  | .lock | .relock => (s.lock .worker).map fun s => s.goto .test
  | .test => some (s.goto (if !s.workDone || s.canTerminate then .check else .block))
  | .block => some { s.goto .blocked with mutex := none }
  | .check =>
      if s.canTerminate then some { s.goto .exited with mutex := none }
      else some (s.goto .exec)
  | .exec => s.execData.map fun _ => { s.goto .execReturn with started := true }
  | .execReturn => some (s.goto .setDone)
  | .setDone => some { s.goto .unlock with workDone := true }
  | .unlock => some { s.goto .notify with mutex := none }
  | .notify => some (s.notifyAll.goto .lock)
  | .blocked | .exited => none

variable [Fintype C]

/-- The accesses of `tu_aw_exec`, `tu_aw_wait` and `tu_aw_fini`.  `tu_aw_exec` is only
called when its assertions hold. -/
def State.clientStep (s : State C J) (c : C) (woken : Option (Thread C)) :
    Option (State C J) :=
  match s.client c with
  | .execLock job => (s.lock (.client c)).map fun s => s.clientGoto c (.execSet job)
  | .execSet job =>
      if s.workDone ∧ ¬ s.canTerminate then some
        { s.clientGoto c .execClear with execData := some job, started := false }
      else none
  | .execClear => some { s.clientGoto c .execUnlock with workDone := false }
  | .execUnlock => some { s.clientGoto c .execNotify with mutex := none }
  | .execNotify => (s.notifyOne woken).map fun s => s.clientGoto c .idle
  | .waitLock => (s.lock (.client c)).map fun s => s.clientGoto c .waitCheck
  | .waitCheck => some (s.clientGoto c (if s.workDone then .waitReturn else .waitTest))
  | .relock => (s.lock (.client c)).map fun s => s.clientGoto c .waitTest
  | .waitTest =>
      some (s.clientGoto c (if s.workDone || s.canTerminate then .waitReturn else .waitBlock))
  | .waitBlock => some { s.clientGoto c .blocked with mutex := none }
  | .waitReturn => some { s.clientGoto c .idle with mutex := none }
  | .finiLock => (s.lock (.client c)).map fun s => s.clientGoto c .finiSet
  | .finiSet => some { s.clientGoto c .finiUnlock with canTerminate := true }
  | .finiUnlock => some { s.clientGoto c .finiNotify with mutex := none }
  | .finiNotify =>
      (s.notifyOne woken).map fun s => { s.clientGoto c .finiJoin with finiNotified := true }
  | .finiJoin => if s.worker = .exited then some (s.clientGoto c .idle) else none
  | .idle | .blocked => none

/-- One step of one thread. -/
def step (s : State C J) : Action C J → Option (State C J)
  | .worker => s.workerStep
  | .exec c job => if s.client c = .idle then some (s.clientGoto c (.execLock job)) else none
  | .wait c => if s.client c = .idle then some (s.clientGoto c .waitLock) else none
  | .fini c => if s.client c = .idle then some (s.clientGoto c .finiLock) else none
  | .client c woken => s.clientStep c woken
  | .wake t => if s.isBlocked t then some (s.wakeUp t) else none

/-- The async worker with the clients `C` and the jobs `J`. -/
def system (C J : Type*) [Fintype C] [DecidableEq C] [DecidableEq J] :
    TransitionSystem (State C J) (Action C J) where
  init s := s = initial
  step := step

end AsyncWorker
end ThreadUtils
