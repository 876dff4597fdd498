import ThreadUtils.Mpi.Receiver
import ThreadUtils.Transition.System

/-!
# A communicator on every rank

Every rank has a communicator with its progress thread.  A function of the user gives a package to
`tu_comm_send`, which pushes it to `package_queue` and signals the worker of UCX.  The progress
thread sends the packages one by one in `process_send_ops`, each time waiting for the request, and
then receives in `process_recv_ops` what the handler has left in `rndv_queue`.

## UCX

UCX is taken as it is documented.  A message is on the wire until it arrives; `ucp_worker_progress`
calls the handler for messages that have arrived; `ucp_worker_wait` returns after a signal or when
a message has arrived, and not before.  The protocol depends on the size of the data: the request
of an eager send completes by itself, the request of a rendezvous send when the receiver has
received the data with `ucp_am_recv_data_nbx`.  There is no endpoint to the own rank.

## The two ways to wait

The main loop sleeps in `ucp_worker_wait`.  `ucx_request_wait` does not: it lets UCX make progress
and reads the status of the request until it is no longer in progress.  An iteration of this loop
that finds the request in progress is a step `poll`, which changes nothing, and may be made at any
time.  What UCX does in it, a call of the handler, is a step `handle`; the iteration that finds the
request complete is the next `step` of the thread.

The receiving half is the communicator of `Mpi.CommTask`, whose messages carry here the rank that
they come from.
-/

namespace ThreadUtils
namespace Cluster

open Dfg (TypeId)
open Comm (CommNode)

variable {ι D E : Type*}

/-- `TU_CommPackage`. -/
structure Package (ι D : Type*) where
  data : D
  size : ℕ
  type : TypeId
  dest : ι
  /-- `on_send` is not null. -/
  onSend : Bool
  deriving DecidableEq

/-- What a message carries, with the rank that sends it. -/
structure Parcel (ι D : Type*) where
  src : ι
  package : Package ι D
  deriving DecidableEq

/-- The message that the handler of the receiver gets. -/
def Parcel.message (usesRndv : ℕ → Bool) (x : Parcel ι D) : Comm.Message (Parcel ι D) where
  data := x
  length := x.package.size
  type := x.package.type
  rndv := usesRndv x.package.size

/-- The next access of a progress thread. -/
inductive Pc (ι D : Type*) where
  /-- `if (comm->can_terminate.load())`, before UCX makes progress. -/
  | check
  /-- `ucp_worker_progress`, which has called the handler or not. -/
  | progress (called : Bool)
  /-- `ucp_worker_wait`. -/
  | wait
  /-- `if (comm->can_terminate.load())`, after UCX has made progress. -/
  | recheck
  /-- `comm->package_queue.pop(&package)`. -/
  | pop
  /-- `ucp_am_send_nbx`. -/
  | send (package : Package ι D)
  /-- `ucx_request_wait`, for a send. -/
  | sendWait (package : Package ι D)
  /-- `package.on_send(&package)`. -/
  | onSend (package : Package ι D)
  /-- `process_recv_ops`. -/
  | recvOps
  /-- The loop is left. -/
  | stopped
  deriving DecidableEq

/-- A rank. -/
structure Process (ι D E : Type*) where
  comm : Comm.State (Parcel ι D) E
  packageQueue : List (Package ι D)
  canTerminate : Bool
  pc : Pc ι D
  /-- The event of `ucp_worker_signal`, which `ucp_worker_wait` consumes. -/
  signal : Bool
  /-- The calls that have not yet called `ucp_worker_signal`. -/
  unsignalled : ℕ
  /-- The messages that have arrived. -/
  inbox : List (Parcel ι D)
  /-- The packages given to `tu_comm_send`. -/
  pushed : List (Package ι D)
  /-- The packages given to `ucp_am_send_nbx`. -/
  sent : List (Package ι D)
  /-- The packages whose request has completed. -/
  completed : List (Package ι D)
  /-- The packages for which `on_send` was called. -/
  onSendCalls : List (Package ι D)

/-- The ranks with the messages between them. -/
structure State (ι D E : Type*) where
  proc : ι → Process ι D E
  /-- The messages on their way to a rank. -/
  wire : ι → List (Parcel ι D)
  /-- The data of the last send of a rank was received. -/
  fetched : ι → Bool

/-- A rank before its first package. -/
def Process.initial : Process ι D E where
  comm := Comm.initial
  packageQueue := []
  canTerminate := false
  pc := .check
  signal := false
  unsignalled := 0
  inbox := []
  pushed := []
  sent := []
  completed := []
  onSendCalls := []

def initial : State ι D E where
  proc _ := .initial
  wire _ := []
  fetched _ := false

/-- What a step of a progress thread does outside of its rank. -/
inductive Effect (ι D : Type*) where
  | quiet
  /-- A message goes on its way. -/
  | send (x : Parcel ι D)
  /-- The data of the send of a rank was received. -/
  | receive (src : ι)

/-- Whose data a step of `process_recv_ops` receives. -/
def received : Comm.ProgressPc (Parcel ι D) → Effect ι D
  | .wait _ (some x) => .receive x.src
  | _ => .quiet

/-- The loop over `rndv_queue` is over or goes on. -/
def afterRecvOps : Comm.ProgressPc (Parcel ι D) → Pc ι D
  | .progress => .check
  | _ => .recvOps

/-- `comm_progress_run`: the next access of the progress thread of the rank `p`, outside of
`ucp_worker_progress`. -/
def Process.next (comm : CommNode E) (usesRndv : ℕ → Bool) (p : ι) (fetched : Bool)
    (P : Process ι D E) : Option (Process ι D E × Effect ι D) :=
  match P.pc with
  | .check =>
      if P.canTerminate then some ({ P with pc := .stopped }, .quiet)
      else some ({ P with pc := .progress false }, .quiet)
  | .progress _ => none
  | .wait =>
      if P.signal then some ({ P with signal := false, pc := .recheck }, .quiet)
      else if P.inbox.isEmpty then none
      else some ({ P with pc := .recheck }, .quiet)
  | .recheck =>
      if P.canTerminate then some ({ P with pc := .stopped }, .quiet)
      else some ({ P with pc := .pop }, .quiet)
  | .pop =>
      match P.packageQueue with
      | [] => some ({ P with pc := .recvOps }, .quiet)
      | package :: rest =>
          some ({ P with packageQueue := rest, pc := .send package }, .quiet)
  | .send package =>
      some ({ P with sent := P.sent ++ [package], pc := .sendWait package },
        .send ⟨p, package⟩)
  | .sendWait package =>
      if usesRndv package.size && !fetched then none
      else some ({ P with pc := .onSend package }, .quiet)
  | .onSend package =>
      some
        ({ P with
            completed := P.completed ++ [package]
            onSendCalls :=
              if package.onSend then P.onSendCalls ++ [package] else P.onSendCalls
            pc := .pop }, .quiet)
  | .recvOps =>
      (Comm.stepRecvOps comm P.comm).map fun c =>
        ({ P with comm := c, pc := afterRecvOps c.pc }, received P.comm.pc)
  | .stopped => none

/-- UCX makes progress: at `ucp_worker_progress`, and while a request is waited for. -/
def Process.progresses (P : Process ι D E) : Bool :=
  match P.pc with
  | .progress _ | .sendWait _ => true
  | .recvOps =>
      match P.comm.pc with
      | .wait _ _ => true
      | _ => false
  | _ => false

/-- The thread is in the loop of `ucx_request_wait`. -/
def Process.polls (P : Process ι D E) : Bool :=
  match P.pc with
  | .progress _ => false
  | _ => P.progresses

/-- The handler was called. -/
def Pc.called : Pc ι D → Pc ι D
  | .progress _ => .progress true
  | pc => pc

/-- UCX calls the handler for the first of the messages that have arrived. -/
def Process.handle (comm : CommNode E) (usesRndv : ℕ → Bool) (P : Process ι D E) :
    Option (Process ι D E) :=
  match P.inbox with
  | [] => none
  | x :: rest =>
      if P.progresses then
        some { P with
          inbox := rest
          comm := Comm.commAmHandler comm P.comm (x.message usesRndv)
          pc := P.pc.called }
      else none

/-- The return from `ucp_worker_progress`, which is 0 if there was nothing to do. -/
def Process.progressed (busy : Bool) (P : Process ι D E) : Option (Process ι D E) :=
  match P.pc with
  | .progress called =>
      if called || busy then some { P with pc := .recheck }
      else if P.inbox.isEmpty then some { P with pc := .wait }
      else none
  | _ => none

/-- What may happen next. -/
inductive Action (ι D : Type*) where
  /-- `comm->package_queue.push(std::move(package))` in `tu_comm_send`. -/
  | push (p : ι) (package : Package ι D)
  /-- `comm->can_terminate.store(true)` in `tu_comm_task_destroy`. -/
  | destroy (p : ι)
  /-- `ucp_worker_signal` in either of them. -/
  | signal (p : ι)
  /-- UCX has an event of its own. -/
  | event (p : ι)
  /-- The message at a place of the wire arrives. -/
  | arrive (p : ι) (k : ℕ)
  | handle (p : ι)
  /-- `ucp_worker_progress` returns, not 0 if UCX was busy with something else. -/
  | progressed (p : ι) (busy : Bool)
  /-- `ucp_request_check_status` finds the request in progress. -/
  | poll (p : ι)
  | step (p : ι)

/-- The step comes from the progress threads, or from UCX because of a message. -/
def Action.isOwn : Action ι D → Bool
  | .signal _ | .arrive _ _ | .handle _ | .progressed _ false | .step _ => true
  | _ => false

/-- The step comes from a user of the communicator, or from UCX because of something else. -/
def Action.isOutside : Action ι D → Bool
  | .push _ _ | .destroy _ | .event _ | .progressed _ true => true
  | _ => false

theorem Action.isOutside_of_isOwn {a : Action ι D} (h : a.isOwn = true) : a.isOutside = false := by
  unfold Action.isOwn at h
  split at h
  all_goals first | rfl | cases h

variable [DecidableEq ι]

/-- The state after a step of a rank, with its effect. -/
def State.apply (s : State ι D E) (p : ι) (P : Process ι D E) : Effect ι D → State ι D E
  | .quiet => { s with proc := Function.update s.proc p P }
  | .send x =>
      { proc := Function.update s.proc p P
        wire := Function.update s.wire x.package.dest (s.wire x.package.dest ++ [x])
        fetched := Function.update s.fetched p false }
  | .receive src =>
      { s with
        proc := Function.update s.proc p P
        fetched := Function.update s.fetched src true }

def step (types : Finset TypeId) (comm : ι → CommNode E) (usesRndv : ℕ → Bool)
    (s : State ι D E) : Action ι D → Option (State ι D E)
  | .push p package =>
      if package.dest ≠ p ∧ package.type ∈ types then
        some (s.apply p
          { s.proc p with
            packageQueue := (s.proc p).packageQueue ++ [package]
            unsignalled := (s.proc p).unsignalled + 1
            pushed := (s.proc p).pushed ++ [package] } .quiet)
      else none
  | .destroy p =>
      some (s.apply p
        { s.proc p with
          canTerminate := true
          unsignalled := (s.proc p).unsignalled + 1 } .quiet)
  | .signal p =>
      match (s.proc p).unsignalled with
      | 0 => none
      | n + 1 => some (s.apply p { s.proc p with signal := true, unsignalled := n } .quiet)
  | .event p => some (s.apply p { s.proc p with signal := true } .quiet)
  | .arrive p k =>
      (s.wire p)[k]?.map fun x =>
        { s with
          proc := Function.update s.proc p
            { s.proc p with inbox := (s.proc p).inbox ++ [x] }
          wire := Function.update s.wire p ((s.wire p).eraseIdx k) }
  | .handle p =>
      ((s.proc p).handle (comm p) usesRndv).map fun P => s.apply p P .quiet
  | .progressed p busy => ((s.proc p).progressed busy).map fun P => s.apply p P .quiet
  | .poll p => if (s.proc p).polls then some s else none
  | .step p =>
      ((s.proc p).next (comm p) usesRndv p (s.fetched p)).map fun r => s.apply p r.1 r.2

/-- An iteration of the polling loop changes nothing. -/
theorem eq_of_step_poll {types : Finset TypeId} {comm : ι → CommNode E} {usesRndv : ℕ → Bool}
    {s s' : State ι D E} {p : ι} (h : step types comm usesRndv s (.poll p) = some s') : s' = s := by
  simp only [step] at h
  split at h
  · exact (Option.some.inj h).symm
  · cases h

def system (D : Type*) (types : Finset TypeId) (comm : ι → CommNode E) (usesRndv : ℕ → Bool) :
    TransitionSystem (State ι D E) (Action ι D) where
  init s := s = initial
  step := step types comm usesRndv

end Cluster
end ThreadUtils
