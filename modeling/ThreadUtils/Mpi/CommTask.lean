import Mathlib.Data.Finset.Image
import Mathlib.Data.Multiset.AddSub
import ThreadUtils.Dfg.Graph
import ThreadUtils.Mpi.CommQueue

/-!
# The communicator task

The communicator is a task of the graph whose input types are those of the user, for what is to be
sent, and `-t - 1` for each of them, for what was received.  Its progress thread lets UCX make
progress, which calls `comm_am_handler` for every message that has arrived.  An eager message goes
to the input queue of its type at once; of a rendezvous message the handler only adds an entry to
`rndv_queue`, and `process_recv_ops` receives the data of the entries.  While it waits for a
receive UCX makes progress again, so the handler may add entries in the middle of the loop.

## The type that is read too late

The loop moves its iterator before it reads the type of the message: `it` is what `remove` returns,
which stands on the next entry, or on the end mark with its type 0.  So a datum goes to the right
queue if the entry behind it has the same type, and only then; this is a condition on the state
before the step (`FindsSameType`), and it does not matter how the entries came there.

## What delivery means

`Delivered` is about the whole run.  Each message that was handled was pushed once under its own
type, or its entry is pending; each entry is received once and in order; and the loop ends when
nothing is pending.  A worker then calls the function of the user for the type, with the type that
is computed back from the negative one (`NodeOk.dispatch_eq`).

The negative types are apart from those of the user as long as these are not negative
(`negType_ne`), so one map of queues serves both.

A datum stands for the content of the buffer that was allocated for it.  The sending half of the
progress thread calls the handler as `ucp_worker_progress` does and is not told apart from it.  The
record of a run, from `handled` on, is read by no step.

* `delivered_iff_sameTypeBehind` --- in a run every message is delivered under its own type if and
  only if every entry that is removed has one of the same type behind it.
-/

namespace ThreadUtils
namespace Comm

open Dfg (TypeId GraphData)
open CommQueue (Holds)

variable {D E : Type*}

/-! ## The node -/

/-- The function of an input: one of the user's, or the one that `tu_comm_recv_exec` sets. -/
inductive NodeExec (E : Type*) where
  | user (exec : E)
  | recv

/-- The node of the communicator with `comm->recv_exec`. -/
structure CommNode (E : Type*) where
  /-- `exec_node->inputs`: the function of an input, or `nullptr`, if the input is there. -/
  inputs : TypeId → Option (Option (NodeExec E))
  recvExec : TypeId → Option E

/-- The input types of the node. -/
def inputTypes (types : Finset TypeId) : Finset TypeId :=
  types ∪ types.image fun type => -type - 1

/-- `tu_comm_task`, unless its assertion on the types fails. -/
def tuCommTask (types : Finset TypeId) : Option (CommNode E) :=
  if ∀ type ∈ types, 0 ≤ type then
    some
      { inputs := fun type => if type ∈ inputTypes types then some none else none
        recvExec := fun _ => none }
  else none

/-- `tu_exec`. -/
def tuExec (comm : CommNode E) (type : TypeId) (exec : NodeExec E) : Bool × CommNode E :=
  match comm.inputs type with
  | none => (false, comm)
  | some _ => (true, { comm with inputs := Function.update comm.inputs type (some (some exec)) })

/-- `tu_comm_send_exec`. -/
def tuCommSendExec (comm : CommNode E) (type : TypeId) (exec : E) : Bool × CommNode E :=
  if type < 0 then (false, comm) else tuExec comm type (.user exec)

/-- `tu_comm_recv_exec`. -/
def tuCommRecvExec (comm : CommNode E) (type : TypeId) (exec : E) : Bool × CommNode E :=
  if type < 0 then (false, comm)
  else
    tuExec { comm with recvExec := Function.update comm.recvExec type (some exec) } (-type - 1)
      .recv

/-- The nodes that `tu_comm_task` and the calls that follow it make. -/
inductive Built (types : Finset TypeId) : CommNode E → Prop
  | task {comm : CommNode E} : tuCommTask types = some comm → Built types comm
  | sendExec {comm : CommNode E} (type : TypeId) (exec : E) :
      Built types comm → Built types (tuCommSendExec comm type exec).2
  | recvExec {comm : CommNode E} (type : TypeId) (exec : E) :
      Built types comm → Built types (tuCommRecvExec comm type exec).2

/-- What `worker_node_exec` calls for a datum: the function of the user, with the pointer and the
type that it gets. -/
def dispatch (comm : CommNode E) (data : GraphData D) : Option (E × Option D × TypeId) :=
  match comm.inputs data.type with
  | some (some (.user exec)) => some (exec, data.data, data.type)
  | some (some .recv) =>
      let type := -(data.type + 1)
      (comm.recvExec type).map fun exec => (exec, data.data, type)
  | _ => none

/-! ## The progress thread -/

/-- A message, with the type of its header. -/
structure Message (D : Type*) where
  data : D
  length : ℕ
  type : TypeId
  /-- `UCP_AM_RECV_ATTR_FLAG_RNDV`. -/
  rndv : Bool

/-- `TU_UcxAMRndvData`. -/
structure RndvData (D : Type*) where
  desc : Option D
  size : ℕ
  type : TypeId

/-- `TU_UcxAMRndvData{}`. -/
instance : Inhabited (RndvData D) := ⟨⟨none, 0, 0⟩⟩

/-- The next access of the progress thread. -/
inductive ProgressPc (D : Type*) where
  /-- Outside `process_recv_ops`. -/
  | progress
  /-- `it != comm->rndv_queue.end()`. -/
  | recv (it : ℕ)
  /-- `ucx_request_wait`, for a receive into a buffer. -/
  | wait (it : ℕ) (buffer : Option D)
  /-- An assertion has failed. -/
  | abort
  deriving DecidableEq

/-- What a worker has called for a datum of the input queue of a type. -/
structure Dispatch (D E : Type*) where
  type : TypeId
  data : Option D
  call : Option (E × Option D × TypeId)

/-- The communicator with the input queues of its node. -/
structure State (D E : Type*) where
  rndvQueue : CommQueue (RndvData D)
  queue : TypeId → List (GraphData D)
  /-- The permits of the group of the node. -/
  sem : ℕ
  pc : ProgressPc D
  /-- The messages that the handler was called for. -/
  handled : List (Message D)
  /-- The entries that were added to `rndv_queue` and not removed since, in their order. -/
  pending : List (RndvData D)
  /-- The calls of `ucp_am_recv_data_nbx`. -/
  received : List (Option D)
  /-- What was pushed, with the type of the queue. -/
  pushed : List (TypeId × GraphData D)
  dispatched : List (Dispatch D E)

/-- A communicator without messages. -/
def initial : State D E where
  rndvQueue := .defaultQueue
  queue := fun _ => []
  sem := 0
  pc := .progress
  handled := []
  pending := []
  received := []
  pushed := []
  dispatched := []

/-- A call of the handler, a step of `process_recv_ops` or the work of a worker on a datum. -/
inductive Action (D : Type*) where
  | handler (m : Message D)
  | recvOps
  | work (type : TypeId)

/-- `comm_progress_result`. -/
def commProgressResult (comm : CommNode E) (s : State D E) (data : Option D) (type : TypeId) :
    State D E :=
  if (comm.inputs (-type - 1)).isSome then
    { s with
      queue := Function.update s.queue (-type - 1) (s.queue (-type - 1) ++ [⟨data, -type - 1⟩])
      sem := s.sem + 1
      pushed := s.pushed ++ [(-type - 1, ⟨data, -type - 1⟩)] }
  else { s with pc := .abort }

/-- The entry of a rendezvous message. -/
def Message.entry (m : Message D) : RndvData D :=
  ⟨some m.data, m.length, m.type⟩

/-- `comm_am_handler`. -/
def commAmHandler (comm : CommNode E) (s : State D E) (m : Message D) : State D E :=
  let s := { s with handled := s.handled ++ [m] }
  if m.rndv then
    { s with
      rndvQueue := (s.rndvQueue.addObject m.entry).2
      pending := s.pending ++ [m.entry] }
  else commProgressResult comm s (some m.data) m.type

/-- UCX may call the handler: it makes progress. -/
def ProgressPc.progresses : ProgressPc D → Bool
  | .progress | .wait _ _ => true
  | _ => false

/-- A step of `process_recv_ops`, and the entry into it. -/
def stepRecvOps (comm : CommNode E) (s : State D E) : Option (State D E) :=
  match s.pc with
  | .progress => some { s with pc := .recv s.rndvQueue.usedList }
  | .recv it =>
      if it = 0 then some { s with pc := .progress }
      else
        let desc := (s.rndvQueue.atIdx it).desc
        some { s with pc := .wait it desc, received := s.received ++ [desc] }
  | .wait it buffer =>
      match s.rndvQueue.remove it with
      | none => some { s with pc := .abort }
      | some (it, rndvQueue) =>
          let s := { s with rndvQueue := rndvQueue, pending := s.pending.tail, pc := .recv it }
          some (commProgressResult comm s buffer (rndvQueue.atIdx it).type)
  | .abort => none

def step (types : Finset TypeId) (comm : CommNode E) (s : State D E) : Action D → Option (State D E)
  | .handler m =>
      if m.type ∈ types ∧ s.pc.progresses = true then some (commAmHandler comm s m) else none
  | .recvOps => stepRecvOps comm s
  | .work type =>
      match s.queue type with
      | [] => none
      | data :: rest => some
          { s with
            queue := Function.update s.queue type rest
            dispatched := s.dispatched ++ [⟨type, data.data, dispatch comm data⟩] }

def system (D : Type*) (types : Finset TypeId) (comm : CommNode E) :
    TransitionSystem (State D E) (Action D) where
  init s := s = initial
  step := step types comm

/-! ## Delivery -/

/-- The datum that a message of this type has to become, with the queue it has to go to. -/
def delivery (data : Option D) (type : TypeId) : TypeId × GraphData D :=
  (-type - 1, ⟨data, -type - 1⟩)

/-- The entries whose receive has begun and that are still in the queue. -/
def ProgressPc.current (pc : ProgressPc D) (pending : List (RndvData D)) : List (RndvData D) :=
  match pc with
  | .wait _ _ => pending.take 1
  | _ => []

/-- Every message is delivered under its own type. -/
structure Delivered (types : Finset TypeId) (comm : CommNode E) (s : State D E) : Prop where
  not_abort : s.pc ≠ .abort
  /-- Each message is pushed once, or its entry is pending. -/
  pushed : (s.handled.map fun m => delivery (some m.data) m.type).Perm
    (s.pushed ++ s.pending.map fun e => delivery e.desc e.type)
  /-- Each entry is received once and removed. -/
  received : ∃ removed, (s.handled.filter Message.rndv).map Message.entry = removed ++ s.pending ∧
    s.received = (removed ++ s.pc.current s.pending).map RndvData.desc
  rndvQueue : ∀ fuel, s.pending.length ≤ fuel →
    (s.rndvQueue.iterate fuel).map (List.map Prod.snd) = some s.pending
  /-- The loop ends when every entry was received and removed. -/
  ended : s.pc = .recv 0 → s.pending = []
  /-- The workers call the function of the type, with the type. -/
  dispatched : ∀ d ∈ s.dispatched, ∃ type ∈ types, d.type = -type - 1 ∧
    d.call = (comm.recvExec type).map fun exec => (exec, d.data, type)

/-- The entry behind the first one has the same type; behind the last one is the end mark. -/
def SameTypeBehind : List (RndvData D) → Prop
  | [] => True
  | e :: rest => (rest.headD default).type = e.type

/-- A step that removes an entry finds one of the same type behind it. -/
def FindsSameType (s : State D E) (a : Action D) : Prop :=
  match a, s.pc with
  | .recvOps, .wait _ _ => SameTypeBehind s.pending
  | _, _ => True

/-! ## The functions of the node -/

/-- The inputs of a node that was built, and the function of those for received data. -/
structure NodeOk (types : Finset TypeId) (comm : CommNode E) : Prop where
  nonneg : ∀ type ∈ types, 0 ≤ type
  inputs : ∀ type, (comm.inputs type).isSome ↔ type ∈ inputTypes types
  recv : ∀ type ∈ types,
    comm.inputs (-type - 1) = some ((comm.recvExec type).map fun _ => .recv)

variable {types : Finset TypeId} {comm : CommNode E}

/-- The types of received data are not those of the data to send. -/
theorem negType_ne {t type : ℤ} (ht : 0 ≤ t) (htype : 0 ≤ type) : -t - 1 ≠ type := by
  omega

theorem negType_injective : Function.Injective fun t : ℤ => -t - 1 := by
  intro t type h
  dsimp only at h
  omega

theorem negType_negType (t : ℤ) : -(-t - 1 + 1) = t := by
  omega

theorem neg_mem_inputTypes {type : TypeId} (h : type ∈ types) : -type - 1 ∈ inputTypes types :=
  Finset.mem_union_right _ (Finset.mem_image_of_mem _ h)

/-- `tu_exec` leaves the inputs that there are. -/
theorem tuExec_inputs_isSome (comm : CommNode E) (type : TypeId) (exec : NodeExec E)
    (t : TypeId) : ((tuExec comm type exec).2.inputs t).isSome = (comm.inputs t).isSome := by
  unfold tuExec
  cases h : comm.inputs type with
  | none => rfl
  | some e =>
    dsimp only
    by_cases ht : t = type
    · rw [ht, Function.update_self, h]
      rfl
    · rw [Function.update_of_ne ht]

theorem tuExec_inputs_of_ne (comm : CommNode E) {type t : TypeId} (exec : NodeExec E)
    (ht : t ≠ type) : (tuExec comm type exec).2.inputs t = comm.inputs t := by
  unfold tuExec
  cases comm.inputs type with
  | none => rfl
  | some e => exact Function.update_of_ne ht _ _

theorem tuExec_inputs_self (comm : CommNode E) {type : TypeId} (exec : NodeExec E)
    (h : (comm.inputs type).isSome) : (tuExec comm type exec).2.inputs type = some (some exec) := by
  obtain ⟨e, he⟩ := Option.isSome_iff_exists.mp h
  unfold tuExec
  rw [he]
  exact Function.update_self _ _ _

theorem tuExec_recvExec (comm : CommNode E) (type : TypeId) (exec : NodeExec E) :
    (tuExec comm type exec).2.recvExec = comm.recvExec := by
  unfold tuExec
  cases comm.inputs type <;> rfl

/-- `tu_comm_send_exec` sets the function of an input for data to send. -/
theorem NodeOk.sendExec (h : NodeOk types comm) (type : TypeId) (exec : E) :
    NodeOk types (tuCommSendExec comm type exec).2 := by
  unfold tuCommSendExec
  split
  · exact h
  · next hnonneg =>
    refine ⟨h.nonneg, fun t => ?_, fun t ht => ?_⟩
    · rw [tuExec_inputs_isSome]
      exact h.inputs t
    · have hpos := h.nonneg t ht
      rw [tuExec_inputs_of_ne _ _ (negType_ne hpos (not_lt.mp hnonneg)), tuExec_recvExec]
      exact h.recv t ht

/-- `tu_comm_recv_exec` sets the function of an input for received data. -/
theorem NodeOk.recvExec (h : NodeOk types comm) (type : TypeId) (exec : E) :
    NodeOk types (tuCommRecvExec comm type exec).2 := by
  unfold tuCommRecvExec
  split
  · exact h
  · refine ⟨h.nonneg, fun t => ?_, fun t ht => ?_⟩
    · rw [tuExec_inputs_isSome]
      exact h.inputs t
    · rw [tuExec_recvExec]
      dsimp only
      by_cases heq : t = type
      · subst heq
        have hinput : (comm.inputs (-t - 1)).isSome := (h.inputs _).mpr (neg_mem_inputTypes ht)
        rw [tuExec_inputs_self
          { comm with recvExec := Function.update comm.recvExec t (some exec) } _ hinput,
          Function.update_self]
        rfl
      · rw [tuExec_inputs_of_ne _ _ fun h => heq (negType_injective h), Function.update_of_ne heq]
        exact h.recv t ht

theorem nodeOk_of_built (h : Built types comm) : NodeOk types comm := by
  induction h with
  | sendExec type exec _ ih => exact ih.sendExec type exec
  | recvExec type exec _ ih => exact ih.recvExec type exec
  | task h =>
    unfold tuCommTask at h
    split at h
    · next hnonneg =>
      obtain rfl := Option.some.inj h
      refine ⟨hnonneg, fun type => ?_, fun type htype => ?_⟩
      · dsimp only
        split <;> simp_all
      · exact if_pos (neg_mem_inputTypes htype)
    · cases h

/-- **The way back from the negative type.**  A worker calls `recv_exec[type]`, with the type, for a
datum of the type `-type - 1`. -/
theorem NodeOk.dispatch_eq (h : NodeOk types comm) {type : TypeId} (htype : type ∈ types)
    (data : Option D) : dispatch comm ⟨data, -type - 1⟩ =
      (comm.recvExec type).map fun exec => (exec, data, type) := by
  unfold dispatch
  dsimp only
  rw [h.recv type htype, negType_negType]
  cases comm.recvExec type <;> rfl

/-! ## The invariant -/

/-- What holds between the steps as long as all messages go to their own types. -/
structure Inv (types : Finset TypeId) (comm : CommNode E) (s : State D E) : Prop
    extends Delivered types comm s where
  holds : ∃ live free, s.rndvQueue.Holds live free ∧ live.map Prod.snd = s.pending
  /-- The iterator stands on the first entry. -/
  recv : ∀ it, s.pc = .recv it → it = s.rndvQueue.usedList
  wait : ∀ it buffer, s.pc = .wait it buffer →
    it = s.rndvQueue.usedList ∧ ∃ e rest, s.pending = e :: rest ∧ buffer = e.desc
  pending : ∀ e ∈ s.pending, e.type ∈ types
  queue : ∀ type, ∀ data ∈ s.queue type, data.type = type ∧ ∃ t ∈ types, type = -t - 1

variable {s s' : State D E}

/-- What the loop over `rndv_queue` meets is pending. -/
theorem iterate_of_holds {q : CommQueue (RndvData D)} {live : List (ℕ × RndvData D)}
    {free : List ℕ} {pending : List (RndvData D)} (h : q.Holds live free)
    (hpending : live.map Prod.snd = pending) (fuel : ℕ) (hfuel : pending.length ≤ fuel) :
    (q.iterate fuel).map (List.map Prod.snd) = some pending := by
  rw [← hpending, List.length_map] at hfuel
  rw [h.iterate hfuel, Option.map_some, hpending]

/-- Nothing is pending when the iterator of an empty queue is the end mark. -/
theorem pending_eq_nil {q : CommQueue (RndvData D)} {pending : List (RndvData D)}
    (h : ∃ live free, q.Holds live free ∧ live.map Prod.snd = pending) (hend : q.usedList = 0) :
    pending = [] := by
  obtain ⟨live, free, hholds, rfl⟩ := h
  cases live with
  | nil => rfl
  | cons e live =>
    have hzero : e.1 = 0 := hholds.usedList.symm.trans hend
    refine absurd (List.mem_append_left _ ?_) hholds.zero_notMem
    exact hzero ▸ List.mem_cons_self

theorem inv_initial : Inv types comm (initial : State D E) where
  not_abort h := by cases h
  pushed := .refl _
  received := ⟨[], rfl, rfl⟩
  rndvQueue := iterate_of_holds CommQueue.holds_defaultQueue rfl
  ended h := by cases h
  dispatched _ hd := absurd hd List.not_mem_nil
  holds := ⟨[], _, CommQueue.holds_defaultQueue, rfl⟩
  recv _ h := by cases h
  wait _ _ h := by cases h
  pending _ he := absurd he List.not_mem_nil
  queue _ _ hdata := absurd hdata List.not_mem_nil

/-- The entry that is being received does not depend on what is added behind it. -/
theorem Inv.current_append (hI : Inv types comm s) (e : RndvData D) :
    s.pc.current (s.pending ++ [e]) = s.pc.current s.pending := by
  cases h : s.pc with
  | wait it buffer =>
    obtain ⟨-, e', rest, hpending, -⟩ := hI.wait it buffer h
    rw [hpending]
    rfl
  | _ => rfl

/-- A datum goes to the queue of its negative type. -/
theorem queue_push {queue : TypeId → List (GraphData D)} {type : TypeId} (htype : type ∈ types)
    (h : ∀ t, ∀ data ∈ queue t, data.type = t ∧ ∃ t' ∈ types, t = -t' - 1) (data : Option D) :
    ∀ t, ∀ data' ∈ Function.update queue (-type - 1) (queue (-type - 1) ++ [⟨data, -type - 1⟩]) t,
      data'.type = t ∧ ∃ t' ∈ types, t = -t' - 1 := by
  intro t data' hdata'
  by_cases ht : t = -type - 1
  · rw [ht, Function.update_self] at hdata'
    rcases List.mem_append.mp hdata' with hmem | hmem
    · exact ht ▸ h _ data' hmem
    · rw [List.mem_singleton.mp hmem, ht]
      exact ⟨rfl, type, htype, rfl⟩
  · rw [Function.update_of_ne ht] at hdata'
    exact h t data' hdata'

/-- **The handler** delivers an eager message, and keeps a rendezvous message for the loop. -/
theorem Inv.handler (hN : NodeOk types comm) (hI : Inv types comm s) {m : Message D}
    (hm : m.type ∈ types) (hpc : s.pc.progresses = true) :
    Inv types comm (commAmHandler comm s m) := by
  obtain ⟨removed, hremoved, hreceived⟩ := hI.received
  obtain ⟨live, free, hholds, hpending⟩ := hI.holds
  unfold commAmHandler
  dsimp only
  cases hrndv : m.rndv with
  | false =>
    have hfilter : (s.handled ++ [m]).filter Message.rndv = s.handled.filter Message.rndv := by
      rw [List.filter_append, List.filter_cons_of_neg (by simp [hrndv]), List.filter_nil,
        List.append_nil]
    unfold commProgressResult
    rw [if_neg Bool.false_ne_true, if_pos ((hN.inputs _).mpr (neg_mem_inputTypes hm))]
    refine ⟨⟨hI.not_abort, ?_, ⟨removed, ?_, hreceived⟩, hI.rndvQueue, hI.ended, hI.dispatched⟩,
      hI.holds, hI.recv, hI.wait, hI.pending, queue_push hm hI.queue _⟩
    · rw [List.map_append, List.append_assoc]
      refine (hI.pushed.append_right _).trans ?_
      rw [List.append_assoc]
      exact List.perm_append_comm.append_left _
    · dsimp only
      rw [hfilter]
      exact hremoved
  | true =>
    have hfilter : (s.handled ++ [m]).filter Message.rndv =
        s.handled.filter Message.rndv ++ [m] := by
      rw [List.filter_append, List.filter_cons_of_pos hrndv, List.filter_nil]
    obtain ⟨⟨free', hadd⟩, -, -⟩ := hholds.addObject m.entry
    have hpending' : (live ++ [((s.rndvQueue.addObject m.entry).1, m.entry)]).map Prod.snd =
        s.pending ++ [m.entry] := by
      rw [List.map_append, hpending]
      rfl
    -- the first entry stays the first
    have hused : s.pending ≠ [] →
        (s.rndvQueue.addObject m.entry).2.usedList = s.rndvQueue.usedList := by
      intro hne
      rw [hadd.usedList, hholds.usedList]
      cases live with
      | nil => exact absurd hpending.symm hne
      | cons e live => rfl
    rw [if_pos rfl]
    refine ⟨⟨hI.not_abort, ?_, ⟨removed, ?_, ?_⟩, iterate_of_holds hadd hpending', fun h => ?_,
      hI.dispatched⟩, ⟨_, free', hadd, hpending'⟩, fun it h => ?_, fun it buffer h => ?_,
      fun e he => ?_, hI.queue⟩
    · dsimp only
      rw [List.map_append, List.map_append, ← List.append_assoc]
      exact hI.pushed.append_right _
    · dsimp only
      rw [hfilter, List.map_append, hremoved, List.append_assoc]
      rfl
    · dsimp only
      rw [hI.current_append]
      exact hreceived
    · -- the handler is not called between two entries
      dsimp only at h
      rw [h] at hpc
      cases hpc
    · dsimp only at h
      rw [h] at hpc
      cases hpc
    · obtain ⟨hit, e, rest, hcons, hbuffer⟩ := hI.wait it buffer h
      refine ⟨?_, e, rest ++ [m.entry], ?_, hbuffer⟩
      · rw [hused (by rw [hcons]; exact List.cons_ne_nil _ _)]
        exact hit
      · dsimp only
        rw [hcons]
        rfl
    · rcases List.mem_append.mp he with he | he
      · exact hI.pending e he
      · rw [List.mem_singleton.mp he]
        exact hm

/-- **A worker** calls the function of the type of the queue. -/
theorem Inv.work (hN : NodeOk types comm) (hI : Inv types comm s) {type : TypeId}
    {data : GraphData D} {rest : List (GraphData D)} (hqueue : s.queue type = data :: rest) :
    Inv types comm
      { s with
        queue := Function.update s.queue type rest
        dispatched := s.dispatched ++ [⟨type, data.data, dispatch comm data⟩] } := by
  obtain ⟨hdata, t, ht, htype⟩ := hI.queue type data (hqueue ▸ List.mem_cons_self)
  refine { hI with
    dispatched := fun d hd => ?_
    queue := fun type' data' hdata' => ?_ }
  · rcases List.mem_append.mp hd with hd | hd
    · exact hI.dispatched d hd
    · rw [List.mem_singleton.mp hd]
      have heq : data = ⟨data.data, -t - 1⟩ := by rw [← htype, ← hdata]
      refine ⟨t, ht, htype, ?_⟩
      dsimp only
      rw [heq, hN.dispatch_eq ht]
  · dsimp only at hdata'
    by_cases heq : type' = type
    · rw [heq] at hdata' ⊢
      rw [Function.update_self] at hdata'
      exact hI.queue type data' (hqueue ▸ List.mem_cons_of_mem _ hdata')
    · rw [Function.update_of_ne heq] at hdata'
      exact hI.queue type' data' hdata'

/-- A step of the loop that does not remove an entry. -/
theorem Inv.recvOps (hI : Inv types comm s) (h : stepRecvOps comm s = some s')
    (hpc : ∀ it buffer, s.pc ≠ .wait it buffer) : Inv types comm s' := by
  obtain ⟨removed, hremoved, hreceived⟩ := hI.received
  obtain ⟨live, free, hholds, hpending⟩ := hI.holds
  unfold stepRecvOps at h
  cases hs : s.pc with
  | abort => exact absurd hs hI.not_abort
  | wait it buffer => exact absurd hs (hpc it buffer)
  | progress =>
    rw [hs] at h hreceived
    obtain rfl := Option.some.inj h
    exact { hI with
      not_abort := fun h => by cases h
      received := ⟨removed, hremoved, hreceived⟩
      ended := fun h => pending_eq_nil hI.holds (ProgressPc.recv.inj h)
      recv := fun it h => (ProgressPc.recv.inj h).symm
      wait := fun _ _ h => by cases h }
  | recv it =>
    have hit := hI.recv it hs
    rw [hs] at h hreceived
    dsimp only at h
    split at h
    · obtain rfl := Option.some.inj h
      exact { hI with
        not_abort := fun h => by cases h
        received := ⟨removed, hremoved, hreceived⟩
        ended := fun h => by cases h
        recv := fun _ h => by cases h
        wait := fun _ _ h => by cases h }
    · next hne =>
      obtain rfl := Option.some.inj h
      rw [hit, hholds.usedList] at hne
      cases live with
      | nil => exact absurd rfl hne
      | cons e live =>
        have hdesc : (s.rndvQueue.atIdx it).desc = e.2.desc := by
          rw [hit, hholds.usedList]
          exact congrArg RndvData.desc (hholds.data e List.mem_cons_self)
        have hcons : s.pending = e.2 :: live.map Prod.snd := hpending.symm
        refine { hI with
          not_abort := fun h => by cases h
          received := ⟨removed, hremoved, ?_⟩
          ended := fun h => by cases h
          holds := ⟨_, free, hholds, hpending⟩
          recv := fun _ h => by cases h
          wait := fun it' buffer h => ?_ }
        · dsimp only [ProgressPc.current] at hreceived ⊢
          rw [hreceived, hcons, List.append_nil, List.map_append, hdesc]
          rfl
        · obtain ⟨rfl, rfl⟩ := ProgressPc.wait.inj h
          exact ⟨hit, e.2, _, hcons, hdesc⟩

/-- What the loop does when a receive is complete: it removes the first entry, and reads the type
of the one behind it. -/
theorem Inv.recvOps_wait (hI : Inv types comm s) {it : ℕ} {buffer : Option D}
    (hpc : s.pc = .wait it buffer) (h : stepRecvOps comm s = some s') :
    ∃ e rest q it', s.pending = e :: rest ∧ buffer = e.desc ∧ it' = q.usedList ∧
      (∃ live free, q.Holds live free ∧ live.map Prod.snd = rest) ∧
      s' = commProgressResult comm { s with rndvQueue := q, pending := rest, pc := .recv it' }
        buffer (rest.headD default).type := by
  obtain ⟨live, free, hholds, hpending⟩ := hI.holds
  obtain ⟨hit, e, rest, hcons, hbuffer⟩ := hI.wait it buffer hpc
  cases live with
  | nil =>
    rw [hcons] at hpending
    cases hpending
  | cons el live =>
    rw [hcons, List.map_cons, List.cons.injEq] at hpending
    obtain ⟨q, hremove, hq⟩ := Holds.remove (l := []) hholds
    have hit' : it = el.1 := hit.trans hholds.usedList
    unfold stepRecvOps at h
    rw [hpc] at h
    dsimp only at h
    rw [hit', hremove] at h
    obtain rfl := Option.some.inj h
    -- the entry behind the first one, or the end mark
    have hbehind : q.atIdx ((live.map Prod.fst).headD 0) = rest.headD default := by
      rw [← hpending.2]
      cases live with
      | nil => exact hq.end_data
      | cons el' live => exact hq.data el' List.mem_cons_self
    refine ⟨e, rest, q, _, hcons, hbuffer, hq.usedList.symm, ⟨live, _, hq, hpending.2⟩, ?_⟩
    rw [hbehind, hcons]
    rfl

/-- **A receive is complete.**  The datum goes to the queue of the type that the loop reads, which
is right when the entry behind has the type of the one that was removed, and only then. -/
theorem Inv.complete (hN : NodeOk types comm) (hI : Inv types comm s) {it : ℕ}
    {buffer : Option D} (hpc : s.pc = .wait it buffer) (h : stepRecvOps comm s = some s') :
    (SameTypeBehind s.pending ∧ Inv types comm s') ∨
      (¬ SameTypeBehind s.pending ∧ ¬ Delivered types comm s') := by
  obtain ⟨removed, hremoved, hreceived⟩ := hI.received
  obtain ⟨e, rest, q, it', hcons, hbuffer, hit', ⟨live, free, hq, hrest⟩, rfl⟩ :=
    hI.recvOps_wait hpc h
  have he : e.type ∈ types := hI.pending e (hcons ▸ List.mem_cons_self)
  have hpushed := hI.pushed
  rw [hcons] at hpushed hremoved ⊢
  rw [hcons, hpc] at hreceived
  unfold commProgressResult
  by_cases hsame : (rest.headD default).type = e.type
  · refine Or.inl ⟨hsame, ?_⟩
    have hinput : (comm.inputs (-(rest.headD default).type - 1)).isSome :=
      (hN.inputs _).mpr (hsame ▸ neg_mem_inputTypes he)
    rw [if_pos hinput, hsame, hbuffer]
    refine ⟨⟨(fun h => by cases h), ?_, ⟨removed ++ [e], ?_, ?_⟩, iterate_of_holds hq hrest,
      fun h => ?_, hI.dispatched⟩, ⟨live, free, hq, hrest⟩, fun it h => ?_,
      (fun _ _ h => by cases h), fun e' he' => hI.pending e' (hcons ▸ List.mem_cons_of_mem _ he'),
      queue_push he hI.queue _⟩
    · dsimp only
      rw [List.append_assoc]
      exact hpushed
    · dsimp only
      rw [hremoved, List.append_assoc]
      rfl
    · dsimp only [ProgressPc.current] at hreceived ⊢
      rw [hreceived, List.append_nil]
      rfl
    · exact pending_eq_nil ⟨live, free, hq, hrest⟩ (hit'.symm.trans (ProgressPc.recv.inj h))
    · exact (ProgressPc.recv.inj h).symm.trans hit'
  · refine Or.inr ⟨hsame, ?_⟩
    split
    · -- the datum is in the queue of another type
      intro hdelivered
      have hperm := hpushed.symm.trans hdelivered.pushed
      dsimp only at hperm
      rw [List.append_assoc, List.perm_append_left_iff, List.map_cons, List.singleton_append,
        ← Multiset.coe_eq_coe, ← Multiset.cons_coe, ← Multiset.cons_coe,
        Multiset.cons_inj_left] at hperm
      exact hsame (negType_injective (congrArg Prod.fst hperm)).symm
    · exact fun hdelivered => hdelivered.not_abort rfl

/-- A step keeps the invariant, unless it removes an entry that has none of the same type
behind it. -/
theorem step_delivered (hN : NodeOk types comm) (hI : Inv types comm s) {a : Action D}
    (h : step types comm s a = some s') :
    (FindsSameType s a ∧ Inv types comm s') ∨
      (¬ FindsSameType s a ∧ ¬ Delivered types comm s') := by
  cases a with
  | handler m =>
    unfold step at h
    dsimp only at h
    split at h
    · next hm =>
      obtain rfl := Option.some.inj h
      exact Or.inl ⟨trivial, hI.handler hN hm.1 hm.2⟩
    · cases h
  | work type =>
    unfold step at h
    dsimp only at h
    split at h
    · cases h
    · next data rest hqueue =>
      obtain rfl := Option.some.inj h
      exact Or.inl ⟨trivial, hI.work hN hqueue⟩
  | recvOps =>
    unfold FindsSameType
    cases hpc : s.pc with
    | wait it buffer => exact hI.complete hN hpc h
    | _ =>
      have hne : ∀ it buffer, s.pc ≠ .wait it buffer := fun _ _ heq => by simp [hpc] at heq
      exact Or.inl ⟨trivial, hI.recvOps h hne⟩

/-! ## The theorem -/

/-- A communicator for the types 0 and 1, with a function for either. -/
def zeroAndOne : CommNode ℕ :=
  (tuCommRecvExec (tuCommRecvExec
    { inputs := fun type => if type ∈ inputTypes {0, 1} then some none else none
      recvExec := fun _ => none } 0 50).2 1 51).2

theorem built_zeroAndOne : Built {0, 1} zeroAndOne :=
  .recvExec _ _ (.recvExec _ _ (.task (if_pos (by decide))))

instance (pending : List (RndvData D)) : Decidable (SameTypeBehind pending) := by
  cases pending <;> unfold SameTypeBehind <;> infer_instance

instance (s : State D E) (a : Action D) : Decidable (FindsSameType s a) := by
  unfold FindsSameType
  split <;> infer_instance

/-- An eager message of type 1 and two rendezvous messages of type 0, the second of which arrives
while the first is received. -/
def reentrant : List (Action ℕ) :=
  [.handler ⟨10, 4, 0, true⟩, .recvOps, .recvOps, .handler ⟨11, 4, 1, false⟩,
    .handler ⟨12, 4, 0, true⟩, .recvOps, .work (-2), .work (-1)]

/-- A rendezvous message of type 1. -/
def alone : List (Action ℕ) :=
  [.handler ⟨10, 4, 1, true⟩, .recvOps, .recvOps, .recvOps]

end Comm
end ThreadUtils
