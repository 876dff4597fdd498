import ThreadUtils.DataStructures.FiniteOverflowQueue.Model

/-!
# A thread group on its real queue

The task manager takes the queue of a group as a FIFO with an atomic `push` and `pop`.  Here one
group runs on the `TU_FiniteOverflowQueue` that it really has: its threads make the single accesses
of the ring and of the overflow queue, and an operation goes through them on its way from
`tu_tm_push_op` to a worker.

What is left of the group is the protocol around the queue.  `tu_tm_push_op` releases a permit of
the semaphore after its push; a worker acquires a permit and then drains the queue, until a `pop`
fails.  The pushes come from clients, from the workers of other groups, and from the operations
that the workers of this group execute.  What a worker does with an operation it got from the queue
(its `exec`, the queue of its state, the private cache) is one stay in `exec`, in which it may push
further operations.  `tu_tm_fini` is not called.
-/

namespace ThreadUtils
namespace TaskManager
namespace Group

open FiniteLockFreeQueue (RingSize)

variable {ι α : Type*}

/-- Where a thread is. -/
inductive Pc where
  /-- Code of the user in a client, or `tu_tm_worker_process_operation` and
  `worker_process_cache` in a worker. -/
  | exec (worker : Bool)
  /-- `queue.push` in `tu_tm_push_op`. -/
  | push (worker : Bool)
  /-- `sem.release()` in `tu_tm_push_op`. -/
  | release (worker : Bool)
  /-- `sem.acquire()` in `worker_run`. -/
  | acquire
  /-- The condition of the loop in `tu_tm_worker_process_operation_queue`. -/
  | drain
  /-- `queue.pop` in `worker_pop_op`. -/
  | pop
  deriving DecidableEq

/-- The queue of the group, its semaphore and the threads that use them. -/
structure State (ι α : Type*) where
  queue : FiniteOverflowQueue.State ι α
  sem : ℕ
  pc : ι → Pc

/-- What a thread may do next. -/
inductive Action (ι α : Type*) where
  /-- The user calls `tu_tm_push_op`. -/
  | pushOp (i : ι) (op : α)
  | release (i : ι)
  | acquire (i : ι)
  /-- The worker calls `worker_pop_op`. -/
  | popOp (i : ι)
  /-- An access of the queue. -/
  | access (i : ι) (c : LockFreeQueue.Choice)
  /-- The return from the ring or from the overflow queue. -/
  | ret (i : ι)
  /-- The worker has processed its operation. -/
  | execReturn (i : ι)

/-- After the return from a queue inside `queue.push`. -/
def afterPush (q : FiniteOverflowQueue.State ι α) (i : ι) (worker : Bool) : Pc :=
  match q.pc i with
  | .idle => .release worker
  | _ => .push worker

/-- After the return from a queue inside `queue.pop`: the worker executes the operation, or the
loop is over. -/
def afterPop (q : FiniteOverflowQueue.State ι α) (i : ι) : Pc :=
  match q.pc i, q.results.getLast? with
  | .idle, some (some _) => .exec true
  | .idle, _ => .acquire
  | _, _ => .pop

variable [DecidableEq ι]

def State.goto (s : State ι α) (i : ι) (pc : Pc) : State ι α :=
  { s with pc := Function.update s.pc i pc }

/-- The thread `i` makes a step in the queue and goes on in `pc`. -/
def State.inQueue (R : RingSize) (s : State ι α) (i : ι) (a : FiniteOverflowQueue.Action ι α)
    (pc : FiniteOverflowQueue.State ι α → Pc) : Option (State ι α) :=
  (FiniteOverflowQueue.step R s.queue a).map fun q =>
    { s with queue := q, pc := Function.update s.pc i (pc q) }

/-- One step of one thread. -/
def step (R : RingSize) (s : State ι α) : Action ι α → Option (State ι α)
  | .pushOp i op =>
      match s.pc i with
      | .exec worker => s.inQueue R i (.push i op) fun _ => .push worker
      | _ => none
  | .release i =>
      match s.pc i with
      | .release worker => some { s.goto i (.exec worker) with sem := s.sem + 1 }
      | _ => none
  | .acquire i =>
      match s.pc i with
      | .acquire => if 0 < s.sem then some { s.goto i .drain with sem := s.sem - 1 } else none
      | _ => none
  | .popOp i =>
      match s.pc i with
      | .drain => s.inQueue R i (.pop i) fun _ => .pop
      | _ => none
  | .access i c =>
      match s.pc i with
      | .push worker => s.inQueue R i (.access i c) fun _ => .push worker
      | .pop => s.inQueue R i (.access i c) fun _ => .pop
      | _ => none
  | .ret i =>
      match s.pc i with
      | .push worker => s.inQueue R i (.ret i) fun q => afterPush q i worker
      | .pop => s.inQueue R i (.ret i) fun q => afterPop q i
      | _ => none
  | .execReturn i =>
      match s.pc i with
      | .exec true => some (s.goto i .drain)
      | _ => none

/-- A group that has started: its workers are about to wait for a permit. -/
def IsInitial (R : RingSize) (s : State ι α) : Prop :=
  FiniteOverflowQueue.IsInitial R s.queue ∧ s.sem = 0 ∧
    ∀ i, s.pc i = .acquire ∨ s.pc i = .exec false

/-- A group with a ring of the capacity `R.size`, its workers and its clients. -/
def system (ι α : Type*) [DecidableEq ι] (R : RingSize) :
    TransitionSystem (State ι α) (Action ι α) where
  init := IsInitial R
  step := step R

/-! ## What a step does -/

/-- The steps, with the conditions under which they are made. -/
inductive Effect (R : RingSize) (s : State ι α) : Action ι α → State ι α → Prop
  | pushOp (i : ι) (op : α) (worker : Bool) (q : FiniteOverflowQueue.State ι α) :
      s.pc i = .exec worker → FiniteOverflowQueue.step R s.queue (.push i op) = some q →
      Effect R s (.pushOp i op) { s.goto i (.push worker) with queue := q }
  | release (i : ι) (worker : Bool) : s.pc i = .release worker →
      Effect R s (.release i) { s.goto i (.exec worker) with sem := s.sem + 1 }
  | acquire (i : ι) : s.pc i = .acquire → 0 < s.sem →
      Effect R s (.acquire i) { s.goto i .drain with sem := s.sem - 1 }
  | popOp (i : ι) (q : FiniteOverflowQueue.State ι α) : s.pc i = .drain →
      FiniteOverflowQueue.step R s.queue (.pop i) = some q →
      Effect R s (.popOp i) { s.goto i .pop with queue := q }
  | access (i : ι) (c : LockFreeQueue.Choice) (q : FiniteOverflowQueue.State ι α) :
      (∃ worker, s.pc i = .push worker) ∨ s.pc i = .pop →
      FiniteOverflowQueue.step R s.queue (.access i c) = some q →
      Effect R s (.access i c) { s with queue := q }
  | pushed (i : ι) (worker : Bool) (q : FiniteOverflowQueue.State ι α) : s.pc i = .push worker →
      FiniteOverflowQueue.step R s.queue (.ret i) = some q →
      Effect R s (.ret i) { s.goto i (afterPush q i worker) with queue := q }
  | popped (i : ι) (q : FiniteOverflowQueue.State ι α) : s.pc i = .pop →
      FiniteOverflowQueue.step R s.queue (.ret i) = some q →
      Effect R s (.ret i) { s.goto i (afterPop q i) with queue := q }
  | execReturn (i : ι) : s.pc i = .exec true → Effect R s (.execReturn i) (s.goto i .drain)

variable {R : RingSize} {s s' : State ι α}

/-- **Every step is one of the listed ones.** -/
theorem effect_of_step {a : Action ι α} (h : step R s a = some s') : Effect R s a s' := by
  cases a with
  | pushOp i op =>
    rw [step] at h
    split at h
    · next worker hpc =>
      obtain ⟨q, hq, rfl⟩ := Option.map_eq_some_iff.mp h
      exact .pushOp i op worker q hpc hq
    · cases h
  | release i =>
    rw [step] at h
    split at h
    · next worker hpc =>
      obtain rfl := Option.some.inj h
      exact .release i worker hpc
    · cases h
  | acquire i =>
    rw [step] at h
    split at h
    · next hpc =>
      split at h
      · next hsem =>
        obtain rfl := Option.some.inj h
        exact .acquire i hpc hsem
      · cases h
    · cases h
  | popOp i =>
    rw [step] at h
    split at h
    · next hpc =>
      obtain ⟨q, hq, rfl⟩ := Option.map_eq_some_iff.mp h
      exact .popOp i q hpc hq
    · cases h
  | access i c =>
    have hsame : ∀ pc, s.pc i = pc → Function.update s.pc i pc = s.pc := by
      rintro _ rfl
      exact Function.update_eq_self i s.pc
    rw [step] at h
    split at h
    · next worker hpc =>
      obtain ⟨q, hq, rfl⟩ := Option.map_eq_some_iff.mp h
      rw [hsame _ hpc]
      exact .access i c q (Or.inl ⟨worker, hpc⟩) hq
    · next hpc =>
      obtain ⟨q, hq, rfl⟩ := Option.map_eq_some_iff.mp h
      rw [hsame _ hpc]
      exact .access i c q (Or.inr hpc) hq
    · cases h
  | ret i =>
    rw [step] at h
    split at h
    · next worker hpc =>
      obtain ⟨q, hq, rfl⟩ := Option.map_eq_some_iff.mp h
      exact .pushed i worker q hpc hq
    · next hpc =>
      obtain ⟨q, hq, rfl⟩ := Option.map_eq_some_iff.mp h
      exact .popped i q hpc hq
    · cases h
  | execReturn i =>
    rw [step] at h
    split at h
    · next hpc =>
      obtain rfl := Option.some.inj h
      exact .execReturn i hpc
    · cases h

end Group
end TaskManager
end ThreadUtils
