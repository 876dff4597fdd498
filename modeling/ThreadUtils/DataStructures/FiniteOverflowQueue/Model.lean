import ThreadUtils.DataStructures.FiniteLockFreeQueue.Model
import ThreadUtils.DataStructures.LockFreeQueue.Model
import ThreadUtils.DataStructures.LockQueue

/-!
# The ring with an overflow queue

`TU_FiniteOverflowQueue` pushes to a ring and, when the ring refuses, to an unbounded
queue; it pops from the ring and, when the ring is empty, from the unbounded queue.

The state has the states of the two queues, whose accesses are those of their own models.
The program counter of a thread says which of the two it is in.  The return from one of
them and the call that follows are no accesses, and one step.

`Effect` lists the steps with the conditions under which they are made, so that the modules that
follow argue about the steps of the two queues and not about the branches of the step function.  The
lists `calls` and `results` record the history and are read by no step.
-/

namespace ThreadUtils
namespace FiniteOverflowQueue

open FiniteLockFreeQueue (RingSize)

variable {ι : Type*} {α : Type*}

/-- The call that a thread is in. -/
inductive Pc (α : Type*) where
  | idle
  /-- `this->finite_queue.push(value)`. -/
  | pushFinite (value : α)
  /-- `this->overflow_queue.push(value)`. -/
  | pushOverflow (value : α)
  /-- `this->finite_queue.pop(result)`. -/
  | popFinite
  /-- `this->overflow_queue.pop(result)`. -/
  | popOverflow
  deriving DecidableEq

/-- The two queues, the threads that use them and the history of the run. -/
structure State (ι α : Type*) where
  finite : FiniteLockFreeQueue.State ι α
  overflow : LockFreeQueue.State ι α
  pc : ι → Pc α
  /-- The calls, in order. -/
  calls : List (QueueCall α)
  /-- What the pops have returned, in order. -/
  results : List (Option α)

/-- What a thread may do next. -/
inductive Action (ι α : Type*) where
  | push (i : ι) (value : α)
  | pop (i : ι)
  /-- An access of the queue that the thread is in. -/
  | access (i : ι) (c : LockFreeQueue.Choice)
  /-- The return from the queue that the thread is in. -/
  | ret (i : ι)

/-- The thread that makes a step. -/
def Action.thread : Action ι α → ι
  | .push i _ | .pop i | .access i _ | .ret i => i

variable [DecidableEq ι]

/-- A step of the ring. -/
def State.stepFinite (R : RingSize) (s : State ι α) (a : FiniteLockFreeQueue.Action ι α) :
    Option (State ι α) :=
  (FiniteLockFreeQueue.step R s.finite a).map fun t => { s with finite := t }

/-- A step of the overflow queue. -/
def State.stepOverflow (s : State ι α) (a : LockFreeQueue.Action ι α) : Option (State ι α) :=
  (LockFreeQueue.step s.overflow a).map fun t => { s with overflow := t }

/-- The thread `i` goes on in `pc`. -/
def State.goto (s : State ι α) (i : ι) (pc : Pc α) : State ι α :=
  { s with pc := Function.update s.pc i pc }

/-- The return of `pop`. -/
def State.returns (s : State ι α) (i : ι) (result : Option α) : State ι α :=
  { s with pc := Function.update s.pc i .idle, results := s.results ++ [result] }

/-- The return from one of the two queues, with what follows. -/
def State.ret (R : RingSize) (s : State ι α) (i : ι) : Option (State ι α) :=
  match s.pc i with
  | .idle => none
  | .pushFinite value =>
      match s.finite.pc i with
      | .pushTrue _ _ => (s.stepFinite R (.ret i)).map fun t => t.goto i .idle
      | .pushFalse _ => (s.stepFinite R (.ret i)).bind fun t =>
          (t.stepOverflow (.push i value)).map fun u => u.goto i (.pushOverflow value)
      | _ => none
  | .pushOverflow _ => (s.stepOverflow (.ret i)).map fun t => t.goto i .idle
  | .popFinite =>
      match s.finite.pc i with
      | .popTrue _ result => (s.stepFinite R (.ret i)).map fun t => t.returns i (some result)
      | .popFalse => (s.stepFinite R (.ret i)).bind fun t =>
          (t.stepOverflow (.pop i)).map fun u => u.goto i .popOverflow
      | _ => none
  | .popOverflow =>
      match s.overflow.pc i with
      | .popTrue result => (s.stepOverflow (.ret i)).map fun t => t.returns i (some result)
      | .popFalse => (s.stepOverflow (.ret i)).map fun t => t.returns i none
      | _ => none

/-- One step of one thread. -/
def step (R : RingSize) (s : State ι α) : Action ι α → Option (State ι α)
  | .push i value =>
      match s.pc i with
      | .idle => (s.stepFinite R (.push i value)).map fun t =>
          { t.goto i (.pushFinite value) with calls := s.calls ++ [.push value] }
      | _ => none
  | .pop i =>
      match s.pc i with
      | .idle => (s.stepFinite R (.pop i)).map fun t =>
          { t.goto i .popFinite with calls := s.calls ++ [.pop] }
      | _ => none
  | .access i c =>
      match s.pc i with
      | .idle => none
      | .pushFinite _ | .popFinite => s.stepFinite R (.access i c.spurious)
      | .pushOverflow _ | .popOverflow => s.stepOverflow (.access i c)
  | .ret i => s.ret R i

/-- A constructed queue. -/
def IsInitial (R : RingSize) (s : State ι α) : Prop :=
  FiniteLockFreeQueue.IsInitial R s.finite ∧ LockFreeQueue.IsInitial s.overflow ∧
    (∀ i, s.pc i = .idle) ∧ s.calls = [] ∧ s.results = []

/-- The queue with a ring of the capacity `R.size`, used by the threads `ι`. -/
def system (ι α : Type*) [DecidableEq ι] (R : RingSize) :
    TransitionSystem (State ι α) (Action ι α) where
  init := IsInitial R
  step := step R

/-! ## What a step does -/

/-- The steps, with the conditions under which they are made. -/
inductive Effect (R : RingSize) (s : State ι α) : Action ι α → State ι α → Prop
  | push (i : ι) (value : α) (t : FiniteLockFreeQueue.State ι α) : s.pc i = .idle →
      FiniteLockFreeQueue.step R s.finite (.push i value) = some t →
      Effect R s (.push i value)
        { s.goto i (.pushFinite value) with finite := t, calls := s.calls ++ [.push value] }
  | pop (i : ι) (t : FiniteLockFreeQueue.State ι α) : s.pc i = .idle →
      FiniteLockFreeQueue.step R s.finite (.pop i) = some t →
      Effect R s (.pop i) { s.goto i .popFinite with finite := t, calls := s.calls ++ [.pop] }
  | finite (i : ι) (c : LockFreeQueue.Choice) (t : FiniteLockFreeQueue.State ι α) :
      (∃ value, s.pc i = .pushFinite value) ∨ s.pc i = .popFinite →
      FiniteLockFreeQueue.step R s.finite (.access i c.spurious) = some t →
      Effect R s (.access i c) { s with finite := t }
  | overflow (i : ι) (c : LockFreeQueue.Choice) (t : LockFreeQueue.State ι α) :
      (∃ value, s.pc i = .pushOverflow value) ∨ s.pc i = .popOverflow →
      LockFreeQueue.step s.overflow (.access i c) = some t →
      Effect R s (.access i c) { s with overflow := t }
  /-- The ring took the value. -/
  | pushed (i : ι) (value : α) (t : FiniteLockFreeQueue.State ι α) : s.pc i = .pushFinite value →
      (∃ v n, s.finite.pc i = .pushTrue v n) →
      FiniteLockFreeQueue.step R s.finite (.ret i) = some t →
      Effect R s (.ret i) { s.goto i .idle with finite := t }
  /-- The ring refused the value. -/
  | refused (i : ι) (value : α) (t : FiniteLockFreeQueue.State ι α)
      (u : LockFreeQueue.State ι α) : s.pc i = .pushFinite value →
      (∃ v, s.finite.pc i = .pushFalse v) →
      FiniteLockFreeQueue.step R s.finite (.ret i) = some t →
      LockFreeQueue.step s.overflow (.push i value) = some u →
      Effect R s (.ret i) { s.goto i (.pushOverflow value) with finite := t, overflow := u }
  | overflowed (i : ι) (value : α) (u : LockFreeQueue.State ι α) : s.pc i = .pushOverflow value →
      LockFreeQueue.step s.overflow (.ret i) = some u →
      Effect R s (.ret i) { s.goto i .idle with overflow := u }
  | popped (i : ι) (n : ℕ) (result : α) (t : FiniteLockFreeQueue.State ι α) :
      s.pc i = .popFinite → s.finite.pc i = .popTrue n result →
      FiniteLockFreeQueue.step R s.finite (.ret i) = some t →
      Effect R s (.ret i) { s.returns i (some result) with finite := t }
  /-- The ring was empty. -/
  | missed (i : ι) (t : FiniteLockFreeQueue.State ι α) (u : LockFreeQueue.State ι α) :
      s.pc i = .popFinite → s.finite.pc i = .popFalse →
      FiniteLockFreeQueue.step R s.finite (.ret i) = some t →
      LockFreeQueue.step s.overflow (.pop i) = some u →
      Effect R s (.ret i) { s.goto i .popOverflow with finite := t, overflow := u }
  | overflowPopped (i : ι) (result : α) (u : LockFreeQueue.State ι α) :
      s.pc i = .popOverflow → s.overflow.pc i = .popTrue result →
      LockFreeQueue.step s.overflow (.ret i) = some u →
      Effect R s (.ret i) { s.returns i (some result) with overflow := u }
  /-- Both queues were empty. -/
  | empty (i : ι) (u : LockFreeQueue.State ι α) :
      s.pc i = .popOverflow → s.overflow.pc i = .popFalse →
      LockFreeQueue.step s.overflow (.ret i) = some u →
      Effect R s (.ret i) { s.returns i none with overflow := u }

variable {R : RingSize} {s s' : State ι α}

theorem effect_ret {i : ι} (h : s.ret R i = some s') : Effect R s (.ret i) s' := by
  unfold State.ret at h
  split at h
  · cases h
  · next value hpc =>
    split at h
    · next v n hf =>
      obtain ⟨t, ht, rfl⟩ := Option.map_eq_some_iff.mp h
      obtain ⟨t', ht', rfl⟩ := Option.map_eq_some_iff.mp ht
      exact .pushed i value t' hpc ⟨v, n, hf⟩ ht'
    · next v hf =>
      obtain ⟨t, ht, h⟩ := Option.bind_eq_some_iff.mp h
      obtain ⟨t', ht', rfl⟩ := Option.map_eq_some_iff.mp ht
      obtain ⟨u, hu, rfl⟩ := Option.map_eq_some_iff.mp h
      obtain ⟨u', hu', rfl⟩ := Option.map_eq_some_iff.mp hu
      exact .refused i value t' u' hpc ⟨v, hf⟩ ht' hu'
    · cases h
  · next value hpc =>
    obtain ⟨u, hu, rfl⟩ := Option.map_eq_some_iff.mp h
    obtain ⟨u', hu', rfl⟩ := Option.map_eq_some_iff.mp hu
    exact .overflowed i value u' hpc hu'
  · next hpc =>
    split at h
    · next n result hf =>
      obtain ⟨t, ht, rfl⟩ := Option.map_eq_some_iff.mp h
      obtain ⟨t', ht', rfl⟩ := Option.map_eq_some_iff.mp ht
      exact .popped i n result t' hpc hf ht'
    · next hf =>
      obtain ⟨t, ht, h⟩ := Option.bind_eq_some_iff.mp h
      obtain ⟨t', ht', rfl⟩ := Option.map_eq_some_iff.mp ht
      obtain ⟨u, hu, rfl⟩ := Option.map_eq_some_iff.mp h
      obtain ⟨u', hu', rfl⟩ := Option.map_eq_some_iff.mp hu
      exact .missed i t' u' hpc hf ht' hu'
    · cases h
  · next hpc =>
    split at h
    · next result ho =>
      obtain ⟨u, hu, rfl⟩ := Option.map_eq_some_iff.mp h
      obtain ⟨u', hu', rfl⟩ := Option.map_eq_some_iff.mp hu
      exact .overflowPopped i result u' hpc ho hu'
    · next ho =>
      obtain ⟨u, hu, rfl⟩ := Option.map_eq_some_iff.mp h
      obtain ⟨u', hu', rfl⟩ := Option.map_eq_some_iff.mp hu
      exact .empty i u' hpc ho hu'
    · cases h

/-- **Every step is one of the listed ones.** -/
theorem effect_of_step {a : Action ι α} (h : step R s a = some s') : Effect R s a s' := by
  cases a with
  | push i value =>
    rw [step] at h
    split at h
    · next hpc =>
      obtain ⟨t, ht, rfl⟩ := Option.map_eq_some_iff.mp h
      obtain ⟨t', ht', rfl⟩ := Option.map_eq_some_iff.mp ht
      exact .push i value t' hpc ht'
    · cases h
  | pop i =>
    rw [step] at h
    split at h
    · next hpc =>
      obtain ⟨t, ht, rfl⟩ := Option.map_eq_some_iff.mp h
      obtain ⟨t', ht', rfl⟩ := Option.map_eq_some_iff.mp ht
      exact .pop i t' hpc ht'
    · cases h
  | access i c =>
    rw [step] at h
    split at h
    · cases h
    · next value hpc =>
      obtain ⟨t, ht, rfl⟩ := Option.map_eq_some_iff.mp h
      exact .finite i c t (Or.inl ⟨value, hpc⟩) ht
    · next hpc =>
      obtain ⟨t, ht, rfl⟩ := Option.map_eq_some_iff.mp h
      exact .finite i c t (Or.inr hpc) ht
    · next value hpc =>
      obtain ⟨u, hu, rfl⟩ := Option.map_eq_some_iff.mp h
      exact .overflow i c u (Or.inl ⟨value, hpc⟩) hu
    · next hpc =>
      obtain ⟨u, hu, rfl⟩ := Option.map_eq_some_iff.mp h
      exact .overflow i c u (Or.inr hpc) hu
  | ret i => exact effect_ret h

end FiniteOverflowQueue
end ThreadUtils
