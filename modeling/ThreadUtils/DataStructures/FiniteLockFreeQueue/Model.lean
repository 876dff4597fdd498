import ThreadUtils.DataStructures.SizeT
import ThreadUtils.Transition.System
import ThreadUtils.Transition.Accounting

/-!
# The bounded lock-free queue

`TU_FiniteLockFreeQueue` is a ring of slots, each with a sequence number, and two
counters `head` and `tail`.  A push takes the ticket `t` by moving `tail` from `t`
to `t + 1`, writes the slot of `t` and stores the sequence number `t + 1`; a pop
takes the ticket `h` from `head`, reads the slot of `h` and stores `h + SIZE`.

The program counter of a thread names the atomic access it performs next and
carries the local variables that are live there.  Local arithmetic and branching
belong to the access before it.  `compare_exchange_weak` may fail spuriously, so
the action of a thread carries a flag that forces it to fail.

Only `pushed`, `popped` and `calls` are not variables of the code: they record the
successful ticket exchanges and the number of calls, and no step reads them.
-/

namespace ThreadUtils
namespace FiniteLockFreeQueue

/-- The capacity of a `TU_RingBuffer`: its static assertion makes it a power of
two, and it is a `size_t`. -/
structure RingSize where
  size : ℕ
  isPowerOfTwo : ∃ k, k < 64 ∧ size = 2 ^ k

namespace RingSize

variable (R : RingSize)

/-- `TU_RingBuffer::MASK`. -/
def mask : ℕ := R.size - 1

/-- The slot that `TU_RingBuffer::operator[]` selects. -/
def slot (idx : ℕ) : ℕ := idx &&& R.mask

theorem slot_eq_mod (idx : ℕ) : R.slot idx = idx % R.size := by
  obtain ⟨k, -, hk⟩ := R.isPowerOfTwo
  rw [slot, mask, hk, Nat.and_two_pow_sub_one_eq_mod]

theorem size_pos : 0 < R.size := by
  obtain ⟨k, -, hk⟩ := R.isPowerOfTwo
  rw [hk]
  exact Nat.two_pow_pos k

theorem size_le : R.size ≤ 2 ^ 63 := by
  obtain ⟨k, hk, he⟩ := R.isPowerOfTwo
  rw [he]
  exact Nat.pow_le_pow_right (by norm_num) (by omega)

theorem slot_lt (idx : ℕ) : R.slot idx < R.size := by
  rw [slot_eq_mod]
  exact Nat.mod_lt _ R.size_pos

end RingSize

variable {ι : Type*} {α : Type*}

/-- The shared variables of a `TU_FiniteLockFreeQueue`. -/
structure Mem (α : Type*) where
  sequence : ℕ → ℕ
  data : ℕ → α
  head : ℕ
  tail : ℕ

/-- The next access of a thread and its live local variables. -/
inductive Pc (α : Type*) where
  | idle
  /-- `t = this->tail.load()`, before the loop and where a newer ticket is seen. -/
  | pushLoadTail (value : α)
  /-- `seq = node->sequence.load()` with `node = &this->buffer[t]`. -/
  | pushLoadSeq (value : α) (t : ℕ)
  /-- `this->tail.compare_exchange_weak(t, t + 1)`. -/
  | pushCas (value : α) (t : ℕ)
  /-- `node->data = value`. -/
  | pushWrite (value : α) (t : ℕ)
  /-- `node->sequence.store(t + 1)`. -/
  | pushStore (value : α) (t : ℕ)
  /-- `return true` out of `push`. -/
  | pushTrue (value : α) (t : ℕ)
  /-- `return false` out of `push`. -/
  | pushFalse (value : α)
  /-- `h = this->head.load()`. -/
  | popLoadHead
  /-- `seq = node->sequence.load()` with `node = &this->buffer[h]`. -/
  | popLoadSeq (h : ℕ)
  /-- `this->head.compare_exchange_weak(h, h + 1)`. -/
  | popCas (h : ℕ)
  /-- `*result = node->data`. -/
  | popRead (h : ℕ)
  /-- `node->sequence.store(h + SIZE)`. -/
  | popStore (h : ℕ) (result : α)
  /-- `return true` out of `pop`. -/
  | popTrue (h : ℕ) (result : α)
  /-- `return false` out of `pop`. -/
  | popFalse
  deriving DecidableEq

/-- One access of a thread: the memory and the program counter after it.  `spurious`
makes a `compare_exchange_weak` fail although the values agree.  There is none for
a thread that is outside a call or about to return. -/
def Mem.access (R : RingSize) (m : Mem α) (spurious : Bool) : Pc α → Option (Mem α × Pc α)
  | .pushLoadTail value => some (m, .pushLoadSeq value m.tail)
  | .pushLoadSeq value t =>
      let diff := intptrDiff (m.sequence (R.slot t)) t
      if diff = 0 then some (m, .pushCas value t)
      else if diff < 0 then some (m, .pushFalse value)
      else some (m, .pushLoadTail value)
  | .pushCas value t =>
      if !spurious ∧ m.tail = t then
        some ({ m with tail := addSizeT t 1 }, .pushWrite value t)
      else some (m, .pushLoadSeq value m.tail)
  | .pushWrite value t =>
      some ({ m with data := Function.update m.data (R.slot t) value }, .pushStore value t)
  | .pushStore value t =>
      some ({ m with sequence := Function.update m.sequence (R.slot t) (addSizeT t 1) },
        .pushTrue value t)
  | .popLoadHead => some (m, .popLoadSeq m.head)
  | .popLoadSeq h =>
      let diff := intptrDiff (m.sequence (R.slot h)) (addSizeT h 1)
      if diff = 0 then some (m, .popCas h)
      else if diff < 0 then some (m, .popFalse)
      else some (m, .popLoadHead)
  | .popCas h =>
      if !spurious ∧ m.head = h then some ({ m with head := addSizeT h 1 }, .popRead h)
      else some (m, .popLoadSeq m.head)
  | .popRead h => some (m, .popStore h (m.data (R.slot h)))
  | .popStore h result =>
      some ({ m with sequence := Function.update m.sequence (R.slot h) (addSizeT h R.size) },
        .popTrue h result)
  | .idle | .pushTrue _ _ | .pushFalse _ | .popTrue _ _ | .popFalse => none

/-- The ticket whose slot a thread owns: from its successful exchange to its store
of the sequence number. -/
def Pc.ticket : Pc α → Option ℕ
  | .pushWrite _ t | .pushStore _ t => some t
  | .popRead h | .popStore h _ => some h
  | _ => none

/-- The queue, the threads that use it and the history of the run. -/
structure State (ι α : Type*) where
  mem : Mem α
  pc : ι → Pc α
  /-- The number of calls of `push` and `pop` so far. -/
  calls : ℕ
  /-- The thread and the value of each successful exchange of `tail`, in order. -/
  pushed : List (ι × α)
  /-- The thread of each successful exchange of `head`, in order. -/
  popped : List ι

/-- What a thread may do next. -/
inductive Action (ι α : Type*) where
  | push (i : ι) (value : α)
  | pop (i : ι)
  | access (i : ι) (spurious : Bool)
  | ret (i : ι)

/-- The history after an access: an exchange that succeeded is recorded. -/
def record (s : State ι α) (i : ι) (pc' : Pc α) : List (ι × α) × List ι :=
  match s.pc i, pc' with
  | .pushCas value _, .pushWrite _ _ => (s.pushed ++ [(i, value)], s.popped)
  | .popCas _, .popRead _ => (s.pushed, s.popped ++ [i])
  | _, _ => (s.pushed, s.popped)

variable [DecidableEq ι]

/-- One step of one thread. -/
def step (R : RingSize) (s : State ι α) : Action ι α → Option (State ι α)
  | .push i value =>
      match s.pc i with
      | .idle => some { s with
          pc := Function.update s.pc i (.pushLoadTail value), calls := s.calls + 1 }
      | _ => none
  | .pop i =>
      match s.pc i with
      | .idle => some { s with
          pc := Function.update s.pc i .popLoadHead, calls := s.calls + 1 }
      | _ => none
  | .access i spurious =>
      (s.mem.access R spurious (s.pc i)).map fun r =>
        { mem := r.1, pc := Function.update s.pc i r.2, calls := s.calls
          pushed := (record s i r.2).1, popped := (record s i r.2).2 }
  | .ret i =>
      match s.pc i with
      | .pushTrue _ _ | .pushFalse _ | .popTrue _ _ | .popFalse =>
          some { s with pc := Function.update s.pc i .idle }
      | _ => none

/-- A constructed queue: slot `i` has sequence number `i`, its data is not yet
written, and no thread is inside a call. -/
def IsInitial (R : RingSize) (s : State ι α) : Prop :=
  (∀ i < R.size, s.mem.sequence i = i) ∧ s.mem.head = 0 ∧ s.mem.tail = 0 ∧
    (∀ i, s.pc i = .idle) ∧ s.calls = 0 ∧ s.pushed = [] ∧ s.popped = []

/-- The queue of capacity `R.size` used by the threads `ι`. -/
def system (ι α : Type*) [DecidableEq ι] (R : RingSize) :
    TransitionSystem (State ι α) (Action ι α) where
  init := IsInitial R
  step := step R

end FiniteLockFreeQueue
end ThreadUtils
