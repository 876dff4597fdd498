import ThreadUtils.DataStructures.LockQueue
import ThreadUtils.Transition.AtomicObject

/-!
# The queue with a lock, used by threads

Every call of `TU_LockQueue` holds the mutex while it uses the `std::queue`, one access after the
other.  A thread that wants to lock the mutex waits until nobody holds it.  `front` and `pop` of an
empty `std::queue` are undefined, and the model makes no step there.
-/

namespace ThreadUtils

/-- What a call of the queue answers: `push` returns nothing, `pop` returns `true` and an element,
or `false`. -/
inductive QueueAnswer (α : Type*) where
  | pushed
  | popped (value : α)
  | empty
  deriving DecidableEq

namespace LockQueue

variable {ι α : Type*}

/-- The next access of a thread and its live local variables. -/
inductive Pc (α : Type*) where
  | idle
  /-- `TU_Lock lck(this->mutex)` in `push`. -/
  | pushLock (value : α)
  /-- `this->data.push(std::move(value))`. -/
  | pushData (value : α)
  /-- `TU_Lock lck(this->mutex)` in `pop`. -/
  | popLock
  /-- `if (this->data.empty())`. -/
  | popEmpty
  /-- `*result = this->data.front()`. -/
  | popFront
  /-- `this->data.pop()`. -/
  | popData (result : α)
  /-- `lck` goes out of scope. -/
  | unlock (answer : QueueAnswer α)
  /-- The return. -/
  | done (answer : QueueAnswer α)

/-- The fields of a `TU_LockQueue`: the thread that holds the mutex, and the elements. -/
structure Mem (ι α : Type*) where
  mutex : Option ι
  data : List α

/-- One access of the thread `i`: the memory and the program counter after it. -/
def Mem.access (m : Mem ι α) (i : ι) : Pc α → Option (Mem ι α × Pc α)
  | .pushLock value =>
      match m.mutex with
      | none => some ({ m with mutex := some i }, .pushData value)
      | some _ => none
  | .pushData value => some ({ m with data := m.data ++ [value] }, .unlock .pushed)
  | .popLock =>
      match m.mutex with
      | none => some ({ m with mutex := some i }, .popEmpty)
      | some _ => none
  | .popEmpty => some (m, if m.data.isEmpty then .unlock .empty else .popFront)
  | .popFront =>
      match m.data with
      | [] => none
      | value :: _ => some (m, .popData value)
  | .popData result =>
      match m.data with
      | [] => none
      | _ :: data => some ({ m with data := data }, .unlock (.popped result))
  | .unlock answer => some ({ m with mutex := none }, .done answer)
  | .idle | .done _ => none

/-- The queue and the threads that use it. -/
structure State (ι α : Type*) where
  mem : Mem ι α
  pc : ι → Pc α

/-- What a thread may do next. -/
inductive Action (ι α : Type*) where
  | push (i : ι) (value : α)
  | pop (i : ι)
  | access (i : ι)
  | ret (i : ι)

variable [DecidableEq ι]

/-- One step of one thread. -/
def step (s : State ι α) : Action ι α → Option (State ι α)
  | .push i value =>
      match s.pc i with
      | .idle => some { s with pc := Function.update s.pc i (.pushLock value) }
      | _ => none
  | .pop i =>
      match s.pc i with
      | .idle => some { s with pc := Function.update s.pc i .popLock }
      | _ => none
  | .access i =>
      (s.mem.access i (s.pc i)).map fun r => ⟨r.1, Function.update s.pc i r.2⟩
  | .ret i =>
      match s.pc i with
      | .done _ => some { s with pc := Function.update s.pc i .idle }
      | _ => none

/-- A constructed queue. -/
def new (ι α : Type*) : State ι α :=
  ⟨⟨none, []⟩, fun _ => .idle⟩

/-- The queue used by the threads `ι`. -/
def system (ι α : Type*) [DecidableEq ι] : TransitionSystem (State ι α) (Action ι α) where
  init s := s = new ι α
  step := step

/-! ## What the threads see -/

/-- The calls and the returns, with their arguments and answers. -/
abbrev Event (ι α : Type*) :=
  AtomicObject.Event ι (QueueCall α) (QueueAnswer α)

/-- What is seen of a step. -/
def event (t : TransitionSystem.Transition (State ι α) (Action ι α)) : Option (Event ι α) :=
  match t.action with
  | .push i value => some (.call i (.push value))
  | .pop i => some (.call i .pop)
  | .access _ => none
  | .ret i =>
      match t.source.pc i with
      | .done answer => some (.ret i answer)
      | _ => none

/-- The histories of the queue with a lock. -/
def histories (ι α : Type*) [DecidableEq ι] : Set (List (Event ι α)) :=
  (system ι α).Histories event (new ι α)

/-- The queue whose calls take effect at once, as a single thread sees `TU_LockQueue`. -/
def atomicQueue (α : Type*) : AtomicObject (List α) (QueueCall α) (QueueAnswer α) where
  init := []
  apply
    | .push value, data => (push data value, .pushed)
    | .pop, data =>
        match pop data with
        | (some value, rest) => (rest, .popped value)
        | (none, rest) => (rest, .empty)

/-! ## The steps -/

variable {s s' : State ι α}

/-- The steps, with what is seen of them. -/
inductive Effect (s : State ι α) : Action ι α → State ι α → Option (Event ι α) → Prop
  | push (i : ι) (value : α) : s.pc i = .idle →
      Effect s (.push i value) { s with pc := Function.update s.pc i (.pushLock value) }
        (some (.call i (.push value)))
  | pop (i : ι) : s.pc i = .idle →
      Effect s (.pop i) { s with pc := Function.update s.pc i .popLock } (some (.call i .pop))
  | access (i : ι) (m : Mem ι α) (pc : Pc α) : s.mem.access i (s.pc i) = some (m, pc) →
      Effect s (.access i) ⟨m, Function.update s.pc i pc⟩ none
  | ret (i : ι) (answer : QueueAnswer α) : s.pc i = .done answer →
      Effect s (.ret i) { s with pc := Function.update s.pc i .idle } (some (.ret i answer))

/-- **Every step is one of the listed ones.** -/
theorem effect_of_step {a : Action ι α} (h : step s a = some s') :
    Effect s a s' (event ⟨s, a, s'⟩) := by
  cases a with
  | push i value =>
    rw [step] at h
    split at h
    · next hpc =>
      obtain rfl := Option.some.inj h
      exact .push i value hpc
    · cases h
  | pop i =>
    rw [step] at h
    split at h
    · next hpc =>
      obtain rfl := Option.some.inj h
      exact .pop i hpc
    · cases h
  | access i =>
    obtain ⟨⟨m, pc⟩, hr, rfl⟩ := Option.map_eq_some_iff.mp h
    exact .access i m pc hr
  | ret i =>
    rw [step] at h
    split at h
    · next answer hpc =>
      obtain rfl := Option.some.inj h
      have hevent : event ⟨s, .ret i, { s with pc := Function.update s.pc i .idle }⟩ =
          some (.ret i answer) := by
        rw [event]
        dsimp only
        rw [hpc]
      rw [hevent]
      exact .ret i answer hpc
    · cases h

end LockQueue
end ThreadUtils
