import Mathlib.Data.List.Basic

/-!
# The queue with a lock

`TU_LockQueue` is a `std::queue` behind a mutex.  A single thread that uses it sees the
list `data`.
-/

namespace ThreadUtils

/-- A call of `push` or `pop`. -/
inductive QueueCall (α : Type*) where
  | push (value : α)
  | pop

/-- What is called, without the value. -/
inductive QueueCallKind where
  | push
  | pop
  deriving DecidableEq

def QueueCall.kind {α : Type*} : QueueCall α → QueueCallKind
  | .push _ => .push
  | .pop => .pop

/-- The element that a call of `push` brings. -/
def QueueCall.value? {α : Type*} : QueueCall α → Option α
  | .push value => some value
  | .pop => none

namespace LockQueue

variable {α : Type*}

/-- `TU_LockQueue::push`. -/
def push (data : List α) (value : α) : List α :=
  data ++ [value]

/-- `TU_LockQueue::pop`: the element, unless it returns false, and the data after it. -/
def pop : List α → Option α × List α
  | [] => (none, [])
  | value :: data => (some value, data)

/-- What the pops of a sequence of calls return. -/
def results (data : List α) : List (QueueCall α) → List (Option α)
  | [] => []
  | .push value :: calls => results (push data value) calls
  | .pop :: calls => (pop data).1 :: results (pop data).2 calls

end LockQueue
end ThreadUtils
