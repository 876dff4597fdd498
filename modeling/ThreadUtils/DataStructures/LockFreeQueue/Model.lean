import Mathlib.Data.Finset.Card
import ThreadUtils.DataStructures.SizeT
import ThreadUtils.Transition.System
import ThreadUtils.Transition.Accounting

/-!
# The unbounded lock-free queue

`TU_LockFreeQueue` is a linked list between `head_` and `tail_`, two pointers with a
version number.  The node of `head_` is a dummy: the elements are in the nodes after
it.  A push allocates a node, links it behind the last node and swings `tail_`; a
pop reads the element of the second node, moves `head_` to it and puts the old dummy
on the list of free nodes with `release_node`, which overwrites its `next` field.

As in the bounded queue the program counter names the next atomic access of a thread
together with its live local variables, and the action of a thread decides whether a
`compare_exchange_weak` fails spuriously.  It also names the address `new` returns,
which may be any address that is not in use.
-/

namespace ThreadUtils
namespace LockFreeQueue

variable {ι : Type*} {α : Type*}

/-- `TU_LockFreeQueueNodePtr`: the address of a node and a version number. -/
structure NodePtr where
  ptr : Option ℕ
  count : ℕ
  deriving DecidableEq

/-- The pair a tagged pointer is exchanged for. -/
def NodePtr.advance (p : NodePtr) (target : Option ℕ) : NodePtr :=
  ⟨target, addSizeT p.count 1⟩

/-- The shared variables of a `TU_LockFreeQueue` and the fields of its nodes. -/
structure Mem (α : Type*) where
  head_ : NodePtr
  tail_ : NodePtr
  free_ : NodePtr
  next : ℕ → NodePtr
  data : ℕ → α
  /-- The addresses of the nodes that were allocated and not deleted. -/
  allocated : Finset ℕ

/-- The next access of a thread and its live local variables. -/
inductive Pc (α : Type*) where
  | idle
  /-- `auto node = new TU_LockFreeQueueNode<T>(); node->data = std::move(value)`. -/
  | pushNew (value : α)
  /-- `node->next.store({nullptr, 0})`. -/
  | pushInit (value : α) (node : ℕ)
  /-- `tail = this->tail_.load()`. -/
  | pushLoadTail (value : α) (node : ℕ)
  /-- `next = tail.ptr->next.load()`. -/
  | pushLoadNext (value : α) (node : ℕ) (tail : NodePtr)
  /-- `if (tail == this->tail_.load())`. -/
  | pushCheck (value : α) (node : ℕ) (tail next : NodePtr)
  /-- `tail.ptr->next.compare_exchange_weak(next, {node, next.count + 1})`. -/
  | pushLink (value : α) (node : ℕ) (tail next : NodePtr)
  /-- `this->tail_.compare_exchange_weak(tail, {next.ptr, tail.count + 1})`. -/
  | pushHelp (value : α) (node : ℕ) (tail next : NodePtr)
  /-- `this->tail_.compare_exchange_weak(tail, {node, tail.count + 1})`. -/
  | pushSwing (node : ℕ) (tail : NodePtr)
  /-- The return from `push`. -/
  | pushDone
  /-- `head = this->head_.load()`. -/
  | popLoadHead
  /-- `tail = this->tail_.load()`. -/
  | popLoadTail (head : NodePtr)
  /-- `next = head.ptr->next.load()`. -/
  | popLoadNext (head tail : NodePtr)
  /-- `if (head == this->head_.load())`. -/
  | popCheck (head tail next : NodePtr)
  /-- `this->tail_.compare_exchange_weak(tail, {next.ptr, tail.count + 1})`. -/
  | popHelp (tail next : NodePtr)
  /-- `*result = next.ptr->data`. -/
  | popRead (head next : NodePtr)
  /-- `this->head_.compare_exchange_weak(head, {next.ptr, head.count + 1})`. -/
  | popCas (head next : NodePtr) (result : α)
  /-- `free = this->free_.load()` in `release_node`. -/
  | releaseLoad (node : Option ℕ) (result : α)
  /-- `node->next.store({free.ptr, free.count + 1})`. -/
  | releaseStore (node : Option ℕ) (free : NodePtr) (result : α)
  /-- `this->free_.compare_exchange_weak(free, {node, free.count + 1})`. -/
  | releaseCas (node : Option ℕ) (free : NodePtr) (result : α)
  /-- `return true` out of `pop`. -/
  | popTrue (result : α)
  /-- `return false` out of `pop`. -/
  | popFalse
  deriving DecidableEq

/-- What the environment decides about an access. -/
structure Choice where
  /-- The `compare_exchange_weak` fails although the values agree. -/
  spurious : Bool
  /-- The address that `new` returns. -/
  fresh : ℕ

/-- One access of a thread: the memory and the program counter after it.  There is
none outside a call, at a return, and through a null pointer. -/
def Mem.access (m : Mem α) (c : Choice) : Pc α → Option (Mem α × Pc α)
  | .pushNew value =>
      if c.fresh ∈ m.allocated then none
      else some
        ({ m with
            allocated := insert c.fresh m.allocated
            data := Function.update m.data c.fresh value
            next := Function.update m.next c.fresh ⟨none, 0⟩ },
          .pushInit value c.fresh)
  | .pushInit value node =>
      some ({ m with next := Function.update m.next node ⟨none, 0⟩ }, .pushLoadTail value node)
  | .pushLoadTail value node => some (m, .pushLoadNext value node m.tail_)
  | .pushLoadNext value node tail =>
      tail.ptr.map fun a => (m, .pushCheck value node tail (m.next a))
  | .pushCheck value node tail next =>
      if tail = m.tail_ then
        match next.ptr with
        | none => some (m, .pushLink value node tail next)
        | some _ => some (m, .pushHelp value node tail next)
      else some (m, .pushLoadTail value node)
  | .pushLink value node tail next =>
      tail.ptr.map fun a =>
        if !c.spurious ∧ m.next a = next then
          ({ m with next := Function.update m.next a (next.advance (some node)) },
            .pushSwing node tail)
        else (m, .pushLoadTail value node)
  | .pushHelp value node tail next =>
      if !c.spurious ∧ m.tail_ = tail then
        some ({ m with tail_ := tail.advance next.ptr }, .pushLoadTail value node)
      else some (m, .pushLoadTail value node)
  | .pushSwing node tail =>
      if !c.spurious ∧ m.tail_ = tail then
        some ({ m with tail_ := tail.advance (some node) }, .pushDone)
      else some (m, .pushDone)
  | .popLoadHead => some (m, .popLoadTail m.head_)
  | .popLoadTail head => some (m, .popLoadNext head m.tail_)
  | .popLoadNext head tail =>
      head.ptr.map fun a => (m, .popCheck head tail (m.next a))
  | .popCheck head tail next =>
      if head = m.head_ then
        if head = tail then
          match next.ptr with
          | none => some (m, .popFalse)
          | some _ => some (m, .popHelp tail next)
        else some (m, .popRead head next)
      else some (m, .popLoadHead)
  | .popHelp tail next =>
      if !c.spurious ∧ m.tail_ = tail then
        some ({ m with tail_ := tail.advance next.ptr }, .popLoadHead)
      else some (m, .popLoadHead)
  | .popRead head next => next.ptr.map fun a => (m, .popCas head next (m.data a))
  | .popCas head next result =>
      if !c.spurious ∧ m.head_ = head then
        some ({ m with head_ := head.advance next.ptr }, .releaseLoad head.ptr result)
      else some (m, .popLoadHead)
  | .releaseLoad node result => some (m, .releaseStore node m.free_ result)
  | .releaseStore node free result =>
      node.map fun a =>
        ({ m with next := Function.update m.next a (free.advance free.ptr) },
          .releaseCas node free result)
  | .releaseCas node free result =>
      if !c.spurious ∧ m.free_ = free then
        some ({ m with free_ := free.advance node }, .popTrue result)
      else some (m, .releaseLoad node result)
  | .idle | .pushDone | .popTrue _ | .popFalse => none

/-- The queue, the threads that use it and the number of calls so far.  No step reads
that number. -/
structure State (ι α : Type*) where
  mem : Mem α
  pc : ι → Pc α
  calls : ℕ

/-- What a thread may do next. -/
inductive Action (ι α : Type*) where
  | push (i : ι) (value : α)
  | pop (i : ι)
  | access (i : ι) (c : Choice)
  | ret (i : ι)

variable [DecidableEq ι]

/-- One step of one thread. -/
def step (s : State ι α) : Action ι α → Option (State ι α)
  | .push i value =>
      match s.pc i with
      | .idle => some { s with
          pc := Function.update s.pc i (.pushNew value), calls := s.calls + 1 }
      | _ => none
  | .pop i =>
      match s.pc i with
      | .idle => some { s with
          pc := Function.update s.pc i .popLoadHead, calls := s.calls + 1 }
      | _ => none
  | .access i c =>
      (s.mem.access c (s.pc i)).map fun r =>
        { mem := r.1, pc := Function.update s.pc i r.2, calls := s.calls }
  | .ret i =>
      match s.pc i with
      | .pushDone | .popTrue _ | .popFalse =>
          some { s with pc := Function.update s.pc i .idle }
      | _ => none

/-- A constructed queue: one dummy node, no free node and no thread inside a call. -/
def IsInitial (s : State ι α) : Prop :=
  ∃ dummy, s.mem.allocated = {dummy} ∧ s.mem.next dummy = ⟨none, 0⟩ ∧
    s.mem.head_ = ⟨some dummy, 0⟩ ∧ s.mem.tail_ = ⟨some dummy, 0⟩ ∧
    s.mem.free_ = ⟨none, 0⟩ ∧ (∀ i, s.pc i = .idle) ∧ s.calls = 0

/-- The queue used by the threads `ι`. -/
def system (ι α : Type*) [DecidableEq ι] : TransitionSystem (State ι α) (Action ι α) where
  init := IsInitial
  step := step

/-! ## The list the queue stands for -/

/-- The nodes met from `p` by following at most `n` pointers. -/
def Mem.follow (m : Mem α) : ℕ → Option ℕ → List ℕ
  | 0, _ => []
  | _ + 1, none => []
  | n + 1, some a => a :: m.follow n (m.next a).ptr

/-- The elements of the queue: the data of the nodes behind the dummy. -/
def Mem.contents (m : Mem α) : List α :=
  (m.follow m.allocated.card m.head_.ptr).tail.map m.data

end LockFreeQueue
end ThreadUtils
