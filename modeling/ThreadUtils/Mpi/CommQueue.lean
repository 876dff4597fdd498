import Mathlib.Data.List.Perm.Subperm
import Mathlib.Data.List.Range
import Mathlib.Logic.Function.Basic
import ThreadUtils.DataStructures.SizeT
import ThreadUtils.Transition.DoublyLinked
import ThreadUtils.Transition.System

/-!
# The queue of the communicator

`TU_CommQueue` keeps two lists in one vector of nodes: the elements in the order they were added,
linked in both directions, and the slots that are free, linked by `next`.  The index 0 is the end
of both, and the `prev` of the first element is the last one.

## The vector

The vector is its nodes with their number; its capacity stands beside the queue, since nothing but
`add` and `copy` looks at it.  Which capacities a vector takes is a matter of the implementation of
`std::vector`, so they are a parameter, an `Allocation`, of which only the documented bounds are
known.  An allocation that is asked for is made.

Two things can go wrong.  `default_capacity + 1` is a `size_t`, and is 0 for the greatest capacity:
the constructor then writes behind an empty vector.  And `add` takes its argument by reference and
reads it last.  The reference may be one that `at` has returned, and then `memory_.push_back` may
have moved the nodes before it is read, so that the memory it is read from has been freed.  An `add`
like this has no result, and the queue has `failed`.

## The argument

`Holds` says that the used list and the free list are the elements and the other slots, through
`NextLinks` and `PrevLinks`.  A call works at one place of a list, so the list is split there and
the two parts are linked again; `prev` needs the last element besides, for the first one.  The
loops are walks along `next`, and the loop that removes goes on with what `remove` returns.

An invariant on the capacity is all that the reference needs.  The nodes are moved if no slot is
free and the vector has no room, and under `Holds` this is a matter of the number of the elements.

* `insertionOrdered_iff` --- after a run of calls, the loops over the queue, its size and its two
  lists are those of the elements that were added and not removed, if and only if the capacity is
  not the greatest one and no element of the queue was added when the elements filled the vector.
* `Holds.addObject`, `Holds.remove`, `Holds.iterate` --- what the communicator uses of the queue.
-/

namespace ThreadUtils

variable {T : Type*}

namespace CommQueue

/-- `TU_CommQueue::Node`. -/
structure Node (T : Type*) where
  data : T
  next : ℕ
  prev : ℕ

/-- `Node{}`. -/
instance [Inhabited T] : Inhabited (Node T) := ⟨⟨default, 0, 0⟩⟩

/-- An assignment to a field of `memory_[idx]`. -/
def edit (memory : ℕ → Node T) (idx : ℕ) (f : Node T → Node T) : ℕ → Node T :=
  Function.update memory idx (f (memory idx))

/-- `memory_[idx].next = next`. -/
def setNext (memory : ℕ → Node T) (idx next : ℕ) : ℕ → Node T :=
  edit memory idx fun node => { node with next := next }

/-- `memory_[idx].prev = prev`. -/
def setPrev (memory : ℕ → Node T) (idx prev : ℕ) : ℕ → Node T :=
  edit memory idx fun node => { node with prev := prev }

/-- `memory_[idx].data = data`. -/
def setData (memory : ℕ → Node T) (idx : ℕ) (data : T) : ℕ → Node T :=
  edit memory idx fun node => { node with data := data }

section Edit

variable (memory : ℕ → Node T) (idx : ℕ)

/-- The value of a field that the assignment sets. -/
theorem edit_field {β : Type*} (field : Node T → β) {f : Node T → Node T} {x : β}
    (h : ∀ node, field (f node) = x) (i : ℕ) :
    field (edit memory idx f i) = if i = idx then x else field (memory i) := by
  unfold edit
  rw [Function.update_apply]
  split
  · exact h _
  · rfl

/-- The value of a field that it leaves. -/
theorem edit_other {β : Type*} (field : Node T → β) {f : Node T → Node T}
    (h : ∀ node, field (f node) = field node) (i : ℕ) :
    field (edit memory idx f i) = field (memory i) := by
  unfold edit
  rw [Function.update_apply]
  split
  · next heq => rw [h, heq]
  · rfl

@[simp] theorem setNext_next (next i : ℕ) :
    (setNext memory idx next i).next = if i = idx then next else (memory i).next := by
  refine edit_field memory idx Node.next ?_ i
  exact fun _ => rfl

@[simp] theorem setNext_prev (next i : ℕ) :
    (setNext memory idx next i).prev = (memory i).prev := by
  refine edit_other memory idx Node.prev ?_ i
  exact fun _ => rfl

@[simp] theorem setNext_data (next i : ℕ) :
    (setNext memory idx next i).data = (memory i).data := by
  refine edit_other memory idx Node.data ?_ i
  exact fun _ => rfl

@[simp] theorem setPrev_next (prev i : ℕ) :
    (setPrev memory idx prev i).next = (memory i).next := by
  refine edit_other memory idx Node.next ?_ i
  exact fun _ => rfl

@[simp] theorem setPrev_prev (prev i : ℕ) :
    (setPrev memory idx prev i).prev = if i = idx then prev else (memory i).prev := by
  refine edit_field memory idx Node.prev ?_ i
  exact fun _ => rfl

@[simp] theorem setPrev_data (prev i : ℕ) :
    (setPrev memory idx prev i).data = (memory i).data := by
  refine edit_other memory idx Node.data ?_ i
  exact fun _ => rfl

@[simp] theorem setData_next (data : T) (i : ℕ) :
    (setData memory idx data i).next = (memory i).next := by
  refine edit_other memory idx Node.next ?_ i
  exact fun _ => rfl

@[simp] theorem setData_prev (data : T) (i : ℕ) :
    (setData memory idx data i).prev = (memory i).prev := by
  refine edit_other memory idx Node.prev ?_ i
  exact fun _ => rfl

@[simp] theorem setData_data (data : T) (i : ℕ) :
    (setData memory idx data i).data = if i = idx then data else (memory i).data := by
  refine edit_field memory idx Node.data ?_ i
  exact fun _ => rfl

end Edit

/-- The loop `for (; i < bound; ++i) { memory_[i].next = i + 1; }` of `n` iterations. -/
def linkUp (memory : ℕ → Node T) (i : ℕ) : ℕ → ℕ → Node T
  | 0 => memory
  | n + 1 => linkUp (setNext memory i (i + 1)) (i + 1) n

theorem linkUp_next (memory : ℕ → Node T) (i n j : ℕ) :
    (linkUp memory i n j).next = if i ≤ j ∧ j < i + n then j + 1 else (memory j).next := by
  induction n generalizing memory i with
  | zero => rw [linkUp, if_neg (by omega)]
  | succ n ih =>
    rw [linkUp, ih, setNext_next]
    split_ifs <;> omega

@[simp] theorem linkUp_data (memory : ℕ → Node T) (i n j : ℕ) :
    (linkUp memory i n j).data = (memory j).data := by
  induction n generalizing memory i with
  | zero => rfl
  | succ n ih => rw [linkUp, ih, setNext_data]

end CommQueue

open CommQueue in
/-- `TU_CommQueue`. -/
structure CommQueue (T : Type*) where
  freeList : ℕ
  usedList : ℕ
  size : ℕ
  memory : ℕ → Node T
  /-- `memory_.size()`. -/
  memorySize : ℕ

namespace CommQueue

variable [Inhabited T]

/-- The body of the constructor, for a vector with a node. -/
def linkMemory (memorySize : ℕ) : CommQueue T :=
  let memory := linkUp (fun _ => default) 1 (memorySize - 1 - 1)
  { freeList := if 1 < memorySize then 1 else 0
    usedList := 0
    size := 0
    memory := setNext memory (memorySize - 1) 0
    memorySize := memorySize }

/-- The constructor, unless it writes behind an empty vector. -/
def create (defaultCapacity : ℕ) : Option (CommQueue T) :=
  let memorySize := addSizeT defaultCapacity 1
  if memorySize = 0 then none else some (linkMemory memorySize)

/-- `DEFAULT_QUEUE_CAPACITY`. -/
def defaultQueueCapacity : ℕ := 32

/-- `TU_CommQueue<T> queue;`. -/
def defaultQueue : CommQueue T :=
  linkMemory (defaultQueueCapacity + 1)

theorem create_defaultQueueCapacity :
    create defaultQueueCapacity = some (defaultQueue : CommQueue T) := by
  unfold create
  rw [addSizeT_of_lt (by rw [sizeT_eq]; decide)]
  rfl

/-- `copy`. -/
def copy (q : CommQueue T) : CommQueue T :=
  { (defaultQueue : CommQueue T) with
    freeList := q.freeList
    usedList := q.usedList
    size := q.size
    memory := q.memory
    memorySize := q.memorySize }

/-- `memory_.push_back(Node{})`, when there is no free slot, and the slot to use. -/
def reserve (q : CommQueue T) : ℕ × CommQueue T :=
  if q.freeList = 0 then
    (q.memorySize, { q with
      memory := Function.update q.memory q.memorySize default
      memorySize := q.memorySize + 1 })
  else (q.freeList, q)

/-- The links that `add` sets at both ends of the used list. -/
def linkLast (q : CommQueue T) (newIdx : ℕ) : CommQueue T :=
  if q.usedList ≠ 0 then
    let lastIdx := (q.memory q.usedList).prev
    let memory := setNext q.memory lastIdx newIdx
    let memory := setPrev memory newIdx lastIdx
    { q with memory := setPrev memory q.usedList newIdx }
  else
    { q with usedList := newIdx, memory := setPrev q.memory newIdx newIdx }

/-- What `add` does before it reads its argument. -/
def prepare (q : CommQueue T) : ℕ × CommQueue T :=
  let r := q.reserve
  let newIdx := r.1
  let q := { r.2 with freeList := (r.2.memory newIdx).next }
  let q := q.linkLast newIdx
  (newIdx, { q with memory := setNext q.memory newIdx 0 })

/-- `memory_[newIdx].data = data; size_ += 1;`. -/
def store (q : CommQueue T) (newIdx : ℕ) (data : T) : CommQueue T :=
  { q with memory := setData q.memory newIdx data, size := q.size + 1 }

/-- `add` of an object that is no element of the queue. -/
def addObject (q : CommQueue T) (data : T) : ℕ × CommQueue T :=
  let r := q.prepare
  (r.1, r.2.store r.1 data)

/-- The argument of `add`, a reference. -/
inductive Arg (T : Type*) where
  | object (data : T)
  /-- `memory_[idx].data` of the same queue, as `at` returns it. -/
  | element (idx : ℕ)

/-- `memory_.push_back` is called on a vector that is full, and moves its nodes. -/
def moves (q : CommQueue T) (capacity : ℕ) : Bool :=
  q.freeList = 0 ∧ q.memorySize = capacity

/-- The read of the argument, from the memory after the nodes were or were not moved. -/
def Arg.read (moved : Bool) (memory : ℕ → Node T) : Arg T → Option T
  | .object data => some data
  | .element idx => if moved then none else some (memory idx).data

/-- `add`, unless it reads freed memory. -/
def add (q : CommQueue T) (capacity : ℕ) (data : Arg T) : Option (ℕ × CommQueue T) :=
  let r := q.prepare
  (data.read (q.moves capacity) r.2.memory).map fun data => (r.1, r.2.store r.1 data)

/-- The links that `remove` sets around `memory_[idx]`. -/
def unlink (q : CommQueue T) (idx : ℕ) : Option (CommQueue T) :=
  let node := q.memory idx
  let memory :=
    if node.next ≠ 0 then setPrev q.memory node.next node.prev
    else setPrev q.memory q.usedList node.prev
  let node := memory idx
  if idx ≠ q.usedList then
    if node.prev ≠ 0 then some { q with memory := setNext memory node.prev node.next } else none
  else some { q with memory := memory, usedList := node.next }

/-- `remove`: the index of the iterator that it returns, and the queue after it. -/
def remove (q : CommQueue T) (idx : ℕ) : Option (ℕ × CommQueue T) :=
  if idx = 0 then some (idx, q)
  else
    let next := (q.memory idx).next
    let q := { q with memory := setData q.memory idx default }
    (q.unlink idx).map fun q =>
      let memory := setPrev (setNext q.memory idx q.freeList) idx 0
      (next, { q with memory := memory, freeList := idx, size := q.size - 1 })

/-- `at`. -/
def atIdx (q : CommQueue T) (idx : ℕ) : T :=
  (q.memory idx).data

/-- `clear`. -/
def clear (q : CommQueue T) : CommQueue T :=
  let memory := linkUp q.memory 1 (q.memorySize - 1)
  { q with
    freeList := if 1 < q.memorySize then 1 else 0
    usedList := 0
    size := 0
    memory := setNext memory (q.memorySize - 1) 0 }

/-- The indices of a loop `for (; it != end(); ++it)` from `idx` on. -/
def indices (q : CommQueue T) : ℕ → ℕ → Option (List ℕ) :=
  walk (fun idx => (q.memory idx).next) 0

/-- The loop `for (auto it = begin(); it != end(); ++it)`: the elements with their indices. -/
def iterate (q : CommQueue T) (fuel : ℕ) : Option (List (ℕ × T)) :=
  (q.indices fuel q.usedList).map fun idxs => idxs.map fun idx => (idx, q.atIdx idx)

/-- The loop `for (; it != end();) { if (..) { it = remove(it); } else { ++it; } }`: the elements
that it visits, and the queue after it. -/
def sweep (removes : ℕ → T → Bool) : ℕ → CommQueue T → ℕ → Option (List (ℕ × T) × CommQueue T)
  | fuel, q, idx =>
      if idx = 0 then some ([], q)
      else match fuel with
        | 0 => none
        | fuel + 1 =>
            if removes idx (q.atIdx idx) then
              (q.remove idx).bind fun r =>
                (sweep removes fuel r.2 r.1).map fun s => ((idx, q.atIdx idx) :: s.1, s.2)
            else
              (sweep removes fuel q (q.memory idx).next).map fun s =>
                ((idx, q.atIdx idx) :: s.1, s.2)

/-! ## The runs of a queue -/

/-- The capacities that an implementation of `std::vector` chooses. -/
structure Allocation where
  /-- Of a new vector of `n` elements. -/
  make : ℕ → ℕ
  /-- After a `push_back` on a full vector. -/
  grow : ℕ → ℕ
  /-- Of a vector of some capacity after the assignment of one of `n` elements. -/
  assign : ℕ → ℕ → ℕ
  le_make : ∀ n, n ≤ make n
  lt_grow : ∀ capacity, capacity < grow capacity
  le_assign : ∀ capacity n, n ≤ assign capacity n

/-- A call.  After `copy` the calls are made on the copy. -/
inductive Call (T : Type*) where
  | add (data : Arg T)
  | remove (idx : ℕ)
  | clear
  | copy

/-- A queue with the capacity of its vector and the record of its calls: the elements that were
added and not removed since, in the order they were added, each with the index that `add`
returned. -/
structure State (T : Type*) where
  queue : CommQueue T
  capacity : ℕ
  live : List (ℕ × T)

/-- What the calls on a queue have led to. -/
inductive Outcome (T : Type*) where
  | queue (s : State T)
  /-- An assertion has failed, or memory was used that is not, or no longer, part of the vector. -/
  | failed

/-- The value of the argument when `add` is called. -/
def Arg.value (q : CommQueue T) : Arg T → T
  | .object data => data
  | .element idx => q.atIdx idx

/-- A reference into the vector is one to a node that there is. -/
def Arg.Valid (q : CommQueue T) : Arg T → Prop
  | .object _ => True
  | .element idx => idx < q.memorySize

instance (q : CommQueue T) : (data : Arg T) → Decidable (data.Valid q)
  | .object _ => inferInstanceAs (Decidable True)
  | .element idx => inferInstanceAs (Decidable (idx < q.memorySize))

/-- A queue that was just made. -/
def fresh (alloc : Allocation) (defaultCapacity : ℕ) : Outcome T :=
  match create defaultCapacity with
  | some q => .queue ⟨q, alloc.make q.memorySize, []⟩
  | none => .failed

/-- A call; the index of `remove` is that of an element. -/
def State.call (alloc : Allocation) (s : State T) : Call T → Option (Outcome T)
  | .add data =>
      if data.Valid s.queue then
        match s.queue.add s.capacity data with
        | some r => some (.queue
            ⟨r.2, if s.queue.moves s.capacity then alloc.grow s.capacity else s.capacity,
              s.live ++ [(r.1, data.value s.queue)]⟩)
        | none => some .failed
      else none
  | .remove idx =>
      if idx ∈ s.live.map Prod.fst then
        match s.queue.remove idx with
        | some r => some (.queue ⟨r.2, s.capacity, s.live.filter fun e => e.1 ≠ idx⟩)
        | none => some .failed
      else none
  | .clear => some (.queue ⟨s.queue.clear, s.capacity, []⟩)
  | .copy => some (.queue
      ⟨s.queue.copy, alloc.assign (alloc.make (defaultQueueCapacity + 1)) s.queue.memorySize,
        s.live⟩)

def step (alloc : Allocation) : Outcome T → Call T → Option (Outcome T)
  | .queue s, c => s.call alloc c
  | .failed, _ => none

def system (T : Type*) [Inhabited T] (alloc : Allocation) (defaultCapacity : ℕ) :
    TransitionSystem (Outcome T) (Call T) where
  init o := o = fresh alloc defaultCapacity
  step := step alloc

/-- The queue holds the elements of the list in their order. -/
structure InsertionOrdered (q : CommQueue T) (live : List (ℕ × T)) : Prop where
  /-- The loop from `begin()` to `end()`. -/
  iterate : ∀ fuel, live.length ≤ fuel → q.iterate fuel = some live
  size : q.size = live.length
  add_fresh : ∀ capacity data r, q.add capacity data = some r →
    r.1 ≠ 0 ∧ r.1 ∉ live.map Prod.fst
  atIdx : ∀ e ∈ live, q.atIdx e.1 = e.2
  /-- The used list and the free list. -/
  lists : ∃ free, (∀ fuel, q.memorySize ≤ fuel →
      q.indices fuel q.usedList = some (live.map Prod.fst) ∧
        q.indices fuel q.freeList = some free) ∧
    (live.map Prod.fst ++ free).Nodup ∧
    ∀ i, i ∈ live.map Prod.fst ++ free ↔ 1 ≤ i ∧ i ≤ q.memorySize - 1
  /-- No assertion of `remove` fails. -/
  remove : ∀ idx ∈ live.map Prod.fst, (q.remove idx).isSome
  /-- The loop that removes some of the elements meets each of them once. -/
  sweep : ∀ removes fuel, live.length ≤ fuel →
    ∃ q', q.sweep removes fuel q.usedList = some (live, q') ∧
      q'.iterate fuel = some (live.filter fun e => !removes e.1 e.2)

/-- The calls have led to a queue that holds the elements in their order. -/
def Outcome.Ordered : Outcome T → Prop
  | .queue s => InsertionOrdered s.queue s.live
  | .failed => False

/-- An element of the queue is added when the elements fill the vector. -/
def AddsOwn : Outcome T → Call T → Prop
  | .queue s, .add (.element _) => s.live.length + 1 = s.capacity
  | _, _ => False

/-! ## The two lists -/

/-- The used list and the free list of a queue: the elements that it holds, and the slots that
it does not use. -/
structure Holds (q : CommQueue T) (live : List (ℕ × T)) (free : List ℕ) : Prop where
  usedList : q.usedList = (live.map Prod.fst).headD 0
  used_next : NextLinks (fun i => (q.memory i).next) 0 (live.map Prod.fst)
  used_prev : PrevLinks (fun i => (q.memory i).prev) ((live.map Prod.fst).getLastD 0)
    (live.map Prod.fst)
  freeList : q.freeList = free.headD 0
  free_next : NextLinks (fun i => (q.memory i).next) 0 free
  nodup : (live.map Prod.fst ++ free).Nodup
  mem_iff : ∀ i, i ∈ live.map Prod.fst ++ free ↔ 1 ≤ i ∧ i < q.memorySize
  size : q.size = live.length
  data : ∀ e ∈ live, (q.memory e.1).data = e.2
  memorySize : 1 ≤ q.memorySize
  /-- The node of the end mark keeps the datum it was made with. -/
  end_data : (q.memory 0).data = default

variable {q : CommQueue T} {live : List (ℕ × T)} {free : List ℕ}

/-- All slots are free. -/
theorem nextLinks_range {next : ℕ → ℕ} {i n : ℕ}
    (h : ∀ j, i ≤ j → j < i + n → next j = if j + 1 < i + n then j + 1 else 0) :
    NextLinks next 0 (List.range' i n) := by
  induction n generalizing i with
  | zero => trivial
  | succ n ih =>
    rw [List.range'_succ]
    refine ⟨?_, ih fun j hi hj => ?_⟩
    · rw [h i le_rfl (by omega)]
      cases n with
      | zero => rw [if_neg (by omega)]; rfl
      | succ n => rw [if_pos (by omega)]; rfl
    · rw [h j (by omega) (by omega)]
      split_ifs <;> omega

/-- A queue without elements, whose slots are linked in their order. -/
theorem holds_linkUp {q : CommQueue T} {memory : ℕ → Node T} {n : ℕ} (hsize : 1 ≤ q.memorySize)
    (hend : (memory 0).data = default)
    (hmemory : q.memory = setNext (linkUp memory 1 n) (q.memorySize - 1) 0)
    (hn : q.memorySize - 1 - 1 ≤ n) (hfree : q.freeList = if 1 < q.memorySize then 1 else 0)
    (hused : q.usedList = 0) (hzero : q.size = 0) :
    Holds q [] (List.range' 1 (q.memorySize - 1)) where
  usedList := hused
  used_next := trivial
  used_prev := trivial
  freeList := by
    rw [hfree]
    split
    · obtain ⟨k, hk⟩ : ∃ k, q.memorySize - 1 = k + 1 := ⟨q.memorySize - 2, by omega⟩
      rw [hk, List.range'_succ]
      rfl
    · rw [show q.memorySize - 1 = 0 by omega]
      rfl
  free_next := by
    refine nextLinks_range fun j hi hj => ?_
    rw [hmemory, setNext_next, linkUp_next]
    split_ifs <;> omega
  nodup := by
    rw [List.map_nil, List.nil_append]
    exact List.nodup_range'
  mem_iff i := by
    rw [List.map_nil, List.nil_append, List.mem_range'_1]
    omega
  size := hzero
  data _ he := absurd he List.not_mem_nil
  memorySize := hsize
  end_data := by rw [hmemory, setNext_data, linkUp_data, hend]

theorem holds_linkMemory {memorySize : ℕ} (h : 1 ≤ memorySize) :
    Holds (linkMemory memorySize : CommQueue T) [] (List.range' 1 (memorySize - 1)) :=
  holds_linkUp (q := linkMemory memorySize) h rfl rfl le_rfl rfl rfl rfl

theorem holds_defaultQueue :
    Holds (defaultQueue : CommQueue T) [] (List.range' 1 defaultQueueCapacity) :=
  holds_linkMemory (by decide)

theorem holds_clear (h : Holds q live free) :
    Holds q.clear [] (List.range' 1 (q.memorySize - 1)) :=
  holds_linkUp (q := q.clear) h.memorySize h.end_data rfl (Nat.sub_le _ _) rfl rfl rfl

theorem Holds.slot_ne_zero (h : Holds q live free) {i : ℕ} (hi : i ∈ live.map Prod.fst ++ free) :
    i ≠ 0 :=
  Nat.one_le_iff_ne_zero.mp ((h.mem_iff i).mp hi).1

/-! ## Adding an element -/

/-- The slot that `add` uses is the first free one, when the vector has grown if there was none. -/
theorem Holds.reserve (h : Holds q live free) :
    ∃ free', Holds { q.reserve.2 with freeList := q.reserve.1 } live (q.reserve.1 :: free') := by
  unfold CommQueue.reserve
  cases free with
  | cons n free =>
    have hn : n ≠ 0 := h.slot_ne_zero (List.mem_append_right _ List.mem_cons_self)
    have hfree : q.freeList = n := h.freeList
    rw [if_neg (by rw [hfree]; exact hn), hfree]
    have heta : ({ q with freeList := n } : CommQueue T) = q := by rw [← hfree]
    refine ⟨free, ?_⟩
    dsimp only
    rw [heta]
    exact h
  | nil =>
    have hfree : q.freeList = 0 := h.freeList
    rw [if_pos hfree]
    refine ⟨[], ?_⟩
    have hlt : ∀ i ∈ live.map Prod.fst, i ≠ q.memorySize := fun i hi =>
      ((h.mem_iff i).mp (List.mem_append_left _ hi)).2.ne
    have hsame : ∀ i ∈ live.map Prod.fst,
        Function.update q.memory q.memorySize default i = q.memory i :=
      fun i hi => Function.update_of_ne (hlt i hi) _ _
    refine ⟨h.usedList, h.used_next.congr fun i hi => ?_, h.used_prev.congr fun i hi => ?_, rfl,
      ⟨?_, trivial⟩, ?_, fun i => ?_, h.size, fun e he => ?_, Nat.le_add_left 1 _, ?_⟩
    · dsimp only
      rw [hsame i hi]
    · dsimp only
      rw [hsame i hi]
    · dsimp only
      rw [Function.update_self]
      rfl
    · refine List.nodup_append.mpr ⟨h.nodup.of_append_left, List.nodup_singleton _, ?_⟩
      intro i hi j hj
      rw [List.mem_singleton.mp hj]
      exact hlt i hi
    · have hold := h.mem_iff i
      have hpos := h.memorySize
      rw [List.append_nil] at hold
      rw [List.mem_append, hold, List.mem_singleton]
      dsimp only
      omega
    · dsimp only
      rw [hsame e.1 (List.mem_map_of_mem he)]
      exact h.data e he
    · dsimp only
      rw [Function.update_of_ne (Nat.ne_of_lt h.memorySize)]
      exact h.end_data

/-- The links of `add` put the slot behind the last element. -/
theorem Holds.linkLast {n : ℕ} (h : Holds q live (n :: free)) :
    let q' := q.linkLast n
    q'.freeList = q.freeList ∧ q'.size = q.size ∧ q'.memorySize = q.memorySize ∧
      q'.usedList = (live.map Prod.fst ++ [n]).headD 0 ∧
      NextLinks (fun i => (q'.memory i).next) n (live.map Prod.fst) ∧
      PrevLinks (fun i => (q'.memory i).prev) n (live.map Prod.fst ++ [n]) ∧
      (∀ i, (q'.memory i).data = (q.memory i).data) ∧
      ∀ i ∈ n :: free, (q'.memory i).next = (q.memory i).next := by
  have hn : n ∉ live.map Prod.fst := fun hmem =>
    (List.nodup_append.mp h.nodup).2.2 n hmem n List.mem_cons_self rfl
  unfold CommQueue.linkLast
  rcases List.eq_nil_or_concat' (live.map Prod.fst) with hnil | ⟨front, z, hconcat⟩
  · have hused : q.usedList = 0 := by rw [h.usedList, hnil]; rfl
    rw [if_neg (by simpa using hused), hnil]
    exact ⟨rfl, rfl, rfl, rfl, trivial, ⟨by simp, trivial⟩, by simp, by simp⟩
  · obtain ⟨i, rest, hcons⟩ : ∃ i rest, live.map Prod.fst = i :: rest := by
      cases front with
      | nil => exact ⟨z, [], hconcat⟩
      | cons i front => exact ⟨i, front ++ [z], hconcat⟩
    have hused : q.usedList = i := by rw [h.usedList, hcons]; rfl
    have hi : i ≠ 0 := h.slot_ne_zero (List.mem_append_left _ (hcons ▸ List.mem_cons_self))
    -- the `prev` of the first element is the last one
    have hlast : (q.memory i).prev = z := by
      have hprev := h.used_prev
      rw [hcons] at hprev
      have hfirst : (q.memory i).prev = (i :: rest).getLastD 0 := hprev.1
      rw [hfirst, ← hcons, hconcat, List.getLastD_concat]
    have hnodup := h.nodup.of_append_left
    have hin : i ≠ n := fun heq => hn (hcons ▸ heq ▸ List.mem_cons_self)
    have hzn : z ≠ n := fun heq => hn (by
      rw [hconcat, heq]
      exact List.mem_append_right _ (List.mem_singleton.mpr rfl))
    rw [if_pos (by rw [hused]; exact hi), hused, hlast]
    refine ⟨rfl, rfl, rfl, by rw [hcons]; rfl, ?_, ?_, by simp, fun j hj => ?_⟩
    · have hnext := h.used_next
      rw [hconcat] at hnext hnodup ⊢
      refine hnext.relink (fun j hj => ?_) (by simp)
      have hne : j ≠ z := (List.nodup_append.mp hnodup).2.2 j hj z (List.mem_singleton.mpr rfl)
      simp [hne]
    · refine PrevLinks.append_iff.mpr ⟨?_, ?_, trivial⟩
      · have hprev := h.used_prev
        rw [hcons] at hprev hnodup hn ⊢
        refine hprev.relink (fun j hj => ?_) (by simp)
        have hne : j ≠ i := fun heq => (List.nodup_cons.mp hnodup).1 (heq ▸ hj)
        have hne' : j ≠ n := fun heq => hn (heq ▸ List.mem_cons_of_mem _ hj)
        simp [hne, hne']
      · rw [hconcat, List.getLastD_concat]
        simp [hin.symm]
    · have hne : j ≠ z := by
        rintro rfl
        refine (List.nodup_append.mp h.nodup).2.2 j ?_ j hj rfl
        rw [hconcat]
        exact List.mem_append_right _ (List.mem_singleton.mpr rfl)
      simp [hne]

omit [Inhabited T] in
/-- The links of `add` do not depend on the free list. -/
theorem linkLast_freeList (q : CommQueue T) (freeList n : ℕ) :
    ({ q with freeList := freeList } : CommQueue T).linkLast n =
      { q.linkLast n with freeList := freeList } := by
  unfold CommQueue.linkLast
  split <;> rfl

/-- **`add`** puts the element behind the others, in a slot that was free. -/
theorem Holds.addObject (h : Holds q live free) (data : T) :
    (∃ free', Holds (q.addObject data).2 (live ++ [((q.addObject data).1, data)]) free') ∧
      (q.addObject data).1 ≠ 0 ∧ (q.addObject data).1 ∉ live.map Prod.fst := by
  obtain ⟨free', hr⟩ := h.reserve
  unfold CommQueue.addObject prepare store
  dsimp only
  rw [linkLast_freeList]
  generalize q.reserve = r at *
  obtain ⟨n, q₁⟩ := r
  dsimp only at hr ⊢
  obtain ⟨_, hsize, hmemorySize, hused, hnext, hprev, hdata, hsame⟩ := hr.linkLast
  rw [linkLast_freeList] at *
  dsimp only at *
  have hn : n ∉ live.map Prod.fst := fun hmem =>
    (List.nodup_append.mp hr.nodup).2.2 n hmem n List.mem_cons_self rfl
  have hnfree : n ∉ free' := (List.nodup_cons.mp hr.nodup.of_append_right).1
  refine ⟨⟨free', ?_⟩, hr.slot_ne_zero (List.mem_append_right _ List.mem_cons_self), hn⟩
  have hmap : (live ++ [(n, data)]).map Prod.fst = live.map Prod.fst ++ [n] := by simp
  have hn0 : 0 ≠ n := (hr.slot_ne_zero (List.mem_append_right _ List.mem_cons_self)).symm
  refine ⟨?_, ?_, ?_, ?_, ?_, ?_, fun i => ?_, ?_, fun e he => ?_, ?_, ?_⟩
  · rw [hmap]
    exact hused
  · rw [hmap]
    refine NextLinks.append_iff.mpr ⟨hnext.congr fun i hi => ?_, by simp, trivial⟩
    have hne : i ≠ n := fun heq => hn (heq ▸ hi)
    simp [hne]
  · rw [hmap, List.getLastD_concat]
    exact hprev.congr fun i _ => by simp
  · exact hr.free_next.1
  · refine hr.free_next.2.congr fun i hi => ?_
    have hne : i ≠ n := fun heq => hnfree (heq ▸ hi)
    have hold := hsame i (List.mem_cons_of_mem _ hi)
    simp [hne, hold]
  · rw [hmap, List.append_assoc]
    exact hr.nodup
  · rw [hmap, List.append_assoc]
    refine (hr.mem_iff i).trans ?_
    dsimp only
    rw [hmemorySize]
  · rw [List.length_append]
    have hlen := hr.size
    dsimp only at hlen ⊢
    rw [hsize, hlen]
    rfl
  · rcases List.mem_append.mp he with he | he
    · have hne : e.1 ≠ n := fun heq => hn (heq ▸ List.mem_map_of_mem he)
      have hold := hr.data e he
      dsimp only at hold
      simp [hne, hdata, hold]
    · rw [List.mem_singleton.mp he]
      simp
  · have hpos := hr.memorySize
    dsimp only at hpos ⊢
    rw [hmemorySize]
    exact hpos
  · have hend := hr.end_data
    dsimp only at hend
    simp [hn0, hdata, hend]

/-! ## The argument of `add` -/

/-- A new node does not change the others. -/
theorem reserve_memory (q : CommQueue T) {idx : ℕ} (h : idx < q.memorySize) :
    q.reserve.2.memory idx = q.memory idx := by
  unfold CommQueue.reserve
  split
  · exact Function.update_of_ne h.ne _ _
  · rfl

omit [Inhabited T] in
theorem linkLast_data (q : CommQueue T) (newIdx idx : ℕ) :
    ((q.linkLast newIdx).memory idx).data = (q.memory idx).data := by
  unfold CommQueue.linkLast
  split <;> simp

/-- What comes before the read of the argument leaves the data of the nodes. -/
theorem prepare_data (q : CommQueue T) {idx : ℕ} (h : idx < q.memorySize) :
    (q.prepare.2.memory idx).data = (q.memory idx).data := by
  unfold CommQueue.prepare
  dsimp only
  rw [setNext_data, linkLast_data]
  exact congrArg Node.data (q.reserve_memory h)

/-- The argument is an element of the queue, whose nodes are moved. -/
def ReadsMoved (q : CommQueue T) (capacity : ℕ) : Arg T → Prop
  | .object _ => False
  | .element _ => q.moves capacity = true

/-- **The reference** is read as the value that the argument had, or not at all. -/
theorem add_cases (q : CommQueue T) (capacity : ℕ) {data : Arg T} (h : data.Valid q) :
    (¬ q.ReadsMoved capacity data ∧ q.add capacity data = some (q.addObject (data.value q))) ∨
      (q.ReadsMoved capacity data ∧ q.add capacity data = none) := by
  unfold CommQueue.add
  cases data with
  | object data => exact Or.inl ⟨id, rfl⟩
  | element idx =>
    unfold ReadsMoved Arg.read
    dsimp only
    cases q.moves capacity with
    | true => exact Or.inr ⟨rfl, rfl⟩
    | false =>
      refine Or.inl ⟨Bool.false_ne_true, ?_⟩
      rw [if_neg Bool.false_ne_true, prepare_data q h]
      rfl

/-- The slots of the two lists are all nodes but that of the end mark. -/
theorem Holds.length_add (h : Holds q live free) :
    live.length + free.length + 1 = q.memorySize := by
  have hpos := h.memorySize
  have hperm : (live.map Prod.fst ++ free).Perm (List.range' 1 (q.memorySize - 1)) := by
    refine (List.perm_ext_iff_of_nodup h.nodup List.nodup_range').mpr fun i => ?_
    rw [h.mem_iff, List.mem_range'_1]
    omega
  have hlen := hperm.length_eq
  rw [List.length_append, List.length_map, List.length_range'] at hlen
  omega

/-- The nodes are moved exactly when the elements fill the vector. -/
theorem Holds.moves_iff (h : Holds q live free) {capacity : ℕ} (hfits : q.memorySize ≤ capacity) :
    q.moves capacity = true ↔ live.length + 1 = capacity := by
  have hlen := h.length_add
  unfold CommQueue.moves
  rw [decide_eq_true_eq, h.freeList]
  cases free with
  | nil =>
    rw [List.length_nil] at hlen
    constructor
    · rintro ⟨-, hfull⟩
      omega
    · intro hfull
      exact ⟨rfl, by omega⟩
  | cons i free =>
    have hi : i ≠ 0 := h.slot_ne_zero (List.mem_append_right _ List.mem_cons_self)
    rw [List.length_cons] at hlen
    constructor
    · rintro ⟨hzero, -⟩
      exact absurd hzero hi
    · intro hfull
      omega

/-- The slot that `add` returns does not depend on the argument. -/
theorem Holds.add_fresh (h : Holds q live free) {capacity : ℕ} {data : Arg T}
    {r : ℕ × CommQueue T} (hadd : q.add capacity data = some r) :
    r.1 ≠ 0 ∧ r.1 ∉ live.map Prod.fst := by
  obtain ⟨x, -, rfl⟩ := Option.map_eq_some_iff.mp hadd
  exact (h.addObject x).2

/-! ## Removing an element -/

/-- The list is closed around an element that stood between `l` and `r`. -/
structure Unlinked (q : CommQueue T) (l r : List ℕ) (q' : CommQueue T) : Prop where
  freeList : q'.freeList = q.freeList
  size : q'.size = q.size
  memorySize : q'.memorySize = q.memorySize
  usedList : q'.usedList = (l ++ r).headD 0
  next : NextLinks (fun i => (q'.memory i).next) 0 (l ++ r)
  prev : PrevLinks (fun i => (q'.memory i).prev) ((l ++ r).getLastD 0) (l ++ r)
  data : ∀ i, (q'.memory i).data = (q.memory i).data
  other : ∀ i, i ∉ l → (q'.memory i).next = (q.memory i).next

omit [Inhabited T] in
/-- The first element: the one behind it, if there is one, becomes the first. -/
theorem unlink_first {q : CommQueue T} {r : List ℕ} {idx : ℕ} (hused : q.usedList = idx)
    (hnext : NextLinks (fun i => (q.memory i).next) 0 (idx :: r))
    (hprev : PrevLinks (fun i => (q.memory i).prev) (r.getLastD idx) (idx :: r))
    (hnodup : (idx :: r).Nodup) (hzero : 0 ∉ idx :: r) :
    ∃ q', q.unlink idx = some q' ∧ Unlinked q [] r q' := by
  obtain ⟨hnextidx, hnextr⟩ := hnext
  obtain ⟨hprevidx, hprevr⟩ := hprev
  dsimp only at hnextidx hprevidx
  unfold CommQueue.unlink
  dsimp only
  rw [if_neg (by rw [hused]; exact fun h => h rfl)]
  cases r with
  | nil =>
    simp only [List.headD_nil] at hnextidx
    rw [if_neg (by rw [hnextidx]; exact fun h => h rfl)]
    exact ⟨_, rfl, rfl, rfl, rfl, by simpa using hnextidx, trivial, trivial, by simp, by simp⟩
  | cons b r =>
    simp only [List.headD_cons] at hnextidx
    have hb : b ≠ 0 := fun heq => hzero (by simp [heq])
    have hbr := List.nodup_cons.mp (List.nodup_cons.mp hnodup).2
    rw [if_pos (by rw [hnextidx]; exact hb), hnextidx, hprevidx]
    refine ⟨_, rfl, rfl, rfl, rfl, by simpa using hnextidx, ?_, ?_, by simp, by simp⟩
    · exact hnextr.congr fun i _ => by simp
    · rw [List.nil_append, List.getLastD_cons]
      rw [List.getLastD_cons]
      refine hprevr.relink (fun i hi => ?_) (by simp)
      have hne : i ≠ b := fun heq => hbr.1 (heq ▸ hi)
      simp [hne]

omit [Inhabited T] in
/-- An element behind `z`, which is linked with the one behind the element or becomes the last. -/
theorem unlink_behind {q : CommQueue T} {front r : List ℕ} {z idx : ℕ}
    (hused : q.usedList = (front ++ [z] ++ idx :: r).headD 0)
    (hnext : NextLinks (fun i => (q.memory i).next) 0 (front ++ [z] ++ idx :: r))
    (hprev : PrevLinks (fun i => (q.memory i).prev) (r.getLastD idx) (front ++ [z] ++ idx :: r))
    (hnodup : (front ++ [z] ++ idx :: r).Nodup) (hzero : 0 ∉ front ++ [z] ++ idx :: r) :
    ∃ q', q.unlink idx = some q' ∧ Unlinked q (front ++ [z]) r q' := by
  obtain ⟨hnextl, hnextidx, hnextr⟩ := NextLinks.append_iff.mp hnext
  obtain ⟨hprevl, hprevidx, hprevr⟩ := PrevLinks.append_iff.mp hprev
  obtain ⟨hnodupl, hnodupr, hdisj⟩ := List.nodup_append.mp hnodup
  dsimp only at hnextidx hprevidx
  unfold CommQueue.unlink
  dsimp only
  -- the first element is `i`
  obtain ⟨i, rest, hcons⟩ : ∃ i rest, front ++ [z] = i :: rest := by
    cases front with
    | nil => exact ⟨z, [], rfl⟩
    | cons i front => exact ⟨i, front ++ [z], rfl⟩
  have huidx : q.usedList = i := by rw [hused, hcons]; rfl
  have hi : i ∈ front ++ [z] := hcons ▸ List.mem_cons_self
  have hz : z ∈ front ++ [z] := List.mem_append_right _ (List.mem_singleton.mpr rfl)
  have hne : idx ≠ i := fun heq => hdisj i hi idx List.mem_cons_self heq.symm
  have hz0 : z ≠ 0 := fun heq => hzero (List.mem_append_left _ (heq ▸ hz))
  have hfront : ∀ j ∈ front, j ≠ z := fun j hj =>
    (List.nodup_append.mp hnodupl).2.2 j hj z (List.mem_singleton.mpr rfl)
  rw [List.getLastD_concat] at hprevidx
  rw [huidx, if_pos hne]
  cases r with
  | nil =>
    simp only [List.headD_nil] at hnextidx
    have hmemory : (if (q.memory idx).next ≠ 0
        then setPrev q.memory (q.memory idx).next (q.memory idx).prev
        else setPrev q.memory i (q.memory idx).prev) = setPrev q.memory i z := by
      rw [if_neg (by rw [hnextidx]; exact fun h => h rfl), hprevidx]
    rw [hmemory, if_pos (by simpa [hne, hprevidx] using hz0)]
    refine ⟨_, rfl, rfl, rfl, rfl, ?_, ?_, ?_, by simp, fun j hj => ?_⟩
    · rw [List.append_nil, hcons]
      rfl
    · rw [List.append_nil]
      refine hnextl.relink (fun j hj => ?_) (by simp [hne, hprevidx, hnextidx])
      simp [hne, hprevidx, hfront j hj]
    · rw [List.append_nil, List.getLastD_concat]
      rw [hcons] at hprevl hnodupl ⊢
      refine hprevl.relink (fun j hj => ?_) (by simp)
      have hji : j ≠ i := fun heq => (List.nodup_cons.mp hnodupl).1 (heq ▸ hj)
      simp [hji]
    · have hjz : j ≠ z := fun heq => hj (heq ▸ hz)
      simp [hne, hprevidx, hjz]
  | cons b r =>
    simp only [List.headD_cons] at hnextidx
    have hb0 : b ≠ 0 := fun heq => hzero (by simp [heq])
    have hb : b ∈ idx :: b :: r := List.mem_cons_of_mem _ List.mem_cons_self
    have hbidx : idx ≠ b := fun heq => (List.nodup_cons.mp hnodupr).1 (heq ▸ List.mem_cons_self)
    have hbr := List.nodup_cons.mp (List.nodup_cons.mp hnodupr).2
    have hmemory : (if (q.memory idx).next ≠ 0
        then setPrev q.memory (q.memory idx).next (q.memory idx).prev
        else setPrev q.memory i (q.memory idx).prev) = setPrev q.memory b z := by
      rw [if_pos (by rw [hnextidx]; exact hb0), hnextidx, hprevidx]
    rw [hmemory, if_pos (by simpa [hbidx, hprevidx] using hz0)]
    refine ⟨_, rfl, rfl, rfl, rfl, ?_, ?_, ?_, by simp, fun j hj => ?_⟩
    · rw [hcons]
      rfl
    · refine NextLinks.append_iff.mpr ⟨?_, hnextr.congr fun j hj => ?_⟩
      · refine hnextl.relink (fun j hj => ?_) (by simp [hbidx, hprevidx, hnextidx])
        simp [hbidx, hprevidx, hfront j hj]
      · have hjz : j ≠ z := fun heq =>
          hdisj z hz j (List.mem_cons_of_mem _ hj) heq.symm
        simp [hbidx, hprevidx, hjz]
    · refine PrevLinks.append_iff.mpr ⟨?_, ?_⟩
      · rw [getLastD_append_getLastD, List.getLastD_cons]
        rw [List.getLastD_cons] at hprevl
        refine hprevl.congr fun j hj => ?_
        have hjb : j ≠ b := fun heq => hdisj j hj b hb heq
        simp [hjb]
      · rw [List.getLastD_concat]
        refine hprevr.relink (fun j hj => ?_) (by simp)
        have hjb : j ≠ b := fun heq => hbr.1 (heq ▸ hj)
        simp [hjb]
    · have hjz : j ≠ z := fun heq => hj (heq ▸ hz)
      simp [hbidx, hprevidx, hjz]

omit [Inhabited T] in
/-- The links that `remove` sets close the list around the element. -/
theorem unlink_eq {q : CommQueue T} {l r : List ℕ} {idx : ℕ}
    (hused : q.usedList = (l ++ idx :: r).headD 0)
    (hnext : NextLinks (fun i => (q.memory i).next) 0 (l ++ idx :: r))
    (hprev : PrevLinks (fun i => (q.memory i).prev) ((l ++ idx :: r).getLastD 0) (l ++ idx :: r))
    (hnodup : (l ++ idx :: r).Nodup) (hzero : 0 ∉ l ++ idx :: r) :
    ∃ q', q.unlink idx = some q' ∧ Unlinked q l r q' := by
  have hlast : (l ++ idx :: r).getLastD 0 = r.getLastD idx := by
    rw [getLastD_append_getLastD, List.getLastD_cons]
  rw [hlast] at hprev
  rcases List.eq_nil_or_concat' l with rfl | ⟨front, z, rfl⟩
  · exact unlink_first hused hnext hprev hnodup hzero
  · exact unlink_behind hused hnext hprev hnodup hzero

/-- **`remove`** takes an element out, wherever it stands, and returns the place of the next
one. -/
theorem Holds.remove {l r : List (ℕ × T)} {e : ℕ × T} (h : Holds q (l ++ e :: r) free) :
    ∃ q', q.remove e.1 = some ((r.map Prod.fst).headD 0, q') ∧ Holds q' (l ++ r) (e.1 :: free) := by
  have hmap : (l ++ e :: r).map Prod.fst = l.map Prod.fst ++ e.1 :: r.map Prod.fst := by simp
  have hmap' : (l ++ r).map Prod.fst = l.map Prod.fst ++ r.map Prod.fst := by simp
  have hidx : e.1 ≠ 0 := h.slot_ne_zero (by rw [hmap]; simp)
  have hzero : 0 ∉ l.map Prod.fst ++ e.1 :: r.map Prod.fst := fun hmem =>
    h.slot_ne_zero (List.mem_append_left _ (hmap ▸ hmem)) rfl
  have hnext := h.used_next
  have hprev := h.used_prev
  have hused := h.usedList
  have hnodup := h.nodup
  rw [hmap] at hnext hprev hused hnodup
  have hidxnext : (q.memory e.1).next = (r.map Prod.fst).headD 0 :=
    (NextLinks.append_iff.mp hnext).2.1
  -- the slot of the element, and the others
  have hperm : (l.map Prod.fst ++ e.1 :: r.map Prod.fst ++ free).Perm
      (l.map Prod.fst ++ r.map Prod.fst ++ e.1 :: free) := by
    rw [List.append_assoc, List.append_assoc, List.cons_append, ← List.append_assoc]
    refine List.Perm.trans ?_ (List.perm_middle).symm
    rw [List.append_assoc]
    exact List.perm_middle
  have hnodup' := hperm.nodup_iff.mp hnodup
  have hout : ∀ i ∈ l.map Prod.fst ++ r.map Prod.fst, i ≠ e.1 := fun i hi =>
    (List.nodup_append.mp hnodup').2.2 i hi e.1 List.mem_cons_self
  have hfree : ∀ i ∈ free, i ≠ e.1 ∧ i ∉ l.map Prod.fst := fun i hi => by
    obtain ⟨_, hcons, hdisj⟩ := List.nodup_append.mp hnodup'
    refine ⟨fun heq => (List.nodup_cons.mp hcons).1 (heq ▸ hi), fun hmem => ?_⟩
    exact hdisj i (List.mem_append_left _ hmem) i (List.mem_cons_of_mem _ hi) rfl
  obtain ⟨q₁, hq₁, hfreeList, hsize, hmemorySize, hused₁, hnext₁, hprev₁, hdata, hsame⟩ :=
    unlink_eq (q := { q with memory := setData q.memory e.1 default }) hused
      (hnext.congr fun i _ => by simp) (hprev.congr fun i _ => by simp) hnodup.of_append_left hzero
  dsimp only at hfreeList hsize hmemorySize
  let memory := setPrev (setNext q₁.memory e.1 q₁.freeList) e.1 0
  refine ⟨{ q₁ with memory := memory, freeList := e.1, size := q₁.size - 1 }, ?_, ?_⟩
  · unfold CommQueue.remove
    rw [if_neg hidx, hidxnext]
    dsimp only
    rw [hq₁]
    rfl
  · refine ⟨?_, ?_, ?_, rfl, ?_, ?_, fun i => ?_, ?_, fun e' he' => ?_, ?_, ?_⟩
    · rw [hmap']
      exact hused₁
    · rw [hmap']
      refine hnext₁.congr fun i hi => ?_
      simp [memory, hout i hi]
    · rw [hmap']
      refine hprev₁.congr fun i hi => ?_
      simp [memory, hout i hi]
    · refine ⟨?_, h.free_next.congr fun i hi => ?_⟩
      · simpa [memory, hfreeList] using h.freeList
      · obtain ⟨hne, hnot⟩ := hfree i hi
        simp [memory, hne, hsame i hnot]
    · rw [hmap']
      exact hnodup'
    · rw [hmap', ← hperm.mem_iff, ← hmap]
      dsimp only
      rw [hmemorySize]
      exact h.mem_iff i
    · have hlen := h.size
      simp only [List.length_append, List.length_cons] at hlen ⊢
      rw [hsize, hlen]
      omega
    · have hne : e'.1 ≠ e.1 := hout e'.1 (hmap' ▸ List.mem_map_of_mem he')
      have hmem : e' ∈ l ++ e :: r := by
        rcases List.mem_append.mp he' with he' | he'
        · exact List.mem_append_left _ he'
        · exact List.mem_append_right _ (List.mem_cons_of_mem _ he')
      simpa [memory, hdata, hne] using h.data e' hmem
    · dsimp only
      rw [hmemorySize]
      exact h.memorySize
    · simpa [memory, hdata, hidx.symm] using h.end_data

/-! ## The loops -/

theorem Holds.zero_notMem (h : Holds q live free) : 0 ∉ live.map Prod.fst ++ free :=
  fun hmem => h.slot_ne_zero hmem rfl

/-- The loop from `begin()` to `end()` meets the elements in their order. -/
theorem Holds.indices (h : Holds q live free) {fuel : ℕ} (hfuel : live.length ≤ fuel) :
    q.indices fuel q.usedList = some (live.map Prod.fst) := by
  unfold CommQueue.indices
  rw [h.usedList]
  refine walk_eq h.used_next (fun hmem => h.zero_notMem (List.mem_append_left _ hmem)) ?_
  rw [List.length_map]
  exact hfuel

theorem Holds.iterate (h : Holds q live free) {fuel : ℕ} (hfuel : live.length ≤ fuel) :
    q.iterate fuel = some live := by
  unfold CommQueue.iterate
  rw [h.indices hfuel, Option.map_some, List.map_map]
  refine congrArg some ((List.map_congr_left fun e he => ?_).trans (List.map_id live))
  exact Prod.ext rfl (h.data e he)

/-- The loop that removes elements, from the element where the iterator stands on. -/
theorem Holds.sweep (removes : ℕ → T → Bool) {seen rest : List (ℕ × T)}
    (h : Holds q (seen ++ rest) free) {fuel : ℕ} (hfuel : rest.length ≤ fuel) :
    ∃ q' free', q.sweep removes fuel ((rest.map Prod.fst).headD 0) = some (rest, q') ∧
      Holds q' (seen ++ rest.filter fun e => !removes e.1 e.2) free' := by
  induction rest generalizing q seen free fuel with
  | nil =>
    refine ⟨q, free, ?_, h⟩
    unfold CommQueue.sweep
    exact if_pos rfl
  | cons e rest ih =>
    obtain ⟨n, rfl⟩ : ∃ n, fuel = n + 1 := ⟨fuel - 1, by rw [List.length_cons] at hfuel; omega⟩
    have hn : rest.length ≤ n := Nat.le_of_succ_le_succ hfuel
    have hmem : e ∈ seen ++ e :: rest := List.mem_append_right _ List.mem_cons_self
    have hidx : e.1 ≠ 0 := h.slot_ne_zero (List.mem_append_left _ (List.mem_map_of_mem hmem))
    have hdata : q.atIdx e.1 = e.2 := h.data e hmem
    unfold CommQueue.sweep
    rw [List.map_cons, List.headD_cons, if_neg hidx, hdata]
    dsimp only
    by_cases hremoves : removes e.1 e.2 = true
    · obtain ⟨q₁, hremove, hq₁⟩ := h.remove
      obtain ⟨q', free', hsweep, hq'⟩ := ih hq₁ hn
      refine ⟨q', free', ?_, ?_⟩
      · rw [if_pos hremoves, hremove, Option.bind_some, hsweep]
        rfl
      · rw [List.filter_cons_of_neg (by simpa using hremoves)]
        exact hq'
    · have hnext : (q.memory e.1).next = (rest.map Prod.fst).headD 0 := by
        have hlinks := h.used_next
        rw [List.map_append, NextLinks.append_iff] at hlinks
        exact hlinks.2.1
      rw [List.append_cons] at h
      obtain ⟨q', free', hsweep, hq'⟩ := ih h hn
      refine ⟨q', free', ?_, ?_⟩
      · rw [if_neg hremoves, hnext, hsweep]
        rfl
      · rw [List.filter_cons_of_pos (by simpa using hremoves), List.append_cons]
        exact hq'

theorem Holds.ordered (h : Holds q live free) : InsertionOrdered q live where
  iterate _ hfuel := h.iterate hfuel
  size := h.size
  add_fresh _ _ _ := h.add_fresh
  atIdx := h.data
  lists := by
    refine ⟨free, fun fuel hfuel => ?_, h.nodup, fun i => ?_⟩
    · -- the slots are distinct and there are fewer of them than nodes
      have hslots : (live.map Prod.fst ++ free).length ≤ fuel := by
        have hsub : live.map Prod.fst ++ free ⊆ List.range q.memorySize := fun i hi =>
          List.mem_range.mpr ((h.mem_iff i).mp hi).2
        have hle := (h.nodup.subperm hsub).length_le
        rw [List.length_range] at hle
        exact hle.trans hfuel
      rw [List.length_append, List.length_map] at hslots
      refine ⟨h.indices (by omega), ?_⟩
      unfold CommQueue.indices
      rw [h.freeList]
      refine walk_eq h.free_next (fun hmem => h.zero_notMem (List.mem_append_right _ hmem)) ?_
      omega
    · rw [h.mem_iff]
      have hpos := h.memorySize
      omega
  remove idx hidx := by
    obtain ⟨e, he, rfl⟩ := List.mem_map.mp hidx
    obtain ⟨l, r, rfl⟩ := List.append_of_mem he
    obtain ⟨q', hremove, -⟩ := h.remove
    rw [hremove]
    rfl
  sweep removes fuel hfuel := by
    have hall : Holds q ([] ++ live) free := h
    obtain ⟨q', free', hsweep, hq'⟩ := hall.sweep removes hfuel
    rw [← h.usedList] at hsweep
    exact ⟨q', hsweep, hq'.iterate ((List.length_filter_le _ _).trans hfuel)⟩

/-! ## The theorem -/

omit [Inhabited T] in
/-- What is left of the record when an element is removed. -/
theorem filter_ne_eq {l r : List (ℕ × T)} {e : ℕ × T}
    (h : ((l ++ e :: r).map Prod.fst).Nodup) :
    (l ++ e :: r).filter (fun e' => e'.1 ≠ e.1) = l ++ r := by
  rw [List.map_append, List.map_cons] at h
  obtain ⟨-, hr, hdisj⟩ := List.nodup_append.mp h
  have hl : ∀ e' ∈ l, e'.1 ≠ e.1 := fun e' he' =>
    hdisj _ (List.mem_map_of_mem he') _ List.mem_cons_self
  have hr' : ∀ e' ∈ r, e'.1 ≠ e.1 := fun e' he' heq =>
    (List.nodup_cons.mp hr).1 (heq ▸ List.mem_map_of_mem he')
  rw [List.filter_append, List.filter_cons_of_neg (by simp),
    List.filter_eq_self.mpr (by simpa using hl), List.filter_eq_self.mpr (by simpa using hr')]

/-- The vector has room for the nodes after `add`. -/
theorem addObject_fits (alloc : Allocation) (q : CommQueue T) (data : T) {capacity : ℕ}
    (h : q.memorySize ≤ capacity) : (q.addObject data).2.memorySize ≤
      if q.moves capacity then alloc.grow capacity else capacity := by
  have hgrow := alloc.lt_grow capacity
  have hlink : ∀ (q : CommQueue T) i, (q.linkLast i).memorySize = q.memorySize := fun q i => by
    unfold CommQueue.linkLast
    split <;> rfl
  unfold CommQueue.addObject prepare store CommQueue.moves
  dsimp only
  rw [hlink]
  unfold CommQueue.reserve
  split
  · next hzero =>
    dsimp only
    split
    · omega
    · next hroom =>
      rw [decide_eq_true_eq, not_and] at hroom
      have hne := hroom hzero
      omega
  · split <;> dsimp only <;> omega

/-- A queue whose two lists are those of the elements and of the other slots. -/
structure State.Ok (s : State T) : Prop where
  holds : ∃ free, Holds s.queue s.live free
  fits : s.queue.memorySize ≤ s.capacity

/-- A call keeps the two lists, or it adds an element of the queue when the elements fill the
vector. -/
theorem State.Ok.call {alloc : Allocation} {s : State T} (h : s.Ok) {c : Call T} {o : Outcome T}
    (hcall : s.call alloc c = some o) :
    (¬ AddsOwn (.queue s) c ∧ ∃ s', o = .queue s' ∧ s'.Ok) ∨
      (AddsOwn (.queue s) c ∧ o = .failed) := by
  obtain ⟨free, hholds⟩ := h.holds
  unfold State.call at hcall
  cases c with
  | add data =>
    dsimp only at hcall
    split at hcall
    · next hvalid =>
      have hown : AddsOwn (.queue s) (.add data) ↔ s.queue.ReadsMoved s.capacity data := by
        cases data with
        | object data => exact Iff.rfl
        | element idx => exact (hholds.moves_iff h.fits).symm
      rw [hown]
      rcases s.queue.add_cases s.capacity hvalid with ⟨hnot, hadd⟩ | ⟨hreads, hadd⟩
      · rw [hadd] at hcall
        refine Or.inl ⟨hnot, _, (Option.some.inj hcall).symm, (hholds.addObject _).1, ?_⟩
        exact addObject_fits alloc s.queue _ h.fits
      · rw [hadd] at hcall
        exact Or.inr ⟨hreads, (Option.some.inj hcall).symm⟩
    · cases hcall
  | remove idx =>
    dsimp only at hcall
    split at hcall
    · next hidx =>
      obtain ⟨e, he, rfl⟩ := List.mem_map.mp hidx
      obtain ⟨l, r, hlive⟩ := List.append_of_mem he
      rw [hlive] at hholds hcall
      obtain ⟨q', hremove, hq'⟩ := hholds.remove
      rw [hremove] at hcall
      refine Or.inl ⟨id, _, (Option.some.inj hcall).symm, ⟨e.1 :: free, ?_⟩, ?_⟩
      · dsimp only
        rw [filter_ne_eq hholds.nodup.of_append_left]
        exact hq'
      · -- the lists are in the same vector
        have hbefore := hholds.length_add
        have hafter := hq'.length_add
        have hfits := h.fits
        simp only [List.length_append, List.length_cons] at hbefore hafter ⊢
        omega
    · cases hcall
  | clear =>
    exact Or.inl ⟨id, _, (Option.some.inj hcall).symm, ⟨_, holds_clear hholds⟩, h.fits⟩
  | copy =>
    exact Or.inl ⟨id, _, (Option.some.inj hcall).symm, ⟨free, hholds⟩, alloc.le_assign _ _⟩

/-- A queue that was just made. -/
theorem fresh_cases (alloc : Allocation) {defaultCapacity : ℕ} (h : defaultCapacity < sizeT) :
    (defaultCapacity ≠ sizeT - 1 ∧
      ∃ s : State T, fresh alloc defaultCapacity = .queue s ∧ s.Ok) ∨
      (defaultCapacity = sizeT - 1 ∧ (fresh alloc defaultCapacity : Outcome T) = .failed) := by
  unfold fresh create
  by_cases hmax : defaultCapacity = sizeT - 1
  · have hwrap : addSizeT defaultCapacity 1 = 0 := by
      unfold addSizeT
      rw [hmax, Nat.sub_add_cancel (by rw [sizeT_eq]; decide), Nat.mod_self]
    refine Or.inr ⟨hmax, ?_⟩
    dsimp only
    rw [if_pos hwrap]
  · have hsize : addSizeT defaultCapacity 1 = defaultCapacity + 1 := addSizeT_of_lt (by omega)
    refine Or.inl ⟨hmax, ⟨linkMemory (defaultCapacity + 1), alloc.make (defaultCapacity + 1), []⟩,
      ?_, ⟨_, holds_linkMemory (Nat.le_add_left 1 _)⟩, alloc.le_make _⟩
    dsimp only
    rw [hsize, if_neg (Nat.succ_ne_zero _)]
    rfl

/-- After a run the queue is well and no call was a fault, or it has failed at one of the calls. -/
theorem path_cases (alloc : Allocation) {defaultCapacity : ℕ} (hcapacity : defaultCapacity < sizeT)
    {o : Outcome T} {trace : List (TransitionSystem.Transition (Outcome T) (Call T))}
    (p : (system T alloc defaultCapacity).Path (fun _ _ => True) (fresh alloc defaultCapacity)
      trace o) :
    ((defaultCapacity ≠ sizeT - 1 ∧ ∀ t ∈ trace, ¬ AddsOwn t.source t.action) ∧
        ∃ s, o = .queue s ∧ s.Ok) ∨
      (¬ (defaultCapacity ≠ sizeT - 1 ∧ ∀ t ∈ trace, ¬ AddsOwn t.source t.action) ∧
        o = .failed) := by
  generalize hstart : (fresh alloc defaultCapacity : Outcome T) = o₀ at p
  induction p with
  | nil =>
    rcases fresh_cases (T := T) alloc hcapacity with ⟨hne, s, hs, hok⟩ | ⟨hmax, hfailed⟩
    · exact Or.inl ⟨⟨hne, fun _ h => absurd h List.not_mem_nil⟩, s, hstart.symm.trans hs, hok⟩
    · exact Or.inr ⟨fun h => h.1 hmax, hstart.symm.trans hfailed⟩
  | snoc _ _ hstep ih =>
    simp only [List.forall_mem_append, List.forall_mem_singleton]
    rcases ih with ⟨⟨hne, hgood⟩, s, rfl, hok⟩ | ⟨-, rfl⟩
    · rcases hok.call hstep with ⟨hnot, hok'⟩ | ⟨hadds, hfailed⟩
      · exact Or.inl ⟨⟨hne, hgood, hnot⟩, hok'⟩
      · exact Or.inr ⟨fun h => h.2.2 hadds, hfailed⟩
    · -- a queue that has failed is not called
      cases hstep

/-- **The queue is a collection in insertion order with stable addresses** after a run of calls, if
and only if the capacity is not the greatest one and no call adds an element of the queue when the
elements fill the vector. -/
theorem insertionOrdered_iff (alloc : Allocation) {defaultCapacity : ℕ}
    (hcapacity : defaultCapacity < sizeT) {o : Outcome T}
    {trace : List (TransitionSystem.Transition (Outcome T) (Call T))}
    (p : (system T alloc defaultCapacity).Path (fun _ _ => True) (fresh alloc defaultCapacity)
      trace o) :
    o.Ordered ↔
      defaultCapacity ≠ sizeT - 1 ∧ ∀ t ∈ trace, ¬ AddsOwn t.source t.action := by
  rcases path_cases alloc hcapacity p with ⟨hgood, s, rfl, hok⟩ | ⟨hfault, rfl⟩
  · obtain ⟨free, hholds⟩ := hok.holds
    exact ⟨fun _ => hgood, fun _ => hholds.ordered⟩
  · exact ⟨False.elim, fun h => absurd h hfault⟩

/-- A vector that takes what it needs, and doubles when it is full. -/
def doubling : Allocation where
  make n := n
  grow capacity := max 1 (2 * capacity)
  assign capacity n := max capacity n
  le_make _ := le_rfl
  lt_grow _ := by omega
  le_assign _ _ := le_max_right _ _

/-- The queue adds an element of its own while a slot is free and grows, its head is removed and
the slot is used again. -/
def churn : List (Call ℕ) :=
  [.add (.object 10), .add (.element 1), .add (.object 11), .copy, .add (.element 3), .remove 1,
    .add (.object 12)]

instance : (o : Outcome T) → (c : Call T) → Decidable (AddsOwn o c)
  | .queue s, .add (.element _) => inferInstanceAs (Decidable (s.live.length + 1 = s.capacity))
  | .queue _, .add (.object _) | .queue _, .remove _ | .queue _, .clear | .queue _, .copy
  | .failed, _ => inferInstanceAs (Decidable False)

theorem insertionOrdered_churn :
    ∃ s, (system ℕ doubling 2).replay (fresh doubling 2) churn = .queue s ∧
      s.live = [(2, 10), (3, 11), (4, 11), (1, 12)] ∧ InsertionOrdered s.queue s.live := by
  have hordered : ((system ℕ doubling 2).replay (fresh doubling 2) churn).Ordered :=
    (insertionOrdered_iff doubling (by rw [sizeT_eq]; decide)
      (TransitionSystem.Path.replay churn (by decide))).mpr ⟨by rw [sizeT_eq]; decide, by decide⟩
  exact ⟨_, by rfl, by decide, hordered⟩

/-- A queue of one slot, to which its only element is added once more. -/
def addOwn : List (Call ℕ) :=
  [.add (.object 10), .add (.element 1)]

/-- **The queue fails**: `add` reads its argument after the vector has moved, and the constructor
writes behind the vector that it has made for the greatest capacity. -/
theorem not_insertionOrdered_addOwn :
    (∃ trace o, (system ℕ doubling 1).Path (fun _ _ => True) (fresh doubling 1) trace o ∧
      ¬ o.Ordered) ∧ ¬ (fresh doubling (sizeT - 1) : Outcome ℕ).Ordered := by
  refine ⟨⟨_, _, TransitionSystem.Path.replay addOwn (by decide), ?_⟩, ?_⟩
  · have hfailed : (system ℕ doubling 1).replay (fresh doubling 1) addOwn = .failed := by rfl
    rw [hfailed]
    exact id
  · have hfailed : (fresh doubling (sizeT - 1) : Outcome ℕ) = .failed := by rfl
    rw [hfailed]
    exact id

end CommQueue
end ThreadUtils
