import Mathlib.Data.Finset.Insert
import ThreadUtils.DataStructures.OrderedMap
import ThreadUtils.Dfg.Graph

/-!
# The objects of a graph under construction

The functions of `graph.cpp` build a graph out of nodes that point to each other.  Here the
memory is a heap: an address is free or has an executable node or a graph.  The queue of an
input is told by the address of its node and by its type, and the sink of a graph by the
address of the graph.

The loops of the builder go over the sets of nodes of a graph, in the order of their
addresses.  They never go over the sets of an output, which are left without an order.

A `Node *` is cast to `ExecNode *` or `Graph *` by its kind.  An object of the heap is one of the
two, so a cast is a partial function (`Heap.exec?`, `Heap.graph?`), and a write of the one kind does
not touch the objects of the other.  That a pointer may point to no object at all is part of the
model: a call that reads such a pointer has no outcome.
-/

namespace ThreadUtils
namespace Dfg
namespace Builder

/-- What a `Node *` points to. -/
abbrev Address := ℕ

variable {F : Type*}

/-- `ExecNodeInput`, for functions of the type `F`.  The queue is the one of the address of
the node and of the type. -/
structure ExecNodeInput (F : Type*) where
  exec : Option F
  deriving DecidableEq

/-- `ExecNodeOutput`. -/
structure ExecNodeOutput where
  nodes : Finset Address
  queues : Finset (NodeQueue Address)
  deriving DecidableEq

/-- A default-constructed `ExecNodeOutput`. -/
def ExecNodeOutput.empty : ExecNodeOutput := ⟨∅, ∅⟩

/-- `nodes.insert(receiver)` and `queues.insert(&receiver_input->second.queue)`. -/
def ExecNodeOutput.insert (output : ExecNodeOutput) (receiver : Address) (type : TypeId) :
    ExecNodeOutput :=
  ⟨Insert.insert receiver output.nodes, Insert.insert (receiver, type) output.queues⟩

/-- `ExecNode`.  `graph` is `node.graph`, which may be null, and `sink` the graph whose sink it
points to. -/
structure ExecNode (F : Type*) where
  kind : NodeKind
  graph : Option Address
  inputs : OrderedMap TypeId (ExecNodeInput F)
  outputs : OrderedMap TypeId ExecNodeOutput
  sink : Option Address
  group : ℕ
  maxThreadCount : ℕ

/-- `Graph`. -/
structure Graph where
  nodes : List Address
  inputs : OrderedMap TypeId (OrderedSet Address)
  outputs : OrderedMap TypeId (OrderedSet Address)

/-- An executable node or a graph. -/
inductive Object (F : Type*) where
  | exec (e : ExecNode F)
  | graph (gr : Graph)

/-- The allocated objects. -/
abbrev Heap (F : Type*) := Address → Option (Object F)

namespace Heap

/-- Nothing is allocated. -/
def empty : Heap F := fun _ => none

/-- The cast to `ExecNode *`. -/
def exec? (h : Heap F) (n : Address) : Option (ExecNode F) :=
  match h n with
  | some (.exec e) => some e
  | _ => none

/-- A `Graph *` that is read. -/
def graph? (h : Heap F) (g : Address) : Option Graph :=
  match h g with
  | some (.graph gr) => some gr
  | _ => none

def setExec (h : Heap F) (n : Address) (e : ExecNode F) : Heap F :=
  Function.update h n (some (.exec e))

def setGraph (h : Heap F) (g : Address) (gr : Graph) : Heap F :=
  Function.update h g (some (.graph gr))

variable {h : Heap F} {n m : Address} {e e' : ExecNode F} {gr gr' : Graph}

theorem exec?_eq_some : h.exec? n = some e ↔ h n = some (.exec e) := by
  unfold exec?
  split
  · next e' he =>
    rw [he, Option.some.injEq, Option.some.injEq, Object.exec.injEq]
  · next hne => exact iff_of_false (by simp) (hne e)

theorem graph?_eq_some : h.graph? n = some gr ↔ h n = some (.graph gr) := by
  unfold graph?
  split
  · next gr' hgr =>
    rw [hgr, Option.some.injEq, Option.some.injEq, Object.graph.injEq]
  · next hne => exact iff_of_false (by simp) (hne gr)

@[simp] theorem exec?_setExec_self : (h.setExec n e).exec? n = some e :=
  exec?_eq_some.mpr (Function.update_self _ _ _)

@[simp] theorem graph?_setGraph_self : (h.setGraph n gr).graph? n = some gr :=
  graph?_eq_some.mpr (Function.update_self _ _ _)

theorem exec?_setExec_of_ne (hne : m ≠ n) : (h.setExec n e).exec? m = h.exec? m := by
  rw [exec?, exec?, setExec, Function.update_of_ne hne]

theorem graph?_setGraph_of_ne (hne : m ≠ n) : (h.setGraph n gr).graph? m = h.graph? m := by
  rw [graph?, graph?, setGraph, Function.update_of_ne hne]

theorem setGraph_setGraph : (h.setGraph n gr).setGraph n gr' = h.setGraph n gr' :=
  Function.update_idem _ _ _

theorem setExec_setExec : (h.setExec n e).setExec n e' = h.setExec n e' :=
  Function.update_idem _ _ _

theorem setGraph_eq_self (hgr : h.graph? n = some gr) : h.setGraph n gr = h := by
  rw [setGraph, ← graph?_eq_some.mp hgr, Function.update_eq_self]

theorem setExec_eq_self (he : h.exec? n = some e) : h.setExec n e = h := by
  rw [setExec, ← exec?_eq_some.mp he, Function.update_eq_self]

/-- A node is no graph, before and after it is written. -/
theorem graph?_setExec (hn : h.graph? n = none) : (h.setExec n e).graph? m = h.graph? m := by
  by_cases hm : m = n
  · subst hm
    rw [hn, graph?, setExec, Function.update_self]
  · rw [graph?, graph?, setExec, Function.update_of_ne hm]

/-- A graph is no node, before and after it is written. -/
theorem exec?_setGraph (hn : h.exec? n = none) : (h.setGraph n gr).exec? m = h.exec? m := by
  by_cases hm : m = n
  · subst hm
    rw [hn, exec?, setGraph, Function.update_self]
  · rw [exec?, exec?, setGraph, Function.update_of_ne hm]

theorem graph?_of_exec? (he : h.exec? n = some e) : h.graph? n = none := by
  rw [graph?, exec?_eq_some.mp he]

theorem exec?_of_graph? (hgr : h.graph? n = some gr) : h.exec? n = none := by
  rw [exec?, graph?_eq_some.mp hgr]

theorem exec?_of_free (hn : h n = none) : h.exec? n = none := by
  rw [exec?, hn]

theorem graph?_of_free (hn : h n = none) : h.graph? n = none := by
  rw [graph?, hn]

end Heap
end Builder
end Dfg
end ThreadUtils
