import Mathlib.Data.Finset.Sort
import ThreadUtils.Dfg.Builder.Registration
import ThreadUtils.Dfg.Model

/-!
# From the heap to the runner

The workers of a dfg run on the objects that the builder has left in the heap.  `Runs` says that
a runner is the one of a registered graph: its nodes are the executable nodes of the heap, and
the sets of successors and of their queues become lists, in any order.

A set of pointers has no order that the program could rely on, so the runner may have any
(`RepresentsOutput`), and a theorem about runs holds for all of them.  The nodes of the runner are
pointers with a proof that they point to an executable node, so that no step of a run has to
consider another case.

`exists_runs` shows that the relation is not empty: for a well-formed heap a runner can be written
down, with the successors in the order of their addresses.

* `exists_runs` --- every registered graph has a runner.
-/

namespace ThreadUtils
namespace Dfg
namespace Builder

variable {F W : Type*} {h : Heap F}

/-! ## What a runner shows of the heap -/

/-- A pointer to an executable node. -/
abbrev Executable (h : Heap F) := {n : Address // (h.exec? n).isSome}

/-- The node. -/
def Executable.get (n : Executable h) : ExecNode F :=
  (h.exec? n.val).get n.property

theorem Executable.exec?_val (n : Executable h) : h.exec? n.val = some n.get :=
  (Option.some_get n.property).symm

/-- The queue of a node. -/
def queueOf (q : NodeQueue (Executable h)) : NodeQueue Address :=
  (q.1.val, q.2)

/-- The two sets of an output, each in some order. -/
structure RepresentsOutput {type : TypeId} (output : ExecNodeOutput)
    (output' : Dfg.ExecNodeOutput (Executable h) type) : Prop where
  nodes : (output'.nodes.map Subtype.val : Multiset Address) = output.nodes.val
  queues : (output'.queues.map queueOf : Multiset (NodeQueue Address)) = output.queues.val

/-- A node of the runner shows a node of the heap. -/
structure RepresentsNode {k : ℕ} (e : ExecNode F)
    (node : Dfg.ExecNode (Fin k) (Executable h)) : Prop where
  kind : node.kind = e.kind
  graph : ∀ g, e.graph = some g → node.graph = g
  inputs : node.inputs = e.inputs.keys.toList
  noOutput : ∀ type, e.outputs.find? type = none → node.outputs type = none
  output : ∀ type output, e.outputs.find? type = some output →
    ∃ output', node.outputs type = some output' ∧ RepresentsOutput output output'
  sink : node.sink = e.sink
  group : (node.group : ℕ) = e.group
  maxThreadCount : node.maxThreadCount = e.maxThreadCount

/-- A runner shows the graph `g`, for a dfg with `k` groups. -/
structure Represents {k : ℕ} (h : Heap F) (g : Address)
    (r : Dfg.Runner (Fin k) (Executable h) W) : Prop where
  id : r.graph.id = g
  node : ∀ n, RepresentsNode n.get (r.graph.node n)
  inputs : ∀ gr, h.graph? g = some gr → ∀ type,
    (r.graph.inputs type).map (List.map Subtype.val) =
      (gr.inputs.find? type).map OrderedSet.toList
  outputs : ∀ g' gr, h.graph? g' = some gr → ∀ type,
    r.graph.outputs g' type = gr.outputs.contains type

/-- The runner of a graph that a dfg has registered. -/
structure Runs (h : Heap F) (g : Address) (dfg : TuDfg)
    (r : Dfg.Runner (Fin dfg.groups.length) (Executable h) W) : Prop extends
    Represents h g r where
  nodes : ∀ i, (r.nodes i).map Subtype.val = (dfg.groups.get i).nodes

/-! ## The runner of a graph -/

/-- Pointers to executable nodes. -/
def pointers (l : List Address) (hl : ∀ n ∈ l, (h.exec? n).isSome) : List (Executable h) :=
  l.pmap Subtype.mk hl

@[simp] theorem map_val_pointers (l : List Address) (hl : ∀ n ∈ l, (h.exec? n).isSome) :
    (pointers l hl).map Subtype.val = l := by
  rw [pointers, List.map_pmap, List.pmap_eq_map, List.map_id']

theorem mem_pointers {l : List Address} {hl : ∀ n ∈ l, (h.exec? n).isSome} {n : Executable h} :
    n ∈ pointers l hl ↔ n.val ∈ l := by
  conv_rhs => rw [← map_val_pointers l hl]
  exact (List.mem_map_of_injective Subtype.val_injective).symm

theorem HasInput.isSome {type : TypeId} {n : Address} (hn : HasInput h type n) :
    (h.exec? n).isSome := by
  obtain ⟨e, he, -⟩ := hn
  rw [he]
  rfl

theorem HasInput.mem_keys {type : TypeId} {n : Executable h} (hn : HasInput h type n.val) :
    type ∈ n.get.inputs.keys := by
  obtain ⟨e, he, htype⟩ := hn
  obtain rfl := Option.some.inj (n.exec?_val.symm.trans he)
  exact htype

/-- The output in the order of the addresses of its nodes. -/
def runnerOutput (type : TypeId) (output : ExecNodeOutput)
    (hnodes : ∀ m ∈ output.nodes, (h.exec? m).isSome) :
    Dfg.ExecNodeOutput (Executable h) type where
  nodes := pointers (output.nodes.sort (· ≤ ·)) fun m hm => hnodes m ((Finset.mem_sort _).mp hm)
  queues := (pointers (output.nodes.sort (· ≤ ·)) fun m hm =>
    hnodes m ((Finset.mem_sort _).mp hm)).map fun m => (m, type)
  mem_queues q := by
    rw [List.mem_map]
    constructor
    · rintro ⟨m, hm, rfl⟩
      exact ⟨hm, rfl⟩
    · rintro ⟨hm, htype⟩
      exact ⟨q.1, hm, Prod.ext rfl htype.symm⟩

theorem representsOutput_runnerOutput {type : TypeId} {output : ExecNodeOutput}
    (hmatched : output.Matched type) (hnodes : ∀ m ∈ output.nodes, (h.exec? m).isSome) :
    RepresentsOutput output (runnerOutput type output hnodes) := by
  have hval : ((runnerOutput type output hnodes).nodes.map Subtype.val : Multiset Address) =
      output.nodes.val := by
    rw [runnerOutput, map_val_pointers, Finset.sort_eq]
  refine ⟨hval, ?_⟩
  have hinj : Function.Injective fun m : Address => (m, type) := fun m m' heq =>
    (Prod.ext_iff.mp heq).1
  calc ((runnerOutput type output hnodes).queues.map queueOf : Multiset (NodeQueue Address))
      = ((runnerOutput type output hnodes).nodes.map Subtype.val : Multiset Address).map
          fun m => (m, type) := by
        rw [Multiset.map_coe, List.map_map]
        exact congrArg Multiset.ofList (List.map_map ..)
    _ = output.queues.val := by
        rw [hval, hmatched, Finset.image_val_of_injOn hinj.injOn]

/-- The nodes with an output have an input for its type. -/
theorem WellFormed.successor (hW : WellFormed h) {n : Executable h} {type : TypeId}
    {output : ExecNodeOutput} (hfind : n.get.outputs.find? type = some output) :
    output.Matched type ∧ ∀ m ∈ output.nodes, HasInput h type m :=
  hW.edges n.val n.get n.exec?_val type output hfind

/-- The node of the runner. -/
def runnerNode {k : ℕ} (hW : WellFormed h) (hvalid : ∀ n : Executable h, n.get.group < k)
    (n : Executable h) : Dfg.ExecNode (Fin k) (Executable h) where
  kind := n.get.kind
  graph := n.get.graph.getD 0
  inputs := n.get.inputs.keys.toList
  outputs type := (n.get.outputs.find? type).pmap (runnerOutput type) fun _ hfind m hm =>
    ((hW.successor hfind).2 m hm).isSome
  sink := n.get.sink
  group := ⟨n.get.group, hvalid n⟩
  maxThreadCount := n.get.maxThreadCount
  maxThreadCount_state := hW.state n.val n.get n.exec?_val

theorem representsNode_runnerNode {k : ℕ} (hW : WellFormed h)
    (hvalid : ∀ n : Executable h, n.get.group < k) (n : Executable h) :
    RepresentsNode n.get (runnerNode hW hvalid n) where
  kind := rfl
  graph g hg := by
    rw [runnerNode, hg]
    rfl
  inputs := rfl
  noOutput type hfind := Option.pmap_eq_none_iff.mpr hfind
  output type output hfind := by
    obtain ⟨hmatched, hnodes⟩ := hW.successor hfind
    exact ⟨_, Option.pmap_eq_some_iff.mpr ⟨output, _, hfind, rfl⟩,
      representsOutput_runnerOutput hmatched fun m hm => (hnodes m hm).isSome⟩
  sink := rfl
  group := rfl
  maxThreadCount := rfl

/-- The graph of the runner. -/
def runnerGraph {k : ℕ} (hW : WellFormed h) (hvalid : ∀ n : Executable h, n.get.group < k)
    {g : Address} {gr : Graph} (hgr : h.graph? g = some gr) :
    Dfg.Graph (Fin k) (Executable h) where
  id := g
  node := runnerNode hW hvalid
  inputs type := (gr.inputs.find? type).pmap (fun nodes => pointers nodes.toList)
    fun nodes hfind n hn => (hW.inputs g gr hgr type n (by rw [nodesOf, hfind]; exact hn)).isSome
  outputs g' type := (h.graph? g').any fun gr' => gr'.outputs.contains type
  mem_inputs type nodes hnodes n hn := by
    obtain ⟨set, _, hfind, rfl⟩ := Option.pmap_eq_some_iff.mp hnodes
    have hmem : n.val ∈ nodesOf gr.inputs type := by
      rw [nodesOf, hfind]
      exact mem_pointers.mp hn
    exact (hW.inputs g gr hgr type n.val hmem).mem_keys
  mem_outputs n type output houtput m hm := by
    obtain ⟨output', _, hfind, rfl⟩ := Option.pmap_eq_some_iff.mp houtput
    have hmem : m.val ∈ output'.nodes := (Finset.mem_sort _).mp (mem_pointers.mp hm)
    exact ((hW.successor hfind).2 m.val hmem).mem_keys

theorem OnlyNodes.isSome {g : Address} {groups : List WorkerGroup} (hgroups : OnlyNodes h g groups)
    (i : Fin groups.length) : ∀ n ∈ (groups.get i).nodes, (h.exec? n).isSome := by
  intro n hn
  obtain ⟨-, e, he, -⟩ := hgroups i (groups.get i) (List.getElem?_eq_getElem i.isLt) n hn
  rw [he]
  rfl

/-- The runner of the groups `base`. -/
def runner {g : Address} {gr : Graph} {dfg : TuDfg} (hW : WellFormed h)
    (hgr : h.graph? g = some gr) (hgroups : OnlyNodes h g dfg.groups)
    (hvalid : ∀ n : Executable h, n.get.group < dfg.groups.length)
    (base : Groups (Fin dfg.groups.length) W) (maxDequeueCount : Fin dfg.groups.length → ℕ) :
    Dfg.Runner (Fin dfg.groups.length) (Executable h) W where
  toGroups := base
  graph := runnerGraph hW hvalid hgr
  maxDequeueCount := maxDequeueCount
  nodes i := pointers (dfg.groups.get i).nodes (hgroups.isSome i)
  group_of_mem i n hn := by
    obtain ⟨-, e, he, hgroup⟩ := hgroups i (dfg.groups.get i)
      (List.getElem?_eq_getElem i.isLt) n.val (mem_pointers.mp hn)
    obtain rfl := Option.some.inj (n.exec?_val.symm.trans he)
    exact Fin.ext hgroup

/-- **Every registered graph has a runner**, for any workers of its groups. -/
theorem exists_runs {g : Address} {gr : Graph} {dfg : TuDfg} (hW : WellFormed h)
    (hgr : h.graph? g = some gr) (hgroups : OnlyNodes h g dfg.groups)
    (hvalid : ∀ n : Executable h, n.get.group < dfg.groups.length)
    (base : Groups (Fin dfg.groups.length) W) (maxDequeueCount : Fin dfg.groups.length → ℕ) :
    ∃ r : Dfg.Runner (Fin dfg.groups.length) (Executable h) W,
      r.toGroups = base ∧ r.maxDequeueCount = maxDequeueCount ∧ Runs h g dfg r := by
  refine ⟨runner hW hgr hgroups hvalid base maxDequeueCount, rfl, rfl, ⟨rfl, ?_, ?_, ?_⟩, ?_⟩
  · exact representsNode_runnerNode hW hvalid
  · intro gr' hgr' type
    obtain rfl := Option.some.inj (hgr.symm.trans hgr')
    show ((gr.inputs.find? type).pmap (fun nodes => pointers nodes.toList) _).map _ = _
    rw [Option.map_pmap]
    simp only [map_val_pointers]
    exact Option.pmap_eq_map ..
  · intro g' gr' hgr' type
    show (h.graph? g').any _ = _
    rw [hgr']
    rfl
  · exact fun i => map_val_pointers _ _

end Builder
end Dfg
end ThreadUtils
