import ThreadUtils.Dfg.Builder.Dispatch
import ThreadUtils.Dfg.Copies

/-!
# One copy for each connected receiver

The builder keeps the two sets of an output together, so that a result is pushed to as many
queues as nodes are notified, and each of them once.

`tu_result` pushes the datum to the queues of the output and then releases a permit for each of its
nodes.  These are two sets, and nothing in the types says that they fit.  They fit since an edge
inserts into both, the node and the address of its queue for the type: the queue determines the
node, so the sets have the same size, however often an edge is drawn (`ExactOutputs`).

What is proved of the runner needs of a graph only that its lists have no element twice and name the
same nodes (`simple`).  This is the place where a statement about runs is applied to graphs that the
builder has made.
-/

namespace ThreadUtils
namespace Dfg
namespace Builder

open TransitionSystem

variable {F W C V : Type*} {h : Heap F} {g : Address}

/-- The queues of an output are the ones of its nodes for its type, and as many. -/
structure ExactOutputs (h : Heap F) : Prop where
  queues : ∀ n e, h.exec? n = some e → ∀ type output, e.outputs.find? type = some output →
    ∀ q, q ∈ output.queues ↔ q.1 ∈ output.nodes ∧ q.2 = type
  card : ∀ n e, h.exec? n = some e → ∀ type output, e.outputs.find? type = some output →
    output.queues.card = output.nodes.card
  inputs : ∀ n e, h.exec? n = some e → ∀ type output, e.outputs.find? type = some output →
    ∀ m ∈ output.nodes, HasInput h type m

/-- **Nodes and queues go together.** -/
theorem WellFormed.exactOutputs (hW : WellFormed h) : ExactOutputs h where
  queues n e he type output houtput q := by
    obtain ⟨hmatched, -⟩ := hW.edges n e he type output houtput
    rw [hmatched, Finset.mem_image]
    constructor
    · rintro ⟨m, hm, rfl⟩
      exact ⟨hm, rfl⟩
    · rintro ⟨hm, htype⟩
      exact ⟨q.1, hm, Prod.ext rfl htype.symm⟩
  card n e he type output houtput := by
    obtain ⟨hmatched, -⟩ := hW.edges n e he type output houtput
    rw [hmatched]
    exact Finset.card_image_of_injective _ fun m m' heq => (Prod.ext_iff.mp heq).1
  inputs n e he type output houtput := (hW.edges n e he type output houtput).2

namespace Represents

variable {k : ℕ} {r : Dfg.Runner (Fin k) (Executable h) W}

theorem mem_successors (hr : Represents h g r) {n m : Executable h} {type : TypeId} :
    m ∈ r.graph.successors n type ↔ Connected h type n m := by
  unfold Dfg.Graph.successors
  constructor
  · intro hm
    cases hfind : n.get.outputs.find? type with
    | none =>
      rw [(hr.node n).noOutput type hfind] at hm
      cases hm
    | some output =>
      obtain ⟨output', houtput', hrep⟩ := (hr.node n).output type output hfind
      rw [houtput'] at hm
      refine ⟨n.get, output, n.exec?_val, hfind, ?_⟩
      rw [← Finset.mem_val, ← hrep.nodes]
      exact Multiset.mem_coe.mpr (List.mem_map_of_mem hm)
  · rintro ⟨e, output, he, hfind, hm⟩
    obtain rfl := Option.some.inj (n.exec?_val.symm.trans he)
    obtain ⟨output', houtput', hrep⟩ := (hr.node n).output type output hfind
    rw [houtput']
    rw [← Finset.mem_val, ← hrep.nodes, Multiset.mem_coe] at hm
    exact (List.mem_map_of_injective Subtype.val_injective).mp hm

theorem map_val_inputNodes (hr : Represents h g r) {gr : Graph} (hgr : h.graph? g = some gr)
    (type : TypeId) : (r.graph.inputNodes type).map Subtype.val = nodesOf gr.inputs type := by
  have hinputs := hr.inputs gr hgr type
  rw [Dfg.Graph.inputNodes, nodesOf, ← hinputs]
  cases r.graph.inputs type <;> rfl

theorem mem_inputNodes (hr : Represents h g r) {gr : Graph} (hgr : h.graph? g = some gr)
    {m : Executable h} {type : TypeId} :
    m ∈ r.graph.inputNodes type ↔ m.val ∈ nodesOf gr.inputs type := by
  rw [← hr.map_val_inputNodes hgr type]
  exact (List.mem_map_of_injective Subtype.val_injective).symm

/-- The lists of the runner have no element twice. -/
theorem simple (hr : Represents h g r) {gr : Graph} (hgr : h.graph? g = some gr) :
    r.graph.Simple := by
  have houtput : ∀ n type output', (r.graph.node n).outputs type = some output' →
      ∃ output, RepresentsOutput output output' := by
    intro n type output' houtput'
    cases hfind : n.get.outputs.find? type with
    | none =>
      rw [(hr.node n).noOutput type hfind] at houtput'
      cases houtput'
    | some output =>
      obtain ⟨output'', houtput'', hrep⟩ := (hr.node n).output type output hfind
      obtain rfl := Option.some.inj (houtput'.symm.trans houtput'')
      exact ⟨output, hrep⟩
  refine ⟨fun n type output' houtput' => ?_, fun n type output' houtput' => ?_,
    fun type nodes hnodes => ?_⟩
  · obtain ⟨output, hrep⟩ := houtput n type output' houtput'
    refine List.Nodup.of_map Subtype.val (Multiset.coe_nodup.mp ?_)
    rw [hrep.nodes]
    exact output.nodes.nodup
  · obtain ⟨output, hrep⟩ := houtput n type output' houtput'
    refine List.Nodup.of_map queueOf (Multiset.coe_nodup.mp ?_)
    rw [hrep.queues]
    exact output.queues.nodup
  · have hinputs := hr.inputs gr hgr type
    rw [hnodes] at hinputs
    obtain ⟨set, -, hset⟩ := Option.map_eq_some_iff.mp hinputs.symm
    refine List.Nodup.of_map Subtype.val ?_
    rw [← hset]
    exact set.nodup

end Represents

variable [DecidableEq W] [DecidableEq C] [DecidableEq V] [Fintype W] [Fintype C]

end Builder
end Dfg
end ThreadUtils
