import ThreadUtils.Dfg.Steps
import ThreadUtils.Transition.Accounting

/-!
# The type of a queue

The queues of a node are keyed by the types of its data.  `tu_result` pushes to the queues
of the output for the type of the result, which an edge has entered under this type, and
`tu_dfg_push_data` looks the queue up by the type of the datum.  In both cases the node has
an input for the type, as `tu_internal_node_enqueue` and `worker_node_exec` assert.

The datum in a queue carries its type as well, as a field, and the worker that pops it looks the
function up by this field and not by the type of the queue.  So the two have to agree, and that
the queue is one of an input of the node is not enough.  `Fits` says both, and `Typed` says it of
every datum on its way: in a queue, with a worker that is in the middle of `tu_result`, and with a
client that is in the middle of `tu_dfg_push_data`.

What is needed of the graph is that an output for a type has queues for that type at nodes that take
it.  Whether the builder makes such graphs is a question about the builder.
-/

namespace ThreadUtils
namespace Dfg

variable {G N W C V : Type*}

/-- The pushes of `tu_result` that remain go to queues of the type of the result, and the
nodes of these queues have an input for it and are still to be notified. -/
def ExecPc.Typed (graph : Graph G N) : ExecPc N V → Prop
  | .push result queues nodes _ => ∀ q ∈ queues,
      q.2 = result.type ∧ q.2 ∈ (graph.node q.1).inputs ∧ q.1 ∈ nodes
  | _ => True

/-- The type discipline of a worker. -/
def WorkerPc.Typed (graph : Graph G N) : WorkerPc N V → Prop
  | .exec _ _ _ e => e.Typed graph
  | _ => True

/-- The nodes that `tu_dfg_push_data` still pushes to have an input for the datum. -/
def ClientPc.Typed (graph : Graph G N) : ClientPc G N W V → Prop
  | .enqueue data n rest => ∀ m ∈ n :: rest, data.type ∈ (graph.node m).inputs
  | .release data _ rest => ∀ m ∈ rest, data.type ∈ (graph.node m).inputs
  | _ => True

/-- A datum is in a queue of its own type, at a node with an input for this type. -/
def Fits (graph : Graph G N) (q : NodeQueue N) (data : GraphData V) : Prop :=
  data.type = q.2 ∧ q.2 ∈ (graph.node q.1).inputs

/-- The type discipline of the queues and of the threads that push to them. -/
structure Typed (graph : Graph G N) (s : State G N W C V) : Prop where
  queue : ∀ q, ∀ data ∈ s.queue q, Fits graph q data
  worker : ∀ w, (s.worker w).Typed graph
  client : ∀ c, (s.client c).Typed graph

theorem typed_afterSink (graph : Graph G N) (n : N) (result : GraphData V)
    (todo : List (GraphData V)) : (graph.afterSink n result todo).Typed graph := by
  unfold Graph.afterSink
  split
  · next output hout =>
    intro q hq
    obtain ⟨hnode, htype⟩ := (output.mem_queues q).mp hq
    refine ⟨htype, ?_, hnode⟩
    rw [htype]
    exact graph.mem_outputs n result.type output hout q.1 hnode
  · trivial

theorem typed_enter (dfg : Runner G N W) (g : G) (k p : ℕ) :
    (dfg.enter g k p : WorkerPc N V).Typed dfg.graph := by
  unfold Runner.enter
  split <;> trivial

theorem typed_next (dfg : Runner G N W) (g : G) (v : Visit N) :
    (dfg.next g v : WorkerPc N V).Typed dfg.graph := by
  unfold Runner.next
  split
  · split
    · trivial
    · exact typed_enter dfg g 0 0
  · exact typed_enter dfg g _ _

theorem typed_afterExec (dfg : Runner G N W) (g : G) (v : Visit N) (i : ℕ) :
    (dfg.afterExec g v i : WorkerPc N V).Typed dfg.graph := by
  unfold Runner.afterExec
  split
  · trivial
  · split <;> trivial

theorem typed_pushNext (graph : Graph G N) {data : GraphData V} {rest : List N}
    (h : ∀ m ∈ rest, data.type ∈ (graph.node m).inputs) :
    (pushNext data rest : ClientPc G N W V).Typed graph := by
  cases rest with
  | nil => trivial
  | cons n rest => exact h

theorem typed_termNext (dfg : Runner G N W) (groups : List G) :
    (dfg.termNext groups : ClientPc G N W V).Typed dfg.graph := by
  cases groups <;> trivial

variable {dfg : Runner G N W} {s s' : State G N W C V}

theorem LocalMove.typed {w : W} {pc pc' : WorkerPc N V} (h : LocalMove dfg s w pc pc') :
    pc'.Typed dfg.graph := by
  cases h with
  | start hterm => exact typed_enter dfg _ 0 0
  | skip v hge => exact typed_next dfg _ v
  | returned v i data => exact typed_afterExec dfg _ v i
  | unsunk v i data result todo hne hk => exact typed_afterSink _ _ _ _
  | _ => trivial

theorem ClientMove.typed {c : C} {a : Action W C V} {pc : ClientPc G N W V} {m : Option C}
    (h : ClientMove dfg s c a pc m) : pc.Typed dfg.graph := by
  cases h with
  | term hc => exact typed_termNext dfg _
  | joined groups hc => exact typed_termNext dfg groups
  | _ => trivial

theorem Typed.push [DecidableEq N] {graph : Graph G N} (hT : Typed graph s) {q : NodeQueue N}
    {d : GraphData V} (hd : Fits graph q d) : Typed graph (s.push q d) := by
  refine ⟨forall_update (P := fun q (l : List (GraphData V)) => ∀ data ∈ l, Fits graph q data)
    hT.queue fun x hx => ?_, hT.worker, hT.client⟩
  rcases List.mem_append.mp hx with hx | hx
  · exact hT.queue q x hx
  · rw [List.mem_singleton.mp hx]
    exact hd

theorem Typed.goto [DecidableEq W] {graph : Graph G N} (hT : Typed graph s) {w : W}
    {pc : WorkerPc N V} (hw : s'.worker = Function.update s.worker w pc)
    (hq : s'.queue = s.queue) (hc : s'.client = s.client) (hpc : pc.Typed graph) :
    Typed graph s' := by
  refine ⟨fun q => ?_, ?_, fun c => ?_⟩
  · rw [hq]
    exact hT.queue q
  · rw [hw]
    exact forall_update (P := fun _ pc => WorkerPc.Typed graph pc) hT.worker hpc
  · rw [hc]
    exact hT.client c

theorem Typed.clientGoto [DecidableEq C] {graph : Graph G N} (hT : Typed graph s) {c : C}
    {pc : ClientPc G N W V} (hc : s'.client = Function.update s.client c pc)
    (hq : s'.queue = s.queue) (hw : s'.worker = s.worker) (hpc : pc.Typed graph) :
    Typed graph s' := by
  refine ⟨fun q => ?_, fun w => ?_, ?_⟩
  · rw [hq]
    exact hT.queue q
  · rw [hw]
    exact hT.worker w
  · rw [hc]
    exact forall_update (P := fun _ pc => ClientPc.Typed graph pc) hT.client hpc

variable [DecidableEq G] [DecidableEq N] [DecidableEq W] [DecidableEq C] [DecidableEq V]

theorem Effect.typed {a : Action W C V} (h : Effect dfg s a s') (hT : Typed dfg.graph s) :
    Typed dfg.graph s' := by
  cases h with
  | move w results pc hmove => exact hT.goto rfl rfl rfl hmove.typed
  | acquire w results hpc hsem => exact hT.goto rfl rfl rfl trivial
  | enter w results v hpc hlt => exact hT.goto rfl rfl rfl trivial
  | refuse w results v hpc hge => exact hT.goto rfl rfl rfl trivial
  | leave w results v hpc => exact hT.goto rfl rfl rfl (typed_next dfg _ v)
  | pop w results v i type types data rest hpc hq =>
    refine ⟨forall_update
      (P := fun q (l : List (GraphData V)) => ∀ data ∈ l, Fits dfg.graph q data)
      hT.queue fun d hd => ?_,
      forall_update (P := fun _ pc => WorkerPc.Typed dfg.graph pc) hT.worker trivial, hT.client⟩
    exact hT.queue _ d (by rw [hq]; exact List.mem_cons_of_mem _ hd)
  | exec w results v i data hpc => exact hT.goto rfl rfl rfl trivial
  | sink w results v i data result todo k hpc hne hk => exact hT.goto rfl rfl rfl trivial
  | notify w results v i data result todo hpc =>
    refine ⟨hT.queue, forall_update (P := fun _ pc => WorkerPc.Typed dfg.graph pc) hT.worker
      (typed_afterSink _ _ _ _), fun c => ?_⟩
    show (if s.client c = .blocked then .relock else s.client c : ClientPc G N W V).Typed dfg.graph
    split
    · trivial
    · exact hT.client c
  | push w results v i data result q queues nodes todo hpc =>
    have htyped := hT.worker w
    rw [hpc] at htyped
    obtain ⟨htype, hinput, -⟩ := htyped q List.mem_cons_self
    exact (hT.push ⟨htype.symm, hinput⟩).goto rfl rfl rfl
      fun q' hq' => htyped q' (List.mem_cons_of_mem _ hq')
  | release w results v i data n nodes todo hpc => exact hT.goto rfl rfl rfl trivial
  | receive c data hpc =>
    refine hT.clientGoto rfl rfl rfl (typed_pushNext dfg.graph fun m hm => ?_)
    cases hinputs : dfg.graph.inputs data.type with
    | none =>
      rw [hinputs] at hm
      cases hm
    | some nodes =>
      rw [hinputs] at hm
      exact dfg.graph.mem_inputs data.type nodes hinputs m hm
  | enqueue c data n rest hpc =>
    have htyped := hT.client c
    rw [hpc] at htyped
    exact (hT.push (q := (n, data.type)) ⟨rfl, htyped n List.mem_cons_self⟩).clientGoto rfl rfl rfl
      fun m hm => htyped m (List.mem_cons_of_mem _ hm)
  | clientRelease c data n rest hpc =>
    have htyped := hT.client c
    rw [hpc] at htyped
    exact hT.clientGoto rfl rfl rfl (typed_pushNext dfg.graph htyped)
  | take c result rest hpc hq => exact hT.clientGoto rfl rfl rfl trivial
  | termStore c w rest g groups hpc => exact hT.clientGoto rfl rfl rfl trivial
  | termRelease c g groups hpc => exact hT.clientGoto rfl rfl rfl trivial
  | client c a pc m hmove => exact hT.clientGoto rfl rfl rfl hmove.typed

/-- **A queue holds data of its own type only**, and only the queues of the inputs of a node
hold data. -/
theorem typed_of_reaches {ok : State G N W C V → Action W C V → Prop}
    (hs : (system dfg C V).Reaches ok s) : Typed dfg.graph s := by
  refine hs.invariant (I := fun s => Typed dfg.graph s) ?_ fun s a s' _ hT _ h =>
    (effect_of_step h).typed hT
  rintro s rfl
  exact ⟨fun q data hdata => absurd hdata (by simp [initial]), fun w => trivial, fun c => trivial⟩

end Dfg
end ThreadUtils
