import Mathlib.Algebra.BigOperators.Group.Finset.Basic
import Mathlib.Algebra.Group.Prod
import Mathlib.Algebra.Order.Group.Multiset
import ThreadUtils.Dfg.Tokens
import ThreadUtils.Transition.Balance

/-!
# One copy for each receiver

A call of `tu_result` goes through two sets of an output: it pushes the result to the queues, and
then releases a permit for each node.  Here the calls and what they do are read off the steps of a
run, and brought to account: what has been pushed and released, together with what the calls that
have not returned are still to push and to release, is what all calls were to push and to release.

## The account

Both sides are pairs of a bag of pushes and a bag of nodes, a `Share`.  A worker or a client in the
middle of a call has a share that is not sent yet, read off its program counter, and a step moves
something from there to what was sent, or adds the share of a call that begins.  So one equation for
a step (`Effect.unsent`) gives the one for a run by adding up (`balance_of_path`), whatever the
calls of the other threads do in between.

What a given receiver gets is a homomorphism from the shares to bags or numbers (`Share.copies`,
`Share.pushesTo`, `Share.permits`), and is applied to the whole equation at the end.  Only here it
matters that the sets of an output have no element twice (`Graph.Simple`).

* `oneCopy_of_path` --- the copies and the permits of a run, up to the calls under way.
* `OneCopy.exact` --- they are exact between the calls.
-/

namespace ThreadUtils
namespace Dfg

open TransitionSystem

variable {G N W C V : Type*}

/-! ## What a step is -/

/-- The call of `tu_result` that a worker is about to make, with a pointer that is not null. -/
def WorkerPc.results : WorkerPc N V → List (N × GraphData V)
  | .exec v _ _ (.run (⟨some x, type⟩ :: _)) => [(v.node, ⟨some x, type⟩)]
  | _ => []

/-- The push of a worker. -/
def WorkerPc.pushes : WorkerPc N V → List (NodeQueue N × GraphData V)
  | .exec _ _ _ (.push result (q :: _) _ _) => [(q, result)]
  | _ => []

/-- The node that a worker releases a permit for. -/
def WorkerPc.releases : WorkerPc N V → List N
  | .exec _ _ _ (.release (n :: _) _) => [n]
  | _ => []

/-- The push of a client. -/
def ClientPc.pushes : ClientPc G N W V → List (NodeQueue N × GraphData V)
  | .enqueue data n _ => [((n, data.type), data)]
  | _ => []

/-- The node that a client releases a permit for. -/
def ClientPc.releases : ClientPc G N W V → List N
  | .release _ n _ => [n]
  | _ => []

/-- The call of `tu_result` that begins with a step. -/
def results (t : Transition (State G N W C V) (Action W C V)) : List (N × GraphData V) :=
  match t.action with
  | .worker w _ => (t.source.worker w).results
  | _ => []

/-- The call of `tu_dfg_push_data` that begins with a step. -/
def accepts (t : Transition (State G N W C V) (Action W C V)) : List (GraphData V) :=
  match t.action with
  | .pushData _ data => [data]
  | _ => []

/-- `queue.push(data)`. -/
def pushes (t : Transition (State G N W C V) (Action W C V)) :
    List (NodeQueue N × GraphData V) :=
  match t.action with
  | .worker w _ => (t.source.worker w).pushes
  | .client c => (t.source.client c).pushes
  | _ => []

/-- `tu_internal_node_notify_workers`. -/
def releases (t : Transition (State G N W C V) (Action W C V)) : List N :=
  match t.action with
  | .worker w _ => (t.source.worker w).releases
  | .client c => (t.source.client c).releases
  | _ => []

/-! ## The account -/

/-- Pushes, and nodes for which a permit is released. -/
abbrev Share (N V : Type*) := Multiset (NodeQueue N × GraphData V) × Multiset N

/-- The nodes of an output. -/
def Graph.successors (graph : Graph G N) (n : N) (type : TypeId) : List N :=
  match (graph.node n).outputs type with
  | some output => output.nodes
  | none => []

/-- `graph->inputs[type]`. -/
def Graph.inputNodes (graph : Graph G N) (type : TypeId) : List N :=
  (graph.inputs type).getD []

/-- What a call of `tu_result` does. -/
def Graph.ofResult (graph : Graph G N) (n : N) (result : GraphData V) : Share N V :=
  ((graph.queuesOf n result.type).map fun q => (q, result), graph.successors n result.type)

/-- What `tu_dfg_push_data` does to the remaining input nodes. -/
def ofInputs (data : GraphData V) (nodes : List N) : Share N V :=
  (nodes.map fun n => ((n, data.type), data), nodes)

/-- What the call of `tu_result` on a worker is still to do. -/
def WorkerPc.unsent (graph : Graph G N) : WorkerPc N V → Share N V
  | .exec v _ _ (.notify result _) => graph.ofResult v.node result
  | .exec _ _ _ (.push result queues nodes _) => (queues.map fun q => (q, result), nodes)
  | .exec _ _ _ (.release nodes _) => (0, nodes)
  | _ => 0

/-- What the call of `tu_dfg_push_data` is still to do. -/
def ClientPc.unsent : ClientPc G N W V → Share N V
  | .enqueue data n rest => ofInputs data (n :: rest)
  | .release data n rest => (0, {n}) + ofInputs data rest
  | _ => 0

/-- What the calls that have not returned are still to do. -/
def State.unsent [Fintype W] [Fintype C] (graph : Graph G N) (s : State G N W C V) : Share N V :=
  (∑ w, (s.worker w).unsent graph) + ∑ c, (s.client c).unsent

/-- What a step pushes and releases. -/
def sent (t : Transition (State G N W C V) (Action W C V)) : Share N V :=
  (pushes t, releases t)

/-- What the call that begins with a step is to push and to release. -/
def due (graph : Graph G N) (t : Transition (State G N W C V) (Action W C V)) : Share N V :=
  ((results t).map fun call => graph.ofResult call.1 call.2).sum +
    ((accepts t).map fun data => ofInputs data (graph.inputNodes data.type)).sum

/-! ## One step -/

theorem unsent_afterSink (graph : Graph G N) (v : Visit N) (i : ℕ) (data result : GraphData V)
    (todo : List (GraphData V)) :
    (WorkerPc.exec v i data (graph.afterSink v.node result todo)).unsent graph =
      graph.ofResult v.node result := by
  rw [Graph.afterSink, Graph.ofResult, Graph.queuesOf, Graph.successors]
  split
  · next output hout =>
    rw [hout]
    rfl
  · next hout =>
    rw [hout]
    rfl

/-- Outside of an execution nothing is sent. -/
theorem unsent_of_not_processing (graph : Graph G N) {pc : WorkerPc N V}
    (h : pc.processing = none) : pc.unsent graph = 0 := by
  cases pc with
  | exec v i data e => cases h
  | _ => rfl

theorem unsent_afterExec (dfg : Runner G N W) (g : G) (v : Visit N) (i : ℕ) :
    (dfg.afterExec g v i : WorkerPc N V).unsent dfg.graph = 0 := by
  unfold Runner.afterExec
  split
  · rfl
  · split <;> rfl

theorem unsent_pushNext (data : GraphData V) (rest : List N) :
    (pushNext data rest : ClientPc G N W V).unsent = ofInputs data rest := by
  cases rest <;> rfl

theorem unsent_termNext (dfg : Runner G N W) (groups : List G) :
    (dfg.termNext groups : ClientPc G N W V).unsent = 0 := by
  cases groups <;> rfl

/-- The result that a worker passes to `tu_result`. -/
theorem results_of_ne (v : Visit N) (i : ℕ) (data : GraphData V) {result : GraphData V}
    (todo : List (GraphData V)) (hne : result.data ≠ none) :
    (WorkerPc.exec v i data (.run (result :: todo))).results = [(v.node, result)] := by
  obtain ⟨ptr, type⟩ := result
  cases ptr with
  | none => exact absurd rfl hne
  | some x => rfl

theorem results_of_eq (v : Visit N) (i : ℕ) (data : GraphData V) {result : GraphData V}
    (todo : List (GraphData V)) (hnull : result.data = none) :
    (WorkerPc.exec v i data (.run (result :: todo))).results = [] := by
  obtain ⟨ptr, type⟩ := result
  obtain rfl := hnull
  rfl

/-- What the call of `tu_result` on a worker is to do, when it begins. -/
def WorkerPc.due (graph : Graph G N) (pc : WorkerPc N V) : Share N V :=
  (pc.results.map fun call => graph.ofResult call.1 call.2).sum

/-- What the next access of a worker pushes and releases. -/
def WorkerPc.sent (pc : WorkerPc N V) : Share N V :=
  (pc.pushes, pc.releases)

/-- What the next access of a client pushes and releases. -/
def ClientPc.sent (pc : ClientPc G N W V) : Share N V :=
  (pc.pushes, pc.releases)

/-- The account of a worker that goes on from `pc` to `pc'`. -/
def WorkerPc.Balanced (graph : Graph G N) (pc pc' : WorkerPc N V) : Prop :=
  pc.sent + pc'.unsent graph = pc.due graph + pc.unsent graph

/-- The account of a client that goes on from `pc` to `pc'`, in or into a call that is to send
`due`. -/
def ClientPc.Balanced (pc pc' : ClientPc G N W V) (due : Share N V) : Prop :=
  pc.sent + pc'.unsent = due + pc.unsent

variable {dfg : Runner G N W} {s s' : State G N W C V}

theorem LocalMove.balanced {w : W} {pc pc' : WorkerPc N V} (h : LocalMove dfg s w pc pc') :
    pc.Balanced dfg.graph pc' := by
  cases h with
  | start hterm =>
    rw [WorkerPc.Balanced, unsent_of_not_processing dfg.graph
      (processing_of_counted (counted_enter dfg (dfg.group w) 0 0))]
    rfl
  | skip v hge =>
    rw [WorkerPc.Balanced, unsent_of_not_processing dfg.graph
      (processing_of_counted (counted_next dfg (dfg.group w) v))]
    rfl
  | returned v i data =>
    rw [WorkerPc.Balanced, unsent_afterExec]
    rfl
  | null v i data result todo hnull =>
    rw [WorkerPc.Balanced, WorkerPc.due, results_of_eq v i data todo hnull]
    rfl
  | unsunk v i data result todo hne hk =>
    rw [WorkerPc.Balanced, WorkerPc.due, results_of_ne v i data todo hne, unsent_afterSink,
      List.map_singleton, List.sum_singleton]
    exact add_comm (0 : Share N V) _
  | _ => rfl

theorem ClientMove.balanced {c : C} {a : Action W C V} {pc : ClientPc G N W V} {m : Option C}
    (h : ClientMove dfg s c a pc m) (t : State G N W C V) : (s.client c).Balanced pc 0 ∧
      sent ⟨s, a, t⟩ = (s.client c).sent ∧ due dfg.graph ⟨s, a, t⟩ = 0 := by
  cases h with
  | lock hc hm => rcases hc with hc | hc <;> exact ⟨by rw [hc]; rfl, rfl, rfl⟩
  | term hc =>
    refine ⟨?_, by rw [hc]; rfl, rfl⟩
    rw [hc, ClientPc.Balanced, unsent_termNext]
    rfl
  | joined groups hc =>
    refine ⟨?_, rfl, rfl⟩
    rw [hc, ClientPc.Balanced, unsent_termNext]
    rfl
  | call hc | wake hc => exact ⟨by rw [hc]; rfl, by rw [hc]; rfl, rfl⟩
  | empty hc hq | block hc | unlock result hc | stored g groups hc
  | join w rest groups hc hw => exact ⟨by rw [hc]; rfl, rfl, rfl⟩

section Threads

variable [Fintype W] [Fintype C]

theorem unsent_worker [DecidableEq W] {graph : Graph G N} {w : W} {pc : WorkerPc N V}
    (hw : s'.worker = Function.update s.worker w pc)
    (hc : ∀ c, (s'.client c).unsent = (s.client c).unsent)
    (hpc : (s.worker w).Balanced graph pc) :
    (s.worker w).sent + s'.unsent graph =
      (s.worker w).due graph + s.unsent graph := by
  have hsum := sum_update_exchange (WorkerPc.unsent graph) s.worker w pc
  unfold WorkerPc.Balanced at hpc
  rw [State.unsent, State.unsent, hw, Finset.sum_congr rfl fun c _ => hc c]
  refine add_right_cancel (b := (s.worker w).unsent graph) ?_
  calc _ = (s.worker w).sent +
        ((∑ w', (Function.update s.worker w pc w').unsent graph) + (s.worker w).unsent graph) +
        ∑ c, (s.client c).unsent := by abel
    _ = ((s.worker w).sent + pc.unsent graph) +
        (∑ w', (s.worker w').unsent graph) + ∑ c, (s.client c).unsent := by
        rw [hsum]
        abel
    _ = _ := by
        rw [hpc]
        abel

theorem unsent_client [DecidableEq C] {graph : Graph G N} {c : C} {pc : ClientPc G N W V}
    {entered : Share N V} (hc : s'.client = Function.update s.client c pc)
    (hw : s'.worker = s.worker) (hpc : (s.client c).Balanced pc entered) :
    (s.client c).sent + s'.unsent graph =
      entered + s.unsent graph := by
  have hsum := sum_update_exchange ClientPc.unsent s.client c pc
  unfold ClientPc.Balanced at hpc
  rw [State.unsent, State.unsent, hw, hc]
  refine add_right_cancel (b := (s.client c).unsent) ?_
  calc _ = (s.client c).sent +
        ((∑ c', (Function.update s.client c pc c').unsent) + (s.client c).unsent) +
        ∑ w, (s.worker w).unsent graph := by abel
    _ = ((s.client c).sent + pc.unsent) +
        (∑ c', (s.client c').unsent) + ∑ w, (s.worker w).unsent graph := by
        rw [hsum]
        abel
    _ = _ := by
        rw [hpc]
        abel

variable [DecidableEq G] [DecidableEq N] [DecidableEq W] [DecidableEq C] [DecidableEq V]

/-- **The account of a step.** -/
theorem Effect.unsent {a : Action W C V} (h : Effect dfg s a s') :
    sent ⟨s, a, s'⟩ + s'.unsent dfg.graph = due dfg.graph ⟨s, a, s'⟩ + s.unsent dfg.graph := by
  have hworker : ∀ {w : W} {results : List (GraphData V)} {t : State G N W C V} {pc : WorkerPc N V},
      t.worker = Function.update s.worker w pc → (∀ c, (t.client c).unsent = (s.client c).unsent) →
      (s.worker w).Balanced dfg.graph pc →
      sent ⟨s, .worker w results, t⟩ + t.unsent dfg.graph =
        due dfg.graph ⟨s, .worker w results, t⟩ + s.unsent dfg.graph := by
    intro w results t pc hw hc hpc
    exact (unsent_worker hw hc hpc).trans (congrArg (· + _) (add_zero _).symm)
  have hclient : ∀ {c : C} {t : State G N W C V} {pc : ClientPc G N W V},
      t.client = Function.update s.client c pc → t.worker = s.worker →
      (s.client c).Balanced pc 0 →
      sent ⟨s, .client c, t⟩ + t.unsent dfg.graph =
        due dfg.graph ⟨s, .client c, t⟩ + s.unsent dfg.graph := by
    intro c t pc hc hw hpc
    exact unsent_client hc hw hpc
  cases h with
  | move w results pc hmove => exact hworker rfl (fun _ => rfl) hmove.balanced
  | acquire w results hpc hsem =>
    exact hworker rfl (fun _ => rfl) (by rw [hpc]; rfl)
  | enter w results v hpc hlt =>
    exact hworker rfl (fun _ => rfl) (by rw [hpc]; rfl)
  | refuse w results v hpc hge =>
    exact hworker rfl (fun _ => rfl) (by rw [hpc]; rfl)
  | leave w results v hpc =>
    refine hworker rfl (fun _ => rfl) ?_
    rw [hpc, WorkerPc.Balanced, unsent_of_not_processing dfg.graph
      (processing_of_counted (counted_next dfg (dfg.group w) v))]
    rfl
  | pop w results v i type types data rest hpc hq =>
    exact hworker rfl (fun _ => rfl) (by rw [hpc]; rfl)
  | exec w results v i data hpc =>
    exact hworker rfl (fun _ => rfl) (by rw [hpc]; rfl)
  | sink w results v i data result todo k hpc hne hk =>
    refine hworker rfl (fun _ => rfl) ?_
    rw [hpc, WorkerPc.Balanced, WorkerPc.due, results_of_ne v i data todo hne,
      List.map_singleton, List.sum_singleton]
    exact add_comm (0 : Share N V) _
  | notify w results v i data result todo hpc =>
    refine hworker rfl (fun c => ?_) ?_
    · show (if s.client c = .blocked then ClientPc.relock else s.client c).unsent = _
      split
      · next hblocked =>
        rw [hblocked]
        rfl
      · rfl
    · rw [hpc, WorkerPc.Balanced, unsent_afterSink]
      rfl
  | push w results v i data result q queues nodes todo hpc =>
    refine hworker rfl (fun _ => rfl) ?_
    rw [hpc]
    exact Prod.ext (by simp [WorkerPc.sent, WorkerPc.pushes, WorkerPc.unsent, WorkerPc.due,
      WorkerPc.results]) rfl
  | release w results v i data n nodes todo hpc =>
    refine hworker rfl (fun _ => rfl) ?_
    rw [hpc]
    exact Prod.ext rfl (by simp [WorkerPc.sent, WorkerPc.releases, WorkerPc.unsent, WorkerPc.due,
      WorkerPc.results])
  | receive c data hpc =>
    have hbalanced : (s.client c).Balanced (pushNext data (dfg.graph.inputNodes data.type))
        (ofInputs data (dfg.graph.inputNodes data.type)) := by
      rw [hpc, ClientPc.Balanced, unsent_pushNext]
      exact add_comm (0 : Share N V) _
    have hstep : (s.client c).sent + State.unsent dfg.graph
        { s.clientGoto c (pushNext data (dfg.graph.inputNodes data.type)) with
          received := s.received ++ [data] } =
        ofInputs data (dfg.graph.inputNodes data.type) + s.unsent dfg.graph :=
      unsent_client rfl rfl hbalanced
    rw [hpc] at hstep
    refine hstep.trans (congrArg (· + _) ?_)
    simp [due, results, accepts]
  | enqueue c data n rest hpc =>
    refine hclient rfl rfl ?_
    rw [hpc]
    exact Prod.ext (by simp [ClientPc.sent, ClientPc.pushes, ClientPc.unsent, ofInputs])
      (by simp [ClientPc.sent, ClientPc.releases, ClientPc.unsent, ofInputs])
  | clientRelease c data n rest hpc =>
    refine hclient rfl rfl ?_
    rw [hpc, ClientPc.Balanced, unsent_pushNext, zero_add]
    rfl
  | take c result rest hpc hq => exact hclient rfl rfl (by rw [hpc]; rfl)
  | termStore c w rest g groups hpc => exact hclient rfl rfl (by rw [hpc]; rfl)
  | termRelease c g groups hpc => exact hclient rfl rfl (by rw [hpc]; rfl)
  | client c a pc m hmove =>
    obtain ⟨hbalanced, hsent, hdue⟩ := hmove.balanced { s.clientGoto c pc with mutex := m }
    rw [hsent, hdue]
    exact unsent_client rfl rfl hbalanced

omit [DecidableEq G] [DecidableEq N] [DecidableEq W] [DecidableEq C] [DecidableEq V] in
theorem unsent_initial (graph : Graph G N) : (initial : State G N W C V).unsent graph = 0 := by
  have hworker : ∑ w : W, ((initial : State G N W C V).worker w).unsent graph = 0 :=
    Finset.sum_eq_zero fun w _ => rfl
  have hclient : ∑ c : C, ((initial : State G N W C V).client c).unsent = 0 :=
    Finset.sum_eq_zero fun c _ => rfl
  rw [State.unsent, hworker, hclient, add_zero]

/-- **The account of a run.** -/
theorem balance_of_path {ok : State G N W C V → Action W C V → Prop}
    {trace : List (Transition (State G N W C V) (Action W C V))}
    (p : (system dfg C V).Path ok initial trace s) :
    total sent trace + s.unsent dfg.graph = total (due dfg.graph) trace :=
  p.balance (due dfg.graph) sent (State.unsent dfg.graph) (unsent_initial dfg.graph)
    fun _ _ _ _ h => (effect_of_step h).unsent

end Threads

/-! ## The account of a receiver -/

/-- The sets of an output and of an input have no element twice. -/
structure Graph.Simple (graph : Graph G N) : Prop where
  nodes : ∀ n type output, (graph.node n).outputs type = some output → output.nodes.Nodup
  queues : ∀ n type output, (graph.node n).outputs type = some output → output.queues.Nodup
  inputs : ∀ type nodes, graph.inputs type = some nodes → nodes.Nodup

theorem Graph.Simple.nodup_queuesOf {graph : Graph G N} (h : graph.Simple) (n : N)
    (type : TypeId) : (graph.queuesOf n type).Nodup := by
  unfold Graph.queuesOf
  split
  · next output hout => exact h.queues n type output hout
  · exact List.nodup_nil

theorem Graph.Simple.nodup_successors {graph : Graph G N} (h : graph.Simple) (n : N)
    (type : TypeId) : (graph.successors n type).Nodup := by
  unfold Graph.successors
  split
  · next output hout => exact h.nodes n type output hout
  · exact List.nodup_nil

theorem Graph.Simple.nodup_inputNodes {graph : Graph G N} (h : graph.Simple) (type : TypeId) :
    (graph.inputNodes type).Nodup := by
  unfold Graph.inputNodes
  cases hinputs : graph.inputs type with
  | none => exact List.nodup_nil
  | some nodes => exact h.inputs type nodes hinputs

/-- The queues of an output are the ones of its nodes. -/
theorem Graph.mem_queuesOf {graph : Graph G N} {n : N} {type : TypeId} {q : NodeQueue N} :
    q ∈ graph.queuesOf n type ↔ q.1 ∈ graph.successors n type ∧ q.2 = type := by
  rw [Graph.queuesOf, Graph.successors]
  cases (graph.node n).outputs type with
  | some output => exact output.mem_queues q
  | none => exact iff_of_false List.not_mem_nil fun h => List.not_mem_nil h.1

variable [DecidableEq N]

/-- The data that are pushed to a queue. -/
def Share.copies (q : NodeQueue N) : Share N V →+ Multiset (GraphData V) where
  toFun x := (x.1.filter fun y => y.1 = q).map Prod.snd
  map_zero' := rfl
  map_add' x y := by rw [Prod.fst_add, Multiset.filter_add, Multiset.map_add]

/-- The number of pushes to the queues of a node. -/
def Share.pushesTo (n : N) : Share N V →+ ℕ where
  toFun x := x.1.countP fun y => y.1.1 = n
  map_zero' := rfl
  map_add' x y := by rw [Prod.fst_add, Multiset.countP_add]

/-- The number of permits for a node. -/
def Share.permits (n : N) : Share N V →+ ℕ where
  toFun x := x.2.count n
  map_zero' := rfl
  map_add' x y := by rw [Prod.snd_add, Multiset.count_add]

theorem pushesTo_coe (l : List (NodeQueue N × GraphData V)) (l' : List N) (n : N) :
    Share.pushesTo n ((l, l') : Share N V) = l.countP fun y => y.1.1 = n :=
  Multiset.coe_countP _ l

theorem permits_coe (l : List (NodeQueue N × GraphData V)) (l' : List N) (n : N) :
    Share.permits n ((l, l') : Share N V) = l'.count n :=
  Multiset.coe_count n l'

/-- The copies of one datum. -/
theorem copies_map_pair (q : NodeQueue N) (d : GraphData V) (l : List (NodeQueue N)) :
    ((l.map fun q' => (q', d)).filter fun y => y.1 = q).map Prod.snd =
      List.replicate (l.count q) d := by
  induction l with
  | nil => rfl
  | cons q' l ih =>
    rw [List.map_cons, List.filter_cons, List.count_cons]
    by_cases h : q' = q
    · simp [h, ih, List.replicate_succ]
    · simp [h, ih]

/-- **A call of `tu_result` makes one copy** for each queue of the output. -/
theorem copies_ofResult {graph : Graph G N} (h : graph.Simple) (n m : N) (type : TypeId)
    (result : GraphData V) : Share.copies (m, type) (graph.ofResult n result) =
      if result.type = type ∧ m ∈ graph.successors n type then {result} else 0 := by
  have hlist := copies_map_pair (m, type) result (graph.queuesOf n result.type)
  refine (congrArg Multiset.ofList hlist).trans ?_
  rw [(h.nodup_queuesOf n result.type).count]
  by_cases htype : result.type = type
  · subst htype
    simp only [Graph.mem_queuesOf, and_true, true_and]
    split <;> rfl
  · simp [Graph.mem_queuesOf, htype, Ne.symm htype]

/-- A call of `tu_dfg_push_data` makes one copy for each input node. -/
theorem copies_ofInputs {nodes : List N} (h : nodes.Nodup) (m : N) (type : TypeId)
    (data : GraphData V) : Share.copies (m, type) (ofInputs data nodes) =
      if data.type = type ∧ m ∈ nodes then {data} else 0 := by
  have hlist := copies_map_pair (m, type) data (nodes.map fun n => (n, data.type))
  rw [List.map_map] at hlist
  refine (congrArg Multiset.ofList hlist).trans ?_
  by_cases htype : data.type = type
  · subst htype
    rw [List.count_map_of_injective nodes (fun n => (n, data.type))
      (fun a b heq => (Prod.ext_iff.mp heq).1) m, h.count]
    simp only [true_and]
    split <;> rfl
  · rw [List.count_eq_zero_of_not_mem, if_neg fun hand => htype hand.1]
    · rfl
    · intro hmem
      obtain ⟨n, -, heq⟩ := List.mem_map.mp hmem
      exact htype (Prod.ext_iff.mp heq).2

/-- **A call of `tu_result` releases a permit** for each of its pushes. -/
theorem permits_ofResult {graph : Graph G N} (h : graph.Simple) (n m : N) (result : GraphData V) :
    Share.permits m (graph.ofResult n result) = Share.pushesTo m (graph.ofResult n result) := by
  have hperm : ((graph.queuesOf n result.type).map Prod.fst).Perm
      (graph.successors n result.type) := by
    refine (List.perm_ext_iff_of_nodup ?_ (h.nodup_successors n result.type)).mpr fun m => ?_
    · refine (h.nodup_queuesOf n result.type).map_on fun q hq q' hq' heq => Prod.ext heq ?_
      rw [(Graph.mem_queuesOf.mp hq).2, (Graph.mem_queuesOf.mp hq').2]
    · rw [List.mem_map]
      constructor
      · rintro ⟨q, hq, rfl⟩
        exact (Graph.mem_queuesOf.mp hq).1
      · exact fun hm => ⟨(m, result.type), Graph.mem_queuesOf.mpr ⟨hm, rfl⟩, rfl⟩
  have hcount : (graph.successors n result.type).count m =
      ((graph.queuesOf n result.type).map fun q => (q, result)).countP fun y => y.1.1 = m := by
    rw [← hperm.count_eq, List.count, List.countP_map, List.countP_map]
    exact List.countP_congr fun q _ => by
      simp only [Function.comp_apply, beq_iff_eq, decide_eq_true_eq]
  exact (Multiset.coe_count _ _).trans (hcount.trans (Multiset.coe_countP _ _).symm)

theorem permits_ofInputs (m : N) (data : GraphData V) (nodes : List N) :
    Share.permits m (ofInputs data nodes) = Share.pushesTo m (ofInputs data nodes) := by
  have hcount : nodes.count m =
      (nodes.map fun n => ((n, data.type), data)).countP fun y => y.1.1 = m := by
    rw [List.count, List.countP_map]
    exact List.countP_congr fun q _ => by
      simp only [Function.comp_apply, beq_iff_eq, decide_eq_true_eq]
  exact (Multiset.coe_count _ _).trans (hcount.trans (Multiset.coe_countP _ _).symm)

/-! ## The account of a run -/

omit [DecidableEq N] in
theorem total_sent (trace : List (Transition (State G N W C V) (Action W C V))) :
    total sent trace = ((trace.flatMap pushes, trace.flatMap releases) : Share N V) := by
  induction trace with
  | nil => rfl
  | cons t trace ih =>
    rw [List.flatMap_cons, List.flatMap_cons, ← Multiset.coe_add, ← Multiset.coe_add,
      ← Prod.mk_add_mk, ← ih]
    rfl

omit [DecidableEq N] in
theorem total_due (graph : Graph G N)
    (trace : List (Transition (State G N W C V) (Action W C V))) :
    total (due graph) trace =
      ((trace.flatMap results).map fun call => graph.ofResult call.1 call.2).sum +
        ((trace.flatMap accepts).map fun data =>
          ofInputs data (graph.inputNodes data.type)).sum := by
  induction trace with
  | nil => exact (add_zero 0).symm
  | cons t trace ih =>
    have hcons : total (due graph) (t :: trace) = due graph t + total (due graph) trace := rfl
    rw [hcons, ih, due, List.flatMap_cons, List.flatMap_cons, List.map_append, List.map_append,
      List.sum_append, List.sum_append]
    abel

/-- A sum of conditional singletons is a filtered list. -/
theorem sum_map_ite {α β : Type*} (P : α → Prop) [DecidablePred P] (f : α → β) (l : List α) :
    (l.map fun a => if P a then ({f a} : Multiset β) else 0).sum =
      ((l.filter fun a => P a).map f : List β) := by
  induction l with
  | nil => rfl
  | cons a l ih =>
    rw [List.map_cons, List.sum_cons, ih, List.filter_cons]
    by_cases h : P a
    · rw [if_pos h, if_pos (decide_eq_true h)]
      rfl
    · rw [if_neg h, if_neg (by simpa using h), zero_add]

/-- What the calls of a run send to a receiver: one copy for each call of a sender that is
connected to it, and of `tu_dfg_push_data` if it is an input node. -/
def Graph.copiesOf (graph : Graph G N)
    (trace : List (Transition (State G N W C V) (Action W C V))) (n : N) (type : TypeId) :
    Multiset (GraphData V) :=
  (((trace.flatMap results).filter fun call =>
      call.2.type = type ∧ n ∈ graph.successors call.1 type).map Prod.snd : List (GraphData V)) +
    ((trace.flatMap accepts).filter fun data =>
      data.type = type ∧ n ∈ graph.inputNodes type : List (GraphData V))

theorem copies_due {graph : Graph G N} (h : graph.Simple)
    (trace : List (Transition (State G N W C V) (Action W C V))) (n : N) (type : TypeId) :
    Share.copies (n, type) (total (due graph) trace) = graph.copiesOf trace n type := by
  have hresults : ((trace.flatMap results).map fun call =>
      Share.copies (n, type) (graph.ofResult call.1 call.2)).sum =
      (((trace.flatMap results).filter fun call => call.2.type = type ∧
        n ∈ graph.successors call.1 type).map Prod.snd : List (GraphData V)) := by
    rw [← sum_map_ite]
    exact congrArg List.sum
      (List.map_congr_left fun call _ => copies_ofResult h call.1 n type call.2)
  have haccepts : ((trace.flatMap accepts).map fun data =>
      Share.copies (n, type) (ofInputs data (graph.inputNodes data.type))).sum =
      ((trace.flatMap accepts).filter fun data => data.type = type ∧
        n ∈ graph.inputNodes type : List (GraphData V)) := by
    have hsum := sum_map_ite (fun data : GraphData V => data.type = type ∧
      n ∈ graph.inputNodes type) (fun data => data) (trace.flatMap accepts)
    rw [List.map_id'] at hsum
    rw [← hsum]
    refine congrArg List.sum (List.map_congr_left fun data _ => ?_)
    rw [copies_ofInputs (h.nodup_inputNodes data.type)]
    by_cases htype : data.type = type
    · subst htype
      rfl
    · simp [htype]
  rw [total_due, map_add, map_list_sum, map_list_sum, List.map_map, List.map_map]
  exact congrArg₂ (· + ·) hresults haccepts

theorem permits_due {graph : Graph G N} (h : graph.Simple)
    (trace : List (Transition (State G N W C V) (Action W C V))) (n : N) :
    Share.permits n (total (due graph) trace) = Share.pushesTo n (total (due graph) trace) := by
  rw [total_due, map_add, map_add, map_list_sum, map_list_sum, map_list_sum, map_list_sum,
    List.map_map, List.map_map, List.map_map, List.map_map]
  refine congrArg₂ (· + ·) (congrArg List.sum (List.map_congr_left fun call _ => ?_))
    (congrArg List.sum (List.map_congr_left fun data _ => ?_))
  · exact permits_ofResult h call.1 n call.2
  · exact permits_ofInputs n data _

variable [DecidableEq G] [DecidableEq W] [DecidableEq C] [DecidableEq V]

/-- The group of a worker that returns from `sem.acquire()`. -/
def acquires (dfg : Runner G N W) (t : Transition (State G N W C V) (Action W C V)) : List G :=
  match t.action with
  | .worker w _ => if t.source.worker w = .acquire then [dfg.group w] else []
  | _ => []

/-- The permits that `tu_dfg_term` releases. -/
def termPermits (dfg : Runner G N W) (t : Transition (State G N W C V) (Action W C V)) : List G :=
  match t.action with
  | .client c =>
      match t.source.client c with
      | .termRelease g _ => List.replicate (dfg.workers g).length g
      | _ => []
  | _ => []

/-- The groups that a step releases a permit in for a node. -/
def permitGroups (dfg : Runner G N W) (t : Transition (State G N W C V) (Action W C V)) : List G :=
  (releases t).map fun n => (dfg.graph.node n).group

omit [DecidableEq N] [DecidableEq G] [DecidableEq W] [DecidableEq C] [DecidableEq V] in
theorem LocalMove.releases {w : W} {pc pc' : WorkerPc N V} (h : LocalMove dfg s w pc pc') :
    pc ≠ .acquire ∧ pc.releases = [] := by
  cases h <;> exact ⟨by simp, rfl⟩

/-- **The permits of a step.** -/
theorem Effect.permits {a : Action W C V} (h : Effect dfg s a s') (g : G) :
    (acquires dfg ⟨s, a, s'⟩).count g + s'.sem g =
      (permitGroups dfg ⟨s, a, s'⟩).count g + (termPermits dfg ⟨s, a, s'⟩).count g + s.sem g := by
  -- the other steps of a worker
  have hworker : ∀ {w : W} {results : List (GraphData V)} {t : State G N W C V},
      t.sem = s.sem → s.worker w ≠ .acquire → (s.worker w).releases = [] →
      (acquires dfg ⟨s, .worker w results, t⟩).count g + t.sem g =
        (permitGroups dfg ⟨s, .worker w results, t⟩).count g +
          (termPermits dfg ⟨s, .worker w results, t⟩).count g + s.sem g := by
    intro w results t hsem hne hreleases
    simp only [acquires, if_neg hne, permitGroups, Dfg.releases, hreleases, termPermits, hsem,
      List.map_nil]
    rfl
  -- permits are added to one group
  have hadd : ∀ (g' : G) (k : ℕ), Function.update s.sem g' (s.sem g' + k) g =
      (List.replicate k g').count g + s.sem g := by
    intro g' k
    rw [List.count_replicate]
    by_cases hg : g = g'
    · subst hg
      rw [Function.update_self, if_pos (beq_self_eq_true g), add_comm]
    · rw [Function.update_of_ne hg, if_neg (by simpa using Ne.symm hg), zero_add]
  cases h with
  | move w results pc hmove => exact hworker rfl hmove.releases.1 hmove.releases.2
  | acquire w results hpc hsem =>
    have hacquires : acquires dfg ⟨s, .worker w results, { s.goto w .checkTerminate with
        sem := Function.update s.sem (dfg.group w) (s.sem (dfg.group w) - 1) }⟩ =
        [dfg.group w] := if_pos hpc
    have hreleases : (s.worker w).releases = [] := by
      rw [hpc]
      rfl
    simp only [hacquires, permitGroups, Dfg.releases, hreleases, termPermits, List.map_nil,
      List.count_nil, zero_add]
    by_cases hg : g = dfg.group w
    · subst hg
      rw [Function.update_self, List.count_singleton_self]
      omega
    · rw [Function.update_of_ne hg, List.count_singleton, if_neg (by simpa using Ne.symm hg),
        zero_add]
  | enter w results v hpc hlt => exact hworker rfl (by rw [hpc]; simp) (by rw [hpc]; rfl)
  | refuse w results v hpc hge => exact hworker rfl (by rw [hpc]; simp) (by rw [hpc]; rfl)
  | leave w results v hpc => exact hworker rfl (by rw [hpc]; simp) (by rw [hpc]; rfl)
  | pop w results v i type types data rest hpc hq =>
    exact hworker rfl (by rw [hpc]; simp) (by rw [hpc]; rfl)
  | exec w results v i data hpc => exact hworker rfl (by rw [hpc]; simp) (by rw [hpc]; rfl)
  | sink w results v i data result todo k hpc hne hk =>
    exact hworker rfl (by rw [hpc]; simp) (by rw [hpc]; rfl)
  | notify w results v i data result todo hpc =>
    exact hworker rfl (by rw [hpc]; simp) (by rw [hpc]; rfl)
  | push w results v i data result q queues nodes todo hpc =>
    exact hworker rfl (by rw [hpc]; simp) (by rw [hpc]; rfl)
  | release w results v i data n nodes todo hpc =>
    simp only [acquires, hpc, permitGroups, Dfg.releases, WorkerPc.releases, termPermits,
      List.map_singleton, List.count_nil, reduceCtorEq, if_false, zero_add, add_zero]
    exact hadd _ 1
  | receive c data hpc => simp [acquires, permitGroups, Dfg.releases, termPermits, State.clientGoto]
  | enqueue c data n rest hpc =>
    simp [acquires, permitGroups, Dfg.releases, termPermits, hpc, ClientPc.releases,
      State.clientGoto, State.push]
  | clientRelease c data n rest hpc =>
    simp only [acquires, hpc, permitGroups, Dfg.releases, ClientPc.releases, termPermits,
      List.map_singleton, List.count_nil, zero_add, add_zero]
    exact hadd _ 1
  | take c result rest hpc hq =>
    simp [acquires, permitGroups, Dfg.releases, termPermits, hpc, ClientPc.releases,
      State.clientGoto]
  | termStore c w rest g groups hpc =>
    simp [acquires, permitGroups, Dfg.releases, termPermits, hpc, ClientPc.releases,
      State.clientGoto]
  | termRelease c g' groups hpc =>
    simp only [acquires, hpc, permitGroups, Dfg.releases, ClientPc.releases, termPermits,
      List.map_nil, List.count_nil, zero_add]
    exact hadd _ _
  | client c a pc m hmove =>
    cases hmove with
    | lock hc hm =>
      rcases hc with hc | hc <;>
        simp [acquires, permitGroups, Dfg.releases, termPermits, hc, ClientPc.releases,
          State.clientGoto]
    | call hc | wake hc | term hc =>
      simp [acquires, permitGroups, Dfg.releases, termPermits, State.clientGoto]
    | joined groups hc | empty hc hq | block hc | unlock result hc | stored g groups hc
    | join w rest groups hc hw =>
      simp [acquires, permitGroups, Dfg.releases, termPermits, hc, ClientPc.releases,
        State.clientGoto]

omit [DecidableEq N] [DecidableEq G] [DecidableEq W] [DecidableEq C] [DecidableEq V] in
theorem LocalMove.pushes {w : W} {pc pc' : WorkerPc N V} (h : LocalMove dfg s w pc pc') :
    pc.pushes = [] := by
  cases h <;> rfl

/-- **The data that a step pushes.** -/
theorem Effect.pushed {a : Action W C V} (h : Effect dfg s a s') (q : NodeQueue N) :
    s'.pushed q = s.pushed q ++ ((pushes ⟨s, a, s'⟩).filter fun y => y.1 = q).map Prod.snd := by
  -- a step without a push
  have hsame : ∀ {a : Action W C V} {t : State G N W C V}, t.pushed = s.pushed →
      pushes ⟨s, a, t⟩ = [] →
      t.pushed q = s.pushed q ++ ((pushes ⟨s, a, t⟩).filter fun y => y.1 = q).map Prod.snd := by
    intro a t hpushed hnil
    rw [hpushed, hnil]
    exact (List.append_nil _).symm
  have hpush : ∀ (q' : NodeQueue N) (d : GraphData V), (s.push q' d).pushed q =
      s.pushed q ++ (([(q', d)] : List (NodeQueue N × GraphData V)).filter
        fun y => y.1 = q).map Prod.snd := by
    intro q' d
    show Function.update s.pushed q' (s.pushed q' ++ [d]) q = _
    by_cases hq : q = q'
    · subst hq
      rw [Function.update_self, List.filter_cons, if_pos (decide_eq_true rfl)]
      rfl
    · rw [Function.update_of_ne hq, List.filter_cons, if_neg (by simpa using Ne.symm hq)]
      exact (List.append_nil _).symm
  cases h with
  | move w results pc hmove => exact hsame rfl hmove.pushes
  | push w results v i data result q' queues nodes todo hpc =>
    simp only [Dfg.pushes, hpc, WorkerPc.pushes]
    exact hpush q' result
  | enqueue c data n rest hpc =>
    simp only [Dfg.pushes, hpc, ClientPc.pushes]
    exact hpush (n, data.type) data
  | receive c data hpc => exact hsame rfl rfl
  | client c a pc m hmove =>
    refine hsame rfl ?_
    cases hmove with
    | lock hc hm => rcases hc with hc | hc <;> simp [Dfg.pushes, hc, ClientPc.pushes]
    | call hc | wake hc | term hc => rfl
    | joined groups hc | empty hc hq | block hc | unlock result hc | stored g groups hc
    | join w rest groups hc hw => simp [Dfg.pushes, hc, ClientPc.pushes]
  | acquire w results hpc | enter w results v hpc | refuse w results v hpc
  | leave w results v hpc | pop w results v i type types data rest hpc
  | exec w results v i data hpc | sink w results v i data result todo k hpc
  | notify w results v i data result todo hpc | release w results v i data n nodes todo hpc =>
    exact hsame rfl (by simp [Dfg.pushes, hpc, WorkerPc.pushes])
  | clientRelease c data n rest hpc | take c result rest hpc | termStore c w rest g groups hpc
  | termRelease c g groups hpc =>
    exact hsame rfl (by simp [Dfg.pushes, hpc, ClientPc.pushes])

/-- **One copy for each receiver**, and one permit for each copy. -/
structure OneCopy [Fintype W] [Fintype C] (dfg : Runner G N W)
    (trace : List (Transition (State G N W C V) (Action W C V))) (s : State G N W C V) : Prop where
  pushed : ∀ q, s.pushed q = ((trace.flatMap pushes).filter fun y => y.1 = q).map Prod.snd
  /-- The copies of the calls, but for those that are still to be pushed. -/
  copies : ∀ n type, (s.pushed (n, type) : Multiset (GraphData V)) +
    Share.copies (n, type) (s.unsent dfg.graph) = dfg.graph.copiesOf trace n type
  /-- The permits for a node are as many as the pushes to it, and so are those to come. -/
  permits : ∀ n, (trace.flatMap releases).count n + Share.permits n (s.unsent dfg.graph) =
    ((trace.flatMap pushes).countP fun y => y.1.1 = n) + Share.pushesTo n (s.unsent dfg.graph)
  /-- The semaphore of a group has its permits. -/
  sem : ∀ g, (trace.flatMap (acquires dfg)).count g + s.sem g =
    (trace.flatMap (permitGroups dfg)).count g + (trace.flatMap (termPermits dfg)).count g

theorem oneCopy_of_path [Fintype W] [Fintype C] (hsimple : dfg.graph.Simple)
    {ok : State G N W C V → Action W C V → Prop}
    {trace : List (Transition (State G N W C V) (Action W C V))}
    (p : (system dfg C V).Path ok initial trace s) : OneCopy dfg trace s := by
  have hpushed : ∀ q, s.pushed q =
      ((trace.flatMap pushes).filter fun y => y.1 = q).map Prod.snd := by
    intro q
    refine p.invariant (I := fun trace s => s.pushed q =
      ((trace.flatMap pushes).filter fun y => y.1 = q).map Prod.snd) rfl
      fun trace u a u' ih _ h => ?_
    rw [(effect_of_step h).pushed q, ih, List.flatMap_append, List.filter_append, List.map_append,
      List.flatMap_singleton]
  have hbalance := balance_of_path p
  rw [total_sent] at hbalance
  refine ⟨hpushed, fun n type => ?_, fun n => ?_, fun g => ?_⟩
  · have hcopies := congrArg (Share.copies (n, type)) hbalance
    rw [map_add, copies_due hsimple] at hcopies
    rw [← hcopies, hpushed]
    rfl
  · have hpermits := congrArg (Share.permits n) hbalance
    have hpushes := congrArg (Share.pushesTo n) hbalance
    rw [map_add] at hpermits hpushes
    rw [permits_due hsimple, ← hpushes] at hpermits
    rw [← permits_coe (trace.flatMap pushes), ← pushesTo_coe _ (trace.flatMap releases)]
    exact hpermits
  · have hsem := p.balance (fun t => (permitGroups dfg t).count g + (termPermits dfg t).count g)
      (fun t => (acquires dfg t).count g) (fun s => s.sem g) rfl
      fun u a u' _ h => (effect_of_step h).permits g
    rwa [total_add, total_count, total_count, total_count] at hsem

/-- No call of `tu_result` or `tu_dfg_push_data` is under way. -/
structure Returned (s : State G N W C V) : Prop where
  worker : ∀ w v i data e, s.worker w = .exec v i data e → ∃ todo, e = .run todo
  enqueue : ∀ c data n rest, s.client c ≠ .enqueue data n rest
  release : ∀ c data n rest, s.client c ≠ .release data n rest

omit [DecidableEq N] [DecidableEq G] [DecidableEq W] [DecidableEq C] [DecidableEq V] in
theorem Returned.unsent [Fintype W] [Fintype C] (hs : Returned s) (graph : Graph G N) :
    s.unsent graph = 0 := by
  have hworker : ∀ w, (s.worker w).unsent graph = 0 := by
    intro w
    cases hpc : s.worker w with
    | exec v i data e =>
      obtain ⟨todo, rfl⟩ := hs.worker w v i data e hpc
      rfl
    | _ => rfl
  have hclient : ∀ c, (s.client c).unsent = 0 := by
    intro c
    cases hpc : s.client c with
    | enqueue data n rest => exact absurd hpc (hs.enqueue c data n rest)
    | release data n rest => exact absurd hpc (hs.release c data n rest)
    | _ => rfl
  rw [State.unsent, Finset.sum_eq_zero fun w _ => hworker w,
    Finset.sum_eq_zero fun c _ => hclient c, add_zero]

omit [DecidableEq W] [DecidableEq C] in
/-- **Between the calls** the copies and the permits are exact. -/
theorem OneCopy.exact [Fintype W] [Fintype C]
    {trace : List (Transition (State G N W C V) (Action W C V))} (h : OneCopy dfg trace s)
    (hs : Returned s) :
    (∀ n type, (s.pushed (n, type) : Multiset (GraphData V)) =
      dfg.graph.copiesOf trace n type) ∧
    ∀ n, (trace.flatMap releases).count n = (trace.flatMap pushes).countP fun y => y.1.1 = n := by
  refine ⟨fun n type => ?_, fun n => ?_⟩
  · have hcopies := h.copies n type
    rwa [hs.unsent, map_zero, add_zero] at hcopies
  · have hpermits := h.permits n
    rwa [hs.unsent, map_zero, map_zero, add_zero, add_zero] at hpermits

end Dfg
end ThreadUtils
