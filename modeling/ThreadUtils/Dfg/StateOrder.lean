import ThreadUtils.Dfg.NodeLimit
import ThreadUtils.Dfg.Typing

/-!
# The order of the data of a state

One worker at a time processes a state.  What has been pushed to a queue of the state is
then accounted for in order: the data whose execution has begun, the datum that this
worker has popped, and the data in the queue (`Ordered`).  The worker leaves the state only
without a popped datum, so the next one takes up where it stopped.

`Ordered` has two parts because the datum between a pop and its execution is in the hands of
whichever worker is inside, and there need not be one.  A worker that enters the state goes from the
one part to the other with nothing in its hands, and so does a worker that leaves it; that there is
never a second one inside is `Limited.unique`, from the account of `thread_count`.

* `nodesServed_of_reachable` --- the limits of the nodes and the order of the states.
-/

namespace ThreadUtils
namespace Dfg

variable {G N W C V : Type*}

section Definitions

variable [DecidableEq N]

/-- The data of a type that a node has begun to execute, in this order. -/
def State.executedOf (s : State G N W C V) (n : N) (type : TypeId) : List (GraphData V) :=
  (s.executed.filter fun e => e.1 = n ∧ e.2.type = type).map Prod.snd

/-- The history of a queue, with and without a worker at its node. -/
structure Ordered (s : State G N W C V) (n : N) (type : TypeId) : Prop where
  owned : ∀ w, (s.worker w).processing = some n →
    s.pushed (n, type) = s.executedOf n type ++ ((s.worker w).held type ++ s.queue (n, type))
  free : (∀ w, (s.worker w).processing ≠ some n) →
    s.pushed (n, type) = s.executedOf n type ++ s.queue (n, type)

/-- A step that leaves the histories of a queue alone. -/
structure SameHistory (s s' : State G N W C V) (n : N) (type : TypeId) : Prop where
  pushed : s'.pushed (n, type) = s.pushed (n, type)
  executed : s'.executedOf n type = s.executedOf n type
  queue : s'.queue (n, type) = s.queue (n, type)

end Definitions

section Order

variable [DecidableEq N]
variable {dfg : Runner G N W} {s s' : State G N W C V} {n : N} {type : TypeId}

theorem Ordered.same (hO : Ordered s n type) (hh : SameHistory s s' n type)
    (hw : s'.worker = s.worker) : Ordered s' n type := by
  constructor
  · rw [hh.pushed, hh.executed, hh.queue, hw]
    exact hO.owned
  · rw [hh.pushed, hh.executed, hh.queue, hw]
    exact hO.free

/-- A push appends to the history and to the queue alike. -/
theorem Ordered.push (hO : Ordered s n type) (q : NodeQueue N) (data : GraphData V) :
    Ordered (s.push q data) n type := by
  by_cases h : (n, type) = q
  · subst h
    have hpushed : (s.push (n, type) data).pushed (n, type) = s.pushed (n, type) ++ [data] :=
      Function.update_self ..
    have hqueue : (s.push (n, type) data).queue (n, type) = s.queue (n, type) ++ [data] :=
      Function.update_self ..
    refine ⟨fun w hw => ?_, fun hfree => ?_⟩
    · rw [hpushed, hqueue, hO.owned w hw]
      simp only [List.append_assoc]
      rfl
    · rw [hpushed, hqueue, hO.free hfree, List.append_assoc]
      rfl
  · exact hO.same ⟨Function.update_of_ne h _ _, rfl, Function.update_of_ne h _ _⟩ rfl

theorem executedOf_snoc {m : N} {d : GraphData V} (hex : s'.executed = s.executed ++ [(m, d)])
    (n : N) (type : TypeId) : s'.executedOf n type =
      s.executedOf n type ++ if m = n ∧ d.type = type then [d] else [] := by
  rw [State.executedOf, hex, List.filter_append, List.map_append]
  congr 1
  by_cases h : m = n ∧ d.type = type
  · rw [if_pos h, List.filter_cons_of_pos (by simpa using h)]
    rfl
  · rw [if_neg h, List.filter_cons_of_neg (by simpa using h)]
    rfl

theorem Ordered.executed_isPrefix (hO : Ordered s n type) :
    s.executedOf n type <+: s.pushed (n, type) := by
  by_cases hfree : ∀ w, (s.worker w).processing ≠ some n
  · rw [hO.free hfree]
    exact List.prefix_append _ _
  · obtain ⟨w, hw⟩ := not_forall_not.mp hfree
    rw [hO.owned w hw]
    exact List.prefix_append _ _

/-- Two workers do not process a state at the same time. -/
theorem Limited.unique [Fintype W] (hL : Limited dfg s)
    (hone : (dfg.graph.node n).maxThreadCount ≤ 1) {w w' : W}
    (hw : (s.worker w).processing = some n) (hw' : (s.worker w').processing = some n) :
    w = w' :=
  Finset.card_le_one.mp ((hL.limit n).trans hone) w
    (Finset.mem_filter.mpr ⟨Finset.mem_univ _, hw⟩) w'
    (Finset.mem_filter.mpr ⟨Finset.mem_univ _, hw'⟩)

/-- Where the counter of a state is below the limit, nobody processes the state. -/
theorem Limited.free [Fintype W] (hL : Limited dfg s)
    (hone : (dfg.graph.node n).maxThreadCount ≤ 1)
    (hlt : s.threadCount n < (dfg.graph.node n).maxThreadCount) (w : W) :
    (s.worker w).processing ≠ some n := by
  intro hw
  have hthread := hL.threadCount n
  have hle := processing_le_counted s n
  have hpos : 0 < s.processing n :=
    Finset.card_pos.mpr ⟨w, Finset.mem_filter.mpr ⟨Finset.mem_univ _, hw⟩⟩
  omega

variable [DecidableEq W]

/-- A worker moves, without a popped datum when it comes from or goes to the state. -/
theorem Ordered.goto (hO : Ordered s n type) (hh : SameHistory s s' n type) {w : W}
    {pc : WorkerPc N V} (hw : s'.worker = Function.update s.worker w pc)
    (hin : pc.processing = some n →
      (s.worker w).processing = some n ∨ ∀ w, (s.worker w).processing ≠ some n)
    (hheld : pc.processing = some n → pc.held type = [])
    (hout : (s.worker w).processing = some n → (s.worker w).held type = []) :
    Ordered s' n type := by
  refine ⟨fun w' hw' => ?_, fun hfree => ?_⟩
  · rw [hh.pushed, hh.executed, hh.queue]
    rw [hw] at hw' ⊢
    by_cases h : w' = w
    · subst h
      rw [Function.update_self] at hw' ⊢
      rw [hheld hw', List.nil_append]
      rcases hin hw' with hold | hnone
      · have howned := hO.owned w' hold
        rwa [hout hold, List.nil_append] at howned
      · exact hO.free hnone
    · rw [Function.update_of_ne h] at hw' ⊢
      exact hO.owned w' hw'
  · rw [hh.pushed, hh.executed, hh.queue]
    by_cases hold : (s.worker w).processing = some n
    · have howned := hO.owned w hold
      rwa [hout hold, List.nil_append] at howned
    · refine hO.free fun w' => ?_
      by_cases h : w' = w
      · rw [h]
        exact hold
      · have := hfree w'
        rwa [hw, Function.update_of_ne h] at this

/-- A worker pops a datum of the state. -/
theorem Ordered.pop [Fintype W] (hO : Ordered s n type) (hL : Limited dfg s)
    (hT : Typed dfg.graph s) (hone : (dfg.graph.node n).maxThreadCount ≤ 1) {w : W}
    {v : Visit N} {i : ℕ} {t : TypeId} {types : List TypeId} {data : GraphData V}
    {rest : List (GraphData V)} (hpc : s.worker w = .dequeue v i (t :: types))
    (hq : s.queue (v.node, t) = data :: rest) :
    Ordered { s.goto w (.fetched v i data) with
      queue := Function.update s.queue (v.node, t) rest } n type := by
  have hnode : (s.worker w).processing = some v.node := by rw [hpc]; rfl
  by_cases hv : v.node = n
  · subst hv
    have howned := hO.owned w hnode
    rw [hpc] at howned
    have htype : data.type = t :=
      (hT.queue (v.node, t) data (by rw [hq]; exact List.mem_cons_self)).1
    have hmine : ∀ w', (Function.update s.worker w (.fetched v i data) w').processing =
        some v.node → w' = w := by
      intro w' hw'
      by_contra h
      rw [Function.update_of_ne h] at hw'
      exact h (hL.unique hone hw' hnode)
    refine ⟨fun w' hw' => ?_, fun hfree => ?_⟩
    · obtain rfl := hmine w' hw'
      show s.pushed (v.node, type) = s.executedOf v.node type ++
        ((Function.update s.worker w' (.fetched v i data) w').held type ++
          Function.update s.queue (v.node, t) rest (v.node, type))
      rw [Function.update_self, howned, WorkerPc.held, htype]
      by_cases h : t = type
      · subst h
        rw [if_pos rfl, Function.update_self, hq]
        rfl
      · rw [if_neg h, Function.update_of_ne fun heq => h (Prod.ext_iff.mp heq).2.symm]
        rfl
    · exact absurd (by simp [State.goto, WorkerPc.processing]) (hfree w)
  · refine hO.goto ⟨rfl, rfl, ?_⟩ rfl (fun h => ?_) (fun h => ?_) fun h => ?_
    · exact Function.update_of_ne (fun heq => hv (Prod.ext_iff.mp heq).1.symm) _ _
    · exact absurd (Option.some.inj h) hv
    · exact absurd (Option.some.inj h) hv
    · rw [hnode] at h
      exact absurd (Option.some.inj h) hv

/-- The execution of the popped datum begins. -/
theorem Ordered.exec [Fintype W] (hO : Ordered s n type) (hL : Limited dfg s)
    (hone : (dfg.graph.node n).maxThreadCount ≤ 1) {w : W} {v : Visit N} {i : ℕ}
    {data : GraphData V} (results : List (GraphData V)) (hpc : s.worker w = .fetched v i data) :
    Ordered { s.goto w (.exec v i data (.run results)) with
      executed := s.executed ++ [(v.node, data)] } n type := by
  have hnode : (s.worker w).processing = some v.node := by rw [hpc]; rfl
  by_cases hv : v.node = n
  · subst hv
    have howned := hO.owned w hnode
    rw [hpc] at howned
    refine ⟨fun w' hw' => ?_, fun hfree => ?_⟩
    · obtain rfl : w' = w := by
        by_contra h
        change (Function.update s.worker w _ w').processing = some v.node at hw'
        rw [Function.update_of_ne h] at hw'
        exact h (hL.unique hone hw' hnode)
      rw [executedOf_snoc (m := v.node) (d := data) rfl]
      show s.pushed (v.node, type) = (s.executedOf v.node type ++ _) ++
        ((Function.update s.worker w' (.exec v i data (.run results)) w').held type ++
          s.queue (v.node, type))
      rw [Function.update_self, howned, WorkerPc.held, List.append_assoc]
      by_cases h : data.type = type
      · rw [if_pos h, if_pos ⟨rfl, h⟩]
        rfl
      · rw [if_neg h, if_neg fun hand => h hand.2]
        rfl
    · exact absurd (by simp [State.goto, WorkerPc.processing]) (hfree w)
  · refine hO.goto ⟨rfl, ?_, rfl⟩ rfl (fun h => ?_) (fun _ => rfl) fun h => ?_
    · rw [executedOf_snoc (m := v.node) (d := data) rfl, if_neg fun hand => hv hand.1,
        List.append_nil]
    · exact absurd (Option.some.inj h) hv
    · rw [hnode] at h
      exact absurd (Option.some.inj h) hv

variable [DecidableEq G] [DecidableEq C] [DecidableEq V]

theorem Effect.ordered [Fintype W] {a : Action W C V} (h : Effect dfg s a s')
    (hone : (dfg.graph.node n).maxThreadCount ≤ 1) (hL : Limited dfg s) (hT : Typed dfg.graph s)
    (hO : Ordered s n type) : Ordered s' n type := by
  cases h with
  | move w results pc hmove =>
    exact hO.goto ⟨rfl, rfl, rfl⟩ rfl (fun h => Or.inl (hmove.stays.processing n h))
      (fun _ => (hmove.stays.held type).2) fun _ => (hmove.stays.held type).1
  | acquire w results hpc hsem =>
    exact hO.goto ⟨rfl, rfl, rfl⟩ rfl (fun h => by cases h) (fun _ => rfl)
      fun _ => by rw [hpc]; rfl
  | enter w results v hpc hlt =>
    refine hO.goto ⟨rfl, rfl, rfl⟩ rfl (fun h => Or.inr ?_) (fun _ => rfl)
      fun _ => by rw [hpc]; rfl
    obtain rfl := Option.some.inj h
    exact hL.free hone hlt
  | refuse w results v hpc hge =>
    exact hO.goto ⟨rfl, rfl, rfl⟩ rfl (fun h => by cases h) (fun _ => rfl)
      fun _ => by rw [hpc]; rfl
  | leave w results v hpc =>
    have hnext := processing_of_counted (counted_next (V := V) dfg (dfg.group w) v)
    refine hO.goto ⟨rfl, rfl, rfl⟩ rfl (fun h => ?_) (fun _ => held_of_not_processing hnext type)
      fun _ => by rw [hpc]; rfl
    rw [hnext] at h
    cases h
  | pop w results v i t types data rest hpc hq => exact hO.pop hL hT hone hpc hq
  | exec w results v i data hpc => exact hO.exec hL hone results hpc
  | sink w results v i data result todo k hpc hne hk =>
    exact hO.goto ⟨rfl, rfl, rfl⟩ rfl (fun h => Or.inl (by rw [hpc]; exact h)) (fun _ => rfl)
      fun _ => by rw [hpc]; rfl
  | notify w results v i data result todo hpc =>
    exact hO.goto ⟨rfl, rfl, rfl⟩ rfl (fun h => Or.inl (by rw [hpc]; exact h)) (fun _ => rfl)
      fun _ => by rw [hpc]; rfl
  | push w results v i data result q queues nodes todo hpc =>
    exact (hO.push q result).goto ⟨rfl, rfl, rfl⟩ rfl
      (fun h => Or.inl (by change (s.worker w).processing = _; rw [hpc]; exact h)) (fun _ => rfl)
      fun _ => by change (s.worker w).held type = []; rw [hpc]; rfl
  | release w results v i data m nodes todo hpc =>
    exact hO.goto ⟨rfl, rfl, rfl⟩ rfl (fun h => Or.inl (by rw [hpc]; exact h)) (fun _ => rfl)
      fun _ => by rw [hpc]; rfl
  | enqueue c data m rest hpc => exact (hO.push (m, data.type) data).same ⟨rfl, rfl, rfl⟩ rfl
  | receive c data hpc => exact hO.same ⟨rfl, rfl, rfl⟩ rfl
  | clientRelease c data m rest hpc => exact hO.same ⟨rfl, rfl, rfl⟩ rfl
  | take c result rest hpc hq => exact hO.same ⟨rfl, rfl, rfl⟩ rfl
  | termStore c w rest g groups hpc => exact hO.same ⟨rfl, rfl, rfl⟩ rfl
  | termRelease c g groups hpc => exact hO.same ⟨rfl, rfl, rfl⟩ rfl
  | client c a pc m hmove => exact hO.same ⟨rfl, rfl, rfl⟩ rfl

theorem ordered_of_reachable [Fintype W] (hs : (system dfg C V).Reachable s)
    (hone : (dfg.graph.node n).maxThreadCount ≤ 1) (type : TypeId) : Ordered s n type := by
  refine hs.invariant (I := fun s => Ordered s n type) ?_ fun s a s' hr hO _ h =>
    (effect_of_step h).ordered hone (limited_of_reachable hr) (typed_of_reaches hr) hO
  rintro s rfl
  exact ⟨fun w hw => (by cases hw), fun _ => rfl⟩

/-- **The limits of the nodes and the order of the states.** -/
structure NodesServed [Fintype W] (dfg : Runner G N W) (s : State G N W C V) : Prop where
  /-- No node is processed by more workers than its limit. -/
  limit : ∀ n, s.processing n ≤ (dfg.graph.node n).maxThreadCount
  /-- `thread_count` does not underflow. -/
  threadCount : ∀ n, 0 ≤ s.threadCount n
  /-- The executions of a state do not overlap. -/
  exclusive : ∀ n, (dfg.graph.node n).kind = .state → ∀ w w',
    (s.worker w).executing = some n → (s.worker w').executing = some n → w = w'
  /-- A state executes the data of a type in the order in which they were pushed. -/
  order : ∀ n, (dfg.graph.node n).kind = .state → ∀ type,
    s.executedOf n type <+: s.pushed (n, type)

/-- **Every reachable state serves its nodes in this way**, for any graph, groups, workers,
clients and results of the executions. -/
theorem nodesServed_of_reachable [Fintype W] (dfg : Runner G N W) (s : State G N W C V)
    (hs : (system dfg C V).Reachable s) : NodesServed dfg s := by
  have hL := limited_of_reachable hs
  refine ⟨hL.limit, fun n => ?_, fun n hkind w w' hw hw' => ?_, fun n hkind type => ?_⟩
  · rw [hL.threadCount n]
    exact Int.natCast_nonneg _
  · exact hL.unique ((dfg.graph.node n).maxThreadCount_state hkind).le
      (processing_of_executing hw) (processing_of_executing hw')
  · exact (ordered_of_reachable hs ((dfg.graph.node n).maxThreadCount_state hkind).le
      type).executed_isPrefix

end Order

/-- A graph of one node with the input type `0`, in a group of two workers.  Results of the
type `1` leave the graph. -/
def oneNode (node : ExecNode Unit Unit) (hinputs : node.inputs = [0])
    (houtputs : node.outputs = makeOutputs Unit [1]) : Runner Unit Unit Bool where
  groups := [()]
  workers := fun _ => [false, true]
  group := fun _ => ()
  mem_groups := mem_unit
  mem_workers := by decide
  nodup_workers := by decide
  graph :=
    { id := 0
      node := fun _ => node
      inputs := fun type => if type = 0 then some [()] else none
      outputs := fun _ type => type = 1
      mem_inputs := fun type nodes h n _ => by
        split at h
        · next hzero =>
          rw [hinputs, hzero]
          exact List.mem_singleton_self _
        · cases h
      mem_outputs := fun n type output h m hm => by
        rw [houtputs] at h
        rw [(eq_some_of_makeOutputs h).2] at hm
        cases hm }
  maxDequeueCount := fun _ => 1
  nodes := fun _ => [()]
  group_of_mem := fun _ _ _ => rfl

/-- A client calls `tu_dfg_push_data` with a datum of the type `0`. -/
def pushByClient (x : ℕ) : List (Action Bool Unit ℕ) :=
  [.pushData () ⟨some x, 0⟩, .client (), .client ()]

/-- One worker executes a datum, passes over the state again and blocks; the other one
begins to execute the next datum. -/
def handOver : List (Action Bool Unit ℕ) :=
  pushByClient 7 ++ List.replicate 15 (.worker false []) ++
    pushByClient 8 ++ List.replicate 6 (.worker true [])

theorem nodesServed_handOver :
    let dfg := oneNode (tuState 0 [0] [1] ()) rfl rfl
    let s := (system dfg Unit ℕ).replay initial handOver
    (s.executedOf () 0 = [⟨some 7, 0⟩, ⟨some 8, 0⟩] ∧ s.worker false = .acquire ∧
      (s.worker true).executing = some ()) ∧ NodesServed dfg s := by
  exact ⟨by decide, nodesServed_of_reachable _ _
    (TransitionSystem.Reachable.replay (.start rfl) handOver (by decide))⟩

end Dfg
end ThreadUtils
