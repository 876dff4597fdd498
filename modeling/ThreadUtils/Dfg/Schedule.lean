import ThreadUtils.Dfg.Tokens

/-!
# Schedule independence

Every step of a run is a move of the token game of its graph, or none.  The game of the
tokens that `tu_dfg_push_data` brings in has one outcome, whatever the workers, their order
and their speed (`Fires.unique`), and the sinks receive what the executions emit.

Nothing is assumed about the graph: it may have cycles, and a run need not end.  So the executions
cannot be computed beforehand, and two runs are compared with each other.  That both have come to
rest is what makes their games end, and a game that has ended has fired every token that the other
one has: a token is fired or waits for ever, and where all is quiet none waits (`Tokens.ended`).

* `scheduleIndependent` --- two runs with the same data execute the same and emit the same.
-/

namespace ThreadUtils
namespace Dfg

variable {G N W C V : Type*}
variable {dfg : Runner G N W} {s s' : State G N W C V}

/-! ## The steps -/

section Effects

variable [DecidableEq G] [DecidableEq N] [DecidableEq W] [DecidableEq C] [DecidableEq V]
variable {f : N → GraphData V → List (GraphData V)}

/-- The datum that a worker has popped, with its node. -/
def WorkerPc.popped : WorkerPc N V → Option (N × GraphData V)
  | .fetched v _ data => some (v.node, data)
  | _ => none

/-- When the execution of a node begins, its results are those of the function `f`. -/
def PureExec (f : N → GraphData V → List (GraphData V)) (s : State G N W C V) :
    Action W C V → Prop
  | .worker w results => ∀ x ∈ (s.worker w).popped, results = f x.1 x.2
  | _ => True

instance (f : N → GraphData V → List (GraphData V)) (s : State G N W C V) (a : Action W C V) :
    Decidable (PureExec f s a) :=
  match a with
  | .worker w results =>
      inferInstanceAs (Decidable (∀ x ∈ (s.worker w).popped, results = f x.1 x.2))
  | .pushData _ _ | .waitResult _ | .term _ | .client _ | .wake _ =>
      inferInstanceAs (Decidable True)

variable [Fintype W]

/-- **Every step keeps the account of the sinks.** -/
theorem Effect.sunk {a : Action W C V} (h : Effect dfg s a s') (hok : PureExec f s a)
    (hS : Sunk dfg.graph f s) : Sunk dfg.graph f s' := by
  cases h with
  | move w results pc hmove => exact hS.goto hmove.sameTokens.owes
  | acquire w results hpc hsem => exact hS.goto fun k => by rw [hpc]; rfl
  | enter w results v hpc hlt => exact hS.goto fun k => by rw [hpc]; rfl
  | refuse w results v hpc hge => exact hS.goto fun k => by rw [hpc]; rfl
  | leave w results v hpc =>
    refine hS.goto fun k => ?_
    rw [hpc]
    exact (empty_of_not_processing dfg.graph
      (processing_of_counted (counted_next dfg (dfg.group w) v))).2 k
  | pop w results v i type types data rest hpc hq =>
    exact hS.goto fun k => by rw [hpc]; rfl
  | exec w results v i data hpc =>
    obtain rfl : results = f v.node data := hok (v.node, data) (by rw [hpc]; rfl)
    exact hS.exec rfl rfl rfl (fun k => by rw [hpc]; rfl) fun k => rfl
  | sink w results v i data result todo k hpc hne hk =>
    refine hS.sink (E := fun j => dfg.graph.emits j v.node result) rfl (fun j => ?_) rfl
      fun j => ?_
    · show Function.update s.sunk k (s.sunk k ++ [result]) j = _
      rw [emits_of_ne _ _ _ hne, hk]
      by_cases h : j = k
      · subst h
        rw [Function.update_self, if_pos rfl]
      · rw [Function.update_of_ne h, if_neg fun heq => h (Option.some.inj heq).symm,
          List.append_nil]
    · rw [hpc]
      exact (congrArg Multiset.ofList List.flatMap_cons).trans (Multiset.coe_add _ _).symm
  | notify w results v i data result todo hpc =>
    refine hS.goto fun k => ?_
    rw [hpc]
    exact congrArg (fun l => Multiset.ofList (List.flatMap (dfg.graph.emits k v.node) l))
      (todo_afterSink dfg.graph v.node result todo)
  | push w results v i data result q queues nodes todo hpc =>
    exact hS.goto fun k => by rw [hpc]; rfl
  | release w results v i data n nodes todo hpc =>
    exact hS.goto fun k => by rw [hpc]; rfl
  | receive c data hpc => exact hS.same rfl rfl rfl
  | enqueue c data n rest hpc => exact hS.same rfl rfl rfl
  | clientRelease c data n rest hpc => exact hS.same rfl rfl rfl
  | take c result rest hpc hq => exact hS.same rfl rfl rfl
  | termStore c w rest g groups hpc => exact hS.same rfl rfl rfl
  | termRelease c g groups hpc => exact hS.same rfl rfl rfl
  | client c a pc m hmove => exact hS.same rfl rfl rfl

variable [Fintype C]

/-- **Every step is a move of the game, or none.** -/
theorem Effect.tokens {a : Action W C V} (h : Effect dfg s a s') (hok : PureExec f s a)
    (hT : Typed dfg.graph s) (hP : Tokens dfg.graph f s) : Tokens dfg.graph f s' := by
  cases h with
  | move w results pc hmove =>
    exact hP.goto hmove.sameTokens.holds
  | acquire w results hpc hsem =>
    exact hP.goto (by rw [hpc]; rfl)
  | enter w results v hpc hlt =>
    exact hP.goto (by rw [hpc]; rfl)
  | refuse w results v hpc hge =>
    exact hP.goto (by rw [hpc]; rfl)
  | leave w results v hpc =>
    refine hP.goto ?_
    rw [hpc]
    exact (empty_of_not_processing dfg.graph
      (processing_of_counted (counted_next dfg (dfg.group w) v))).1
  | pop w results v i type types data rest hpc hq =>
    have htype : data.type = type :=
      (hT.queue (v.node, type) data (by rw [hq]; exact List.mem_cons_self)).1
    exact hP.popped rfl rfl (q := (v.node, type)) htype hq rfl
      (inHand_gain rfl (fun _ => rfl) (by rw [hpc]; rfl))
  | exec w results v i data hpc =>
    obtain rfl : results = f v.node data := hok (v.node, data) (by rw [hpc]; rfl)
    exact hP.fired rfl rfl rfl rfl (fun _ => rfl) (by rw [hpc]; rfl) rfl
  | sink w results v i data result todo k hpc hne hk =>
    refine hP.goto ?_
    have hcopies : (result :: todo).flatMap (dfg.graph.copies v.node) =
        (dfg.graph.queuesOf v.node result.type).map (fun q => (q.1, result)) ++
          todo.flatMap (dfg.graph.copies v.node) := by
      rw [List.flatMap_cons, copies_of_ne _ _ hne]
    rw [hpc]
    exact congrArg Multiset.ofList hcopies.symm
  | notify w results v i data result todo hpc =>
    refine hP.same rfl rfl rfl (inHand_goto rfl (fun c => ?_) ?_)
    · show (if s.client c = .blocked then .relock else s.client c : ClientPc G N W V).holds = _
      split
      · next hblocked =>
        rw [hblocked]
        rfl
      · rfl
    · rw [hpc]
      exact congrArg Multiset.ofList (holds_afterSink dfg.graph v.node result todo)
  | push w results v i data result q queues nodes todo hpc =>
    have htyped := hT.worker w
    rw [hpc] at htyped
    exact hP.pushed rfl rfl (htyped q List.mem_cons_self).1.symm rfl
      (inHand_lose rfl (fun _ => rfl) (by rw [hpc]; rfl))
  | release w results v i data n nodes todo hpc =>
    exact hP.goto (by rw [hpc]; rfl)
  | receive c data hpc =>
    exact hP.entered rfl rfl rfl
      (inHand_clientGain rfl rfl (by rw [hpc]; rfl) (holds_pushNext data _))
  | enqueue c data n rest hpc =>
    exact hP.pushed rfl rfl (q := (n, data.type)) rfl rfl
      (inHand_clientLose rfl rfl (by rw [hpc]; rfl))
  | clientRelease c data n rest hpc =>
    refine hP.clientGoto ?_
    rw [hpc, holds_pushNext]
    rfl
  | take c result rest hpc hq =>
    exact hP.clientGoto (by rw [hpc]; rfl)
  | termStore c w rest g groups hpc =>
    exact hP.clientGoto (by rw [hpc]; rfl)
  | termRelease c g groups hpc =>
    exact hP.clientGoto (by rw [hpc]; rfl)
  | client c a pc m hmove =>
    exact hP.clientGoto hmove.holds

theorem played_of_reaches (hs : (system dfg C V).Reaches (PureExec f) s) :
    Tokens dfg.graph f s ∧ Sunk dfg.graph f s := by
  refine hs.invariant (I := fun s => Tokens dfg.graph f s ∧ Sunk dfg.graph f s) ?_ ?_
  · rintro s rfl
    refine ⟨⟨0, fun n data => rfl, ?_⟩, fun k => ?_⟩
    · rw [inHand_eq_zero (fun w => rfl) fun c => rfl, add_zero]
      exact .refl
    · rw [owed_eq_zero fun w => rfl]
      rfl
  · rintro s a s' hr ⟨hP, hS⟩ hok h
    have heffect := effect_of_step h
    exact ⟨heffect.tokens hok (typed_of_reaches hr) hP, heffect.sunk hok hS⟩

end Effects

/-! ## At rest -/

/-- A client has a datum to push. -/
def ClientPc.pushing : ClientPc G N W V → Prop
  | .enqueue _ _ _ => True
  | .release _ _ rest => rest ≠ []
  | _ => False

instance (pc : ClientPc G N W V) : Decidable pc.pushing :=
  match pc with
  | .enqueue _ _ _ => inferInstanceAs (Decidable True)
  | .release _ _ rest => inferInstanceAs (Decidable (rest ≠ []))
  | .idle | .waitLock | .waitTest | .waitBlock | .blocked | .relock | .waitReturn _
  | .termStore _ _ _ | .termRelease _ _ | .termJoin _ _ => inferInstanceAs (Decidable False)

/-- All queues are empty, no worker has a datum or executes a node, and every call of
`tu_dfg_push_data` has made its pushes. -/
structure Quiescent (graph : Graph G N) (s : State G N W C V) : Prop where
  queue : ∀ n, ∀ type ∈ (graph.node n).inputs, s.queue (n, type) = []
  popped : ∀ w, (s.worker w).popped = none
  executing : ∀ w, (s.worker w).executing = none
  client : ∀ c, ¬ (s.client c).pushing

theorem Quiescent.worker {graph : Graph G N} (hq : Quiescent graph s) (w : W) :
    (s.worker w).holds graph = 0 ∧ ∀ k, (s.worker w).owes graph k = 0 := by
  have hpopped := hq.popped w
  have hexecuting := hq.executing w
  cases hpc : s.worker w with
  | fetched v i data => rw [hpc] at hpopped; cases hpopped
  | exec v i data e => rw [hpc] at hexecuting; cases hexecuting
  | _ => exact ⟨rfl, fun _ => rfl⟩

theorem holds_of_not_pushing {pc : ClientPc G N W V} (h : ¬ pc.pushing) : pc.holds = 0 := by
  cases pc with
  | enqueue data n rest => exact absurd trivial h
  | release data n rest =>
    obtain rfl : rest = [] := not_not.mp h
    rfl
  | _ => rfl

/-- The game of a run that has come to rest has ended. -/
theorem Tokens.ended [DecidableEq N] [DecidableEq V] [Fintype W] [Fintype C]
    {graph : Graph G N} {f : N → GraphData V → List (GraphData V)} (hT : Tokens graph f s)
    (htyped : Typed graph s) (hq : Quiescent graph s) :
    Fires (graph.children f) (s.received.flatMap graph.enters : List (N × GraphData V))
      (s.executed : Multiset (N × GraphData V)) 0 := by
  obtain ⟨Q, hQ, hfires⟩ := hT
  have hzero : Q = 0 := by
    refine Multiset.eq_zero_of_forall_notMem fun x hx => ?_
    rw [← Multiset.count_pos, hQ x.1 x.2, List.count_pos_iff] at hx
    have hinput := (htyped.queue _ x.2 hx).2
    rw [hq.queue x.1 x.2.type hinput] at hx
    cases hx
  rw [hzero, inHand_eq_zero (fun w => (hq.worker w).1)
    fun c => holds_of_not_pushing (hq.client c), add_zero] at hfires
  exact hfires

/-- **Schedule independence.**  Two runs of the same graph, with the same function for what
its nodes do and the same data pushed, in groups of any workers with any
`max_dequeue_count`, execute the same data on the same nodes and bring the same results to
the sinks, when both come to rest. -/
theorem scheduleIndependent {W' C' : Type*} [DecidableEq G] [DecidableEq N] [DecidableEq V]
    [DecidableEq W] [DecidableEq C] [DecidableEq W'] [DecidableEq C'] [Fintype W] [Fintype C]
    [Fintype W'] [Fintype C'] (dfg : Runner G N W) (dfg' : Runner G N W')
    (hgraph : dfg'.graph = dfg.graph) (f : N → GraphData V → List (GraphData V))
    (s : State G N W C V) (s' : State G N W' C' V)
    (hs : (system dfg C V).Reaches (PureExec f) s)
    (hs' : (system dfg' C' V).Reaches (PureExec f) s') (hq : Quiescent dfg.graph s)
    (hq' : Quiescent dfg.graph s')
    (hreceived : (s'.received : Multiset (GraphData V)) = s.received) :
    (s'.executed : Multiset (N × GraphData V)) = s.executed ∧
      ∀ k, (s'.sunk k : Multiset (GraphData V)) = s.sunk k := by
  obtain ⟨hT, hS⟩ := played_of_reaches hs
  obtain ⟨hT', hS'⟩ := played_of_reaches hs'
  have htyped' := typed_of_reaches hs'
  rw [hgraph] at hT' hS' htyped'
  have hstart : ((s'.received.flatMap dfg.graph.enters : List (N × GraphData V)) :
      Multiset (N × GraphData V)) = (s.received.flatMap dfg.graph.enters : List _) := by
    rw [← Multiset.coe_bind, ← Multiset.coe_bind, hreceived]
  have hended := hT'.ended htyped' hq'
  rw [hstart] at hended
  have hexecuted := hended.unique (hT.ended (typed_of_reaches hs) hq)
  refine ⟨hexecuted, fun k => ?_⟩
  have hk := hS k
  have hk' := hS' k
  rw [owed_eq_zero fun w => (hq.worker w).2 k, add_zero] at hk
  rw [owed_eq_zero fun w => (hq'.worker w).2 k, add_zero] at hk'
  rw [hk, hk', hexecuted]

/-- A task that passes its data on to a second one, whose results leave the graph. -/
def chain : Graph Unit Bool where
  id := 0
  node
    | false =>
        { (tuTask 0 [0] [1] () 2 : ExecNode Unit Bool) with
          outputs := fun type => (makeOutputs Bool [1] type).map fun output => output.insert true }
    | true => { (tuTask 0 [1] [2] () 1 : ExecNode Unit Bool) with sink := some 0 }
  inputs := fun type => if type = 0 then some [false] else none
  outputs := fun _ type => type = 2
  mem_inputs := fun type nodes h n hn => by
    split at h
    · next hzero =>
      obtain rfl := Option.some.inj h
      rw [List.mem_singleton.mp hn, hzero]
      exact List.mem_singleton_self _
    · cases h
  mem_outputs := fun n type output h m hm => by
    cases n with
    | false =>
      obtain ⟨o, ho, rfl⟩ := Option.map_eq_some_iff.mp h
      obtain ⟨htype, hnodes⟩ := eq_some_of_makeOutputs ho
      rcases ExecNodeOutput.mem_insert.mp hm with rfl | hm
      · exact htype
      · rw [hnodes] at hm
        cases hm
    | true =>
      rw [(eq_some_of_makeOutputs h).2] at hm
      cases hm

/-- The chain with the given workers in one group. -/
def chainOn {W : Type} (workers : List W) (hmem : ∀ w, w ∈ workers) (hnodup : workers.Nodup)
    (maxDequeueCount : ℕ) : Runner Unit Bool W where
  groups := [()]
  workers := fun _ => workers
  group := fun _ => ()
  mem_groups := mem_unit
  mem_workers := fun _ w => ⟨fun _ => rfl, fun _ => hmem w⟩
  nodup_workers := fun _ => hnodup
  graph := chain
  maxDequeueCount := fun _ => maxDequeueCount
  nodes := fun _ => [false, true]
  group_of_mem := fun _ n _ => by cases n <;> rfl

/-- What the tasks of the chain do: they hand the value on under the next type. -/
def pass (_ : Bool) (data : GraphData ℕ) : List (GraphData ℕ) :=
  [⟨data.data, data.type + 1⟩]

/-- `k` steps of a worker, in which it begins to execute a task with the value `x` at most
once, with a result of the type `type`. -/
def work {W : Type} (w : W) (k x : ℕ) (type : TypeId) : List (Action W Unit ℕ) :=
  List.replicate k (.worker w [⟨some x, type⟩])

/-- A client calls `tu_dfg_push_data` with a value for the chain. -/
def feed {W : Type} (x : ℕ) : List (Action W Unit ℕ) :=
  [.pushData () ⟨some x, 0⟩, .client (), .client ()]

/-- One worker does everything, one datum at a time. -/
def aloneOnChain : List (Action Unit Unit ℕ) :=
  feed 7 ++ feed 8 ++ work () 6 7 1 ++ work () 11 7 2 ++ work () 10 8 1 ++ work () 19 8 2

/-- The values come in the other order.  The worker that executes the first one is slow,
and the other one overtakes it. -/
def overtaking : List (Action Bool Unit ℕ) :=
  feed 8 ++ feed 7 ++ work false 6 8 1 ++ work true 6 7 1 ++ work true 43 7 2 ++
    work false 20 8 2

theorem scheduleIndependent_chain :
    let s := (system (chainOn [()] (by decide) (by decide) 1) Unit ℕ).replayWithin
      (PureExec pass) initial aloneOnChain
    let s' := (system (chainOn [false, true] (by decide) (by decide) 4) Unit ℕ).replayWithin
      (PureExec pass) initial overtaking
    s'.executed ≠ s.executed ∧
      ((s'.executed : Multiset (Bool × GraphData ℕ)) = s.executed ∧
        ∀ k, (s'.sunk k : Multiset (GraphData ℕ)) = s.sunk k) := by
  refine ⟨by decide, scheduleIndependent (chainOn [()] (by decide) (by decide) 1)
    (chainOn [false, true] (by decide) (by decide) 4) rfl pass _ _
    (TransitionSystem.Reaches.replayWithin (.start rfl) aloneOnChain (by decide))
    (TransitionSystem.Reaches.replayWithin (.start rfl) overtaking (by decide))
    ⟨by decide, by decide, by decide, by decide⟩ ⟨by decide, by decide, by decide, by decide⟩
    (by decide)⟩

end Dfg
end ThreadUtils
