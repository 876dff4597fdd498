import Mathlib.Algebra.Order.BigOperators.Group.Multiset
import Mathlib.Data.Multiset.Bind
import ThreadUtils.Dfg.NodeLimit
import ThreadUtils.Dfg.Typing
import ThreadUtils.Transition.TokenGame

/-!
# The tokens of a graph

When what a node does with a datum is a function of the datum, a run of the graph is a token
game.  The tokens are the data under way to a node, in a queue or in the hands of a thread;
the execution of a node fires a token, and its children are the copies of its results, one
for each queue that an edge leads to.  The results that go to a sink are not tokens, and have
an account of their own.

An execution sends its results one after the other, while other workers already process the first
ones.  The game knows nothing of this: the token is fired when the execution begins, all children
come into being at once, and those that were not sent yet are tokens in the hands of the worker
(`WorkerPc.holds`).  The queues are not summed over, there may be infinitely many; `InQueues` says
of a bag that it is what they hold, and `Tokens` that there is such a bag.

The lemmas from `Tokens.exchange` to `Tokens.entered` are the moves, each named after what becomes
of a token: it is pushed, popped, fired or enters the game.
-/

namespace ThreadUtils
namespace Dfg

variable {G N W C V : Type*}

/-! ## The game -/

/-- The queues that an edge leads to. -/
def Graph.queuesOf (graph : Graph G N) (n : N) (type : TypeId) : List (NodeQueue N) :=
  match (graph.node n).outputs type with
  | some output => output.queues
  | none => []

/-- The copies of a result, each with the node that it goes to. -/
def Graph.copies (graph : Graph G N) (n : N) (result : GraphData V) : List (N × GraphData V) :=
  match result.data with
  | some _ => (graph.queuesOf n result.type).map fun q => (q.1, result)
  | none => []

/-- What a result brings to a sink. -/
def Graph.emits (graph : Graph G N) (k : ℕ) (n : N) (result : GraphData V) :
    List (GraphData V) :=
  match result.data with
  | some _ => if graph.sinkOf n result.type = some k then [result] else []
  | none => []

/-- The data that an execution sends to the successors of the node. -/
def Graph.children (graph : Graph G N) (f : N → GraphData V → List (GraphData V))
    (x : N × GraphData V) : Multiset (N × GraphData V) :=
  ((f x.1 x.2).flatMap (graph.copies x.1) : List (N × GraphData V))

/-- The data that an execution sends to a sink. -/
def Graph.outcome (graph : Graph G N) (f : N → GraphData V → List (GraphData V)) (k : ℕ)
    (x : N × GraphData V) : Multiset (GraphData V) :=
  ((f x.1 x.2).flatMap (graph.emits k x.1) : List (GraphData V))

/-- What `tu_dfg_push_data` sends to the input nodes. -/
def Graph.enters (graph : Graph G N) (data : GraphData V) : List (N × GraphData V) :=
  ((graph.inputs data.type).getD []).map fun n => (n, data)

/-! ## The tokens in the hands of the threads -/

/-- The results for which `tu_result` has not been called. -/
def ExecPc.todo : ExecPc N V → List (GraphData V)
  | .run todo | .notify _ todo | .push _ _ _ todo | .release _ todo => todo

/-- The copies of the results that have not been pushed. -/
def ExecPc.holds (graph : Graph G N) (n : N) : ExecPc N V → List (N × GraphData V)
  | .notify result todo =>
      (graph.queuesOf n result.type).map (fun q => (q.1, result)) ++ todo.flatMap (graph.copies n)
  | .push result queues _ todo =>
      queues.map (fun q => (q.1, result)) ++ todo.flatMap (graph.copies n)
  | .run todo | .release _ todo => todo.flatMap (graph.copies n)

/-- The tokens of a worker: the popped datum, or what its execution still sends. -/
def WorkerPc.holds (graph : Graph G N) : WorkerPc N V → Multiset (N × GraphData V)
  | .fetched v _ data => {(v.node, data)}
  | .exec v _ _ e => (e.holds graph v.node : List (N × GraphData V))
  | _ => 0

/-- The tokens of a client. -/
def ClientPc.holds : ClientPc G N W V → Multiset (N × GraphData V)
  | .enqueue data n rest => ((n :: rest).map fun m => (m, data) : List (N × GraphData V))
  | .release data _ rest => (rest.map fun m => (m, data) : List (N × GraphData V))
  | _ => 0

/-- What the execution on a worker still sends to a sink. -/
def WorkerPc.owes (graph : Graph G N) (k : ℕ) : WorkerPc N V → Multiset (GraphData V)
  | .exec v _ _ e => (e.todo.flatMap (graph.emits k v.node) : List (GraphData V))
  | _ => 0

theorem holds_pushNext (data : GraphData V) (rest : List N) :
    (pushNext data rest : ClientPc G N W V).holds =
      (rest.map fun m => (m, data) : List (N × GraphData V)) := by
  cases rest <;> rfl

theorem holds_termNext (dfg : Runner G N W) (groups : List G) :
    (dfg.termNext groups : ClientPc G N W V).holds = 0 := by
  cases groups <;> rfl

theorem holds_afterSink (graph : Graph G N) (n : N) (result : GraphData V)
    (todo : List (GraphData V)) : (graph.afterSink n result todo).holds graph n =
      (graph.queuesOf n result.type).map (fun q => (q.1, result)) ++
        todo.flatMap (graph.copies n) := by
  rw [Graph.afterSink, Graph.queuesOf]
  split
  · next output hout =>
    rw [hout]
    rfl
  · next hout =>
    rw [hout]
    rfl

theorem todo_afterSink (graph : Graph G N) (n : N) (result : GraphData V)
    (todo : List (GraphData V)) : (graph.afterSink n result todo).todo = todo := by
  unfold Graph.afterSink
  split <;> rfl

theorem copies_of_ne (graph : Graph G N) (n : N) {result : GraphData V}
    (h : result.data ≠ none) :
    graph.copies n result = (graph.queuesOf n result.type).map fun q => (q.1, result) := by
  unfold Graph.copies
  split
  · rfl
  · next hnone => exact absurd hnone h

theorem copies_of_eq (graph : Graph G N) (n : N) {result : GraphData V}
    (h : result.data = none) : graph.copies n result = [] := by
  rw [Graph.copies, h]

theorem emits_of_ne (graph : Graph G N) (k : ℕ) (n : N) {result : GraphData V}
    (h : result.data ≠ none) :
    graph.emits k n result = if graph.sinkOf n result.type = some k then [result] else [] := by
  unfold Graph.emits
  split
  · rfl
  · next hnone => exact absurd hnone h

theorem emits_of_eq (graph : Graph G N) (k : ℕ) (n : N) {result : GraphData V}
    (h : result.data = none) : graph.emits k n result = [] := by
  rw [Graph.emits, h]

/-- Outside of an execution a worker without a popped datum has no tokens. -/
theorem empty_of_not_processing (graph : Graph G N) {pc : WorkerPc N V}
    (h : pc.processing = none) : pc.holds graph = 0 ∧ ∀ k, pc.owes graph k = 0 := by
  cases pc with
  | dequeue v i types => exact ⟨rfl, fun _ => rfl⟩
  | fetched v i data => cases h
  | exec v i data e => cases h
  | _ => exact ⟨rfl, fun _ => rfl⟩

theorem empty_afterExec (dfg : Runner G N W) (g : G) (v : Visit N) (i : ℕ) :
    (dfg.afterExec g v i : WorkerPc N V).holds dfg.graph = 0 ∧
      ∀ k, (dfg.afterExec g v i : WorkerPc N V).owes dfg.graph k = 0 := by
  unfold Runner.afterExec
  split
  · exact ⟨rfl, fun _ => rfl⟩
  · split <;> exact ⟨rfl, fun _ => rfl⟩

/-- A step that leaves the tokens and the results of a worker alone. -/
structure SameTokens (graph : Graph G N) (pc pc' : WorkerPc N V) : Prop where
  holds : pc'.holds graph = pc.holds graph
  owes : ∀ k, pc'.owes graph k = pc.owes graph k

variable {dfg : Runner G N W} {s s' : State G N W C V}

theorem LocalMove.sameTokens {w : W} {pc pc' : WorkerPc N V} (h : LocalMove dfg s w pc pc') :
    SameTokens dfg.graph pc pc' := by
  cases h with
  | terminate hterm => exact ⟨rfl, fun _ => rfl⟩
  | start hterm =>
    obtain ⟨hholds, howes⟩ := empty_of_not_processing (V := V) dfg.graph
      (processing_of_counted (counted_enter dfg (dfg.group w) 0 0))
    exact ⟨hholds, howes⟩
  | below v hlt => exact ⟨rfl, fun _ => rfl⟩
  | skip v hge =>
    obtain ⟨hholds, howes⟩ := empty_of_not_processing (V := V) dfg.graph
      (processing_of_counted (counted_next dfg (dfg.group w) v))
    exact ⟨hholds, howes⟩
  | miss v i type types hq => exact ⟨rfl, fun _ => rfl⟩
  | drained v i => exact ⟨rfl, fun _ => rfl⟩
  | returned v i data =>
    obtain ⟨hholds, howes⟩ := empty_afterExec (V := V) dfg (dfg.group w) v i
    exact ⟨hholds, howes⟩
  | null v i data result todo hnull =>
    have hcopies : (result :: todo).flatMap (dfg.graph.copies v.node) =
        todo.flatMap (dfg.graph.copies v.node) := by
      rw [List.flatMap_cons, copies_of_eq _ _ hnull, List.nil_append]
    have hemits : ∀ k, (result :: todo).flatMap (dfg.graph.emits k v.node) =
        todo.flatMap (dfg.graph.emits k v.node) := by
      intro k
      rw [List.flatMap_cons, emits_of_eq _ _ _ hnull, List.nil_append]
    exact ⟨congrArg Multiset.ofList hcopies.symm, fun k => congrArg Multiset.ofList (hemits k).symm⟩
  | unsunk v i data result todo hne hk =>
    have hcopies : (result :: todo).flatMap (dfg.graph.copies v.node) =
        (dfg.graph.afterSink v.node result todo).holds dfg.graph v.node := by
      rw [List.flatMap_cons, copies_of_ne _ _ hne, holds_afterSink]
    have hemits : ∀ k, (result :: todo).flatMap (dfg.graph.emits k v.node) =
        (dfg.graph.afterSink v.node result todo).todo.flatMap (dfg.graph.emits k v.node) := by
      intro k
      rw [todo_afterSink, List.flatMap_cons, emits_of_ne _ _ _ hne, hk, if_neg (by simp),
        List.nil_append]
    exact ⟨congrArg Multiset.ofList hcopies.symm, fun k => congrArg Multiset.ofList (hemits k).symm⟩
  | pushed v i data result nodes todo => exact ⟨rfl, fun _ => rfl⟩
  | released v i data todo => exact ⟨rfl, fun _ => rfl⟩

theorem ClientMove.holds {c : C} {a : Action W C V} {pc : ClientPc G N W V} {m : Option C}
    (h : ClientMove dfg s c a pc m) : pc.holds = (s.client c).holds := by
  cases h with
  | lock hc hm => rcases hc with hc | hc <;> rw [hc] <;> rfl
  | term hc =>
    rw [hc]
    exact holds_termNext dfg _
  | joined groups hc =>
    rw [hc]
    exact holds_termNext dfg groups
  | call hc | wake hc | empty hc hq | block hc | unlock result hc | stored g groups hc
  | join w rest groups hc hw =>
    rw [hc]
    rfl

theorem coe_snoc {α : Type*} (l : List α) (x : α) :
    ((l ++ [x] : List α) : Multiset α) = x ::ₘ (l : Multiset α) := by
  rw [← Multiset.coe_add, Multiset.coe_singleton, add_comm, Multiset.singleton_add]

/-! ## The tokens of a state -/

section Tokens

variable [DecidableEq N] [DecidableEq V]

/-- `Q` is the bag of the data in the queues. -/
def InQueues (s : State G N W C V) (Q : Multiset (N × GraphData V)) : Prop :=
  ∀ n data, Q.count (n, data) = (s.queue (n, data.type)).count data

theorem InQueues.same {Q : Multiset (N × GraphData V)} (hQ : InQueues s Q)
    (hqueue : s'.queue = s.queue) : InQueues s' Q := by
  intro n data
  rw [hqueue]
  exact hQ n data

theorem InQueues.push {Q : Multiset (N × GraphData V)} (hQ : InQueues s Q) {q : NodeQueue N}
    {d : GraphData V} (htype : d.type = q.2) : InQueues (s.push q d) ((q.1, d) ::ₘ Q) := by
  intro n data
  show _ = (Function.update s.queue q (s.queue q ++ [d]) (n, data.type)).count data
  by_cases h : (n, data.type) = q
  · subst h
    rw [Function.update_self, List.count_append, ← hQ n data, Multiset.count_cons,
      List.count_singleton]
    by_cases hd : d = data
    · subst hd
      simp
    · rw [if_neg fun heq => hd (Prod.ext_iff.mp heq).2.symm, if_neg (by simpa using hd)]
  · rw [Function.update_of_ne h, ← hQ n data, Multiset.count_cons_of_ne]
    intro heq
    obtain ⟨hn, hd⟩ := Prod.ext_iff.mp heq
    exact h (Prod.ext hn ((congrArg GraphData.type hd).trans htype))

theorem InQueues.pop {Q : Multiset (N × GraphData V)} (hQ : InQueues s Q) {q : NodeQueue N}
    {d : GraphData V} {rest : List (GraphData V)} (htype : d.type = q.2)
    (hq : s.queue q = d :: rest) (hqueue : s'.queue = Function.update s.queue q rest) :
    ∃ K, Q = (q.1, d) ::ₘ K ∧ InQueues s' K := by
  have hmem : (q.1, d) ∈ Q := by
    rw [← Multiset.count_pos, hQ q.1 d, show (q.1, d.type) = q from Prod.ext rfl htype, hq,
      List.count_cons_self]
    exact Nat.succ_pos _
  obtain ⟨K, rfl⟩ := Multiset.exists_cons_of_mem hmem
  refine ⟨K, rfl, fun n data => ?_⟩
  have hcount := hQ n data
  rw [Multiset.count_cons] at hcount
  rw [hqueue]
  by_cases h : (n, data.type) = q
  · subst h
    rw [hq, List.count_cons] at hcount
    rw [Function.update_self]
    by_cases hd : d = data
    · subst hd
      simpa using hcount
    · rw [if_neg fun heq => hd (Prod.ext_iff.mp heq).2.symm, if_neg (by simpa using hd)] at hcount
      exact hcount
  · rw [Function.update_of_ne h, ← hcount, if_neg, Nat.add_zero]
    intro heq
    obtain ⟨hn, hd⟩ := Prod.ext_iff.mp heq
    exact h (Prod.ext hn ((congrArg GraphData.type hd).trans htype))

end Tokens

section Workers

variable [Fintype W]

/-- The results on their way to a sink. -/
def State.owed (graph : Graph G N) (k : ℕ) (s : State G N W C V) : Multiset (GraphData V) :=
  ∑ w, (s.worker w).owes graph k

theorem owed_worker [DecidableEq W] (graph : Graph G N) {w : W} {pc : WorkerPc N V} (k : ℕ)
    (hw : s'.worker = Function.update s.worker w pc) :
    s'.owed graph k + (s.worker w).owes graph k = s.owed graph k + pc.owes graph k := by
  rw [State.owed, State.owed, hw]
  exact sum_update_exchange (WorkerPc.owes graph k) s.worker w pc

theorem owed_eq_zero {graph : Graph G N} {k : ℕ} (h : ∀ w, (s.worker w).owes graph k = 0) :
    s.owed graph k = 0 :=
  Finset.sum_eq_zero fun w _ => h w

/-- The sinks have received what the executions have emitted, but for the results on their
way. -/
def Sunk (graph : Graph G N) (f : N → GraphData V → List (GraphData V)) (s : State G N W C V) :
    Prop :=
  ∀ k, (s.sunk k : Multiset (GraphData V)) + s.owed graph k =
    (s.executed : Multiset (N × GraphData V)).bind (graph.outcome f k)

variable {graph : Graph G N} {f : N → GraphData V → List (GraphData V)}

theorem Sunk.same (hS : Sunk graph f s) (hsunk : s'.sunk = s.sunk)
    (hexecuted : s'.executed = s.executed) (hw : s'.worker = s.worker) : Sunk graph f s' := by
  intro k
  rw [hsunk, hexecuted, State.owed, hw]
  exact hS k

/-- A worker goes on and emits nothing. -/
theorem Sunk.goto [DecidableEq W] (hS : Sunk graph f s) {w : W} {pc : WorkerPc N V}
    (howes : ∀ k, pc.owes graph k = (s.worker w).owes graph k) :
    Sunk graph f { s with worker := Function.update s.worker w pc } := by
  intro k
  have howed : State.owed graph k { s with worker := Function.update s.worker w pc } +
      (s.worker w).owes graph k = s.owed graph k + pc.owes graph k := owed_worker graph k rfl
  rw [howes k] at howed
  rw [add_right_cancel howed]
  exact hS k

/-- An execution begins. -/
theorem Sunk.exec [DecidableEq W] (hS : Sunk graph f s) {w : W} {pc : WorkerPc N V}
    {x : N × GraphData V} (hw : s'.worker = Function.update s.worker w pc)
    (hsunk : s'.sunk = s.sunk) (hexecuted : s'.executed = s.executed ++ [x])
    (hold : ∀ k, (s.worker w).owes graph k = 0)
    (hnew : ∀ k, pc.owes graph k = graph.outcome f k x) : Sunk graph f s' := by
  intro k
  have howed := owed_worker graph k hw
  rw [hold k, hnew k, add_zero] at howed
  rw [hsunk, hexecuted, howed, coe_snoc, Multiset.cons_bind, ← hS k, ← add_assoc, add_comm]

/-- A result reaches a sink. -/
theorem Sunk.sink [DecidableEq W] (hS : Sunk graph f s) {w : W} {pc : WorkerPc N V}
    {E : ℕ → List (GraphData V)} (hw : s'.worker = Function.update s.worker w pc)
    (hsunk : ∀ k, s'.sunk k = s.sunk k ++ E k) (hexecuted : s'.executed = s.executed)
    (howes : ∀ k, (s.worker w).owes graph k =
      (E k : Multiset (GraphData V)) + pc.owes graph k) : Sunk graph f s' := by
  intro k
  have howed := owed_worker graph k hw
  rw [howes k, ← add_assoc] at howed
  rw [hsunk, hexecuted, ← Multiset.coe_add, ← hS k, ← add_right_cancel howed, add_assoc,
    add_comm (s'.owed graph k)]

end Workers

section Game

variable [Fintype W] [Fintype C]

/-- The tokens in the hands of the threads. -/
def State.inHand (graph : Graph G N) (s : State G N W C V) : Multiset (N × GraphData V) :=
  (∑ w, (s.worker w).holds graph) + ∑ c, (s.client c).holds

theorem inHand_eq_zero {graph : Graph G N} (hworker : ∀ w, (s.worker w).holds graph = 0)
    (hclient : ∀ c, (s.client c).holds = 0) : s.inHand graph = 0 := by
  rw [State.inHand, Finset.sum_eq_zero fun w _ => hworker w,
    Finset.sum_eq_zero fun c _ => hclient c, add_zero]

theorem inHand_worker [DecidableEq W] (graph : Graph G N) {w : W} {pc : WorkerPc N V}
    (hw : s'.worker = Function.update s.worker w pc)
    (hc : ∀ c, (s'.client c).holds = (s.client c).holds) :
    s'.inHand graph + (s.worker w).holds graph = s.inHand graph + pc.holds graph := by
  have hsum := sum_update_exchange (WorkerPc.holds graph) s.worker w pc
  rw [State.inHand, State.inHand, hw, Finset.sum_congr rfl fun c _ => hc c, add_right_comm, hsum,
    add_right_comm]

theorem inHand_client [DecidableEq C] (graph : Graph G N) {c : C} {pc : ClientPc G N W V}
    (hc : s'.client = Function.update s.client c pc) (hw : s'.worker = s.worker) :
    s'.inHand graph + (s.client c).holds = s.inHand graph + pc.holds := by
  have hsum := sum_update_exchange ClientPc.holds s.client c pc
  rw [State.inHand, State.inHand, hw, hc, add_assoc, hsum, add_assoc]

/-- A worker goes on with the same tokens. -/
theorem inHand_goto [DecidableEq W] {graph : Graph G N} {w : W} {pc : WorkerPc N V}
    (hw : s'.worker = Function.update s.worker w pc)
    (hc : ∀ c, (s'.client c).holds = (s.client c).holds)
    (hholds : pc.holds graph = (s.worker w).holds graph) :
    s'.inHand graph = s.inHand graph := by
  have hinHand := inHand_worker graph hw hc
  rw [hholds] at hinHand
  exact add_right_cancel hinHand

theorem inHand_gain [DecidableEq W] {graph : Graph G N} {w : W} {pc : WorkerPc N V}
    {x : N × GraphData V} (hw : s'.worker = Function.update s.worker w pc)
    (hc : ∀ c, (s'.client c).holds = (s.client c).holds)
    (hholds : pc.holds graph = x ::ₘ (s.worker w).holds graph) :
    s'.inHand graph = x ::ₘ s.inHand graph := by
  have hinHand := inHand_worker graph hw hc
  rw [hholds, Multiset.add_cons, ← Multiset.cons_add] at hinHand
  exact add_right_cancel hinHand

theorem inHand_lose [DecidableEq W] {graph : Graph G N} {w : W} {pc : WorkerPc N V}
    {x : N × GraphData V} (hw : s'.worker = Function.update s.worker w pc)
    (hc : ∀ c, (s'.client c).holds = (s.client c).holds)
    (hholds : (s.worker w).holds graph = x ::ₘ pc.holds graph) :
    s.inHand graph = x ::ₘ s'.inHand graph := by
  have hinHand := inHand_worker graph hw hc
  rw [hholds, Multiset.add_cons, ← Multiset.cons_add] at hinHand
  exact (add_right_cancel hinHand).symm

/-- A client goes on with the same tokens. -/
theorem inHand_clientGoto [DecidableEq C] {graph : Graph G N} {c : C} {pc : ClientPc G N W V}
    (hc : s'.client = Function.update s.client c pc) (hw : s'.worker = s.worker)
    (hholds : pc.holds = (s.client c).holds) : s'.inHand graph = s.inHand graph := by
  have hinHand := inHand_client graph hc hw
  rw [hholds] at hinHand
  exact add_right_cancel hinHand

theorem inHand_clientLose [DecidableEq C] {graph : Graph G N} {c : C} {pc : ClientPc G N W V}
    {x : N × GraphData V} (hc : s'.client = Function.update s.client c pc)
    (hw : s'.worker = s.worker) (hholds : (s.client c).holds = x ::ₘ pc.holds) :
    s.inHand graph = x ::ₘ s'.inHand graph := by
  have hinHand := inHand_client graph hc hw
  rw [hholds, Multiset.add_cons, ← Multiset.cons_add] at hinHand
  exact (add_right_cancel hinHand).symm

theorem inHand_clientGain [DecidableEq C] {graph : Graph G N} {c : C} {pc : ClientPc G N W V}
    {K : Multiset (N × GraphData V)} (hc : s'.client = Function.update s.client c pc)
    (hw : s'.worker = s.worker) (hold : (s.client c).holds = 0) (hnew : pc.holds = K) :
    s'.inHand graph = s.inHand graph + K := by
  have hinHand := inHand_client graph hc hw
  rwa [hold, hnew, add_zero] at hinHand

theorem holds_le_inHand (graph : Graph G N) (s : State G N W C V) (w : W) :
    (s.worker w).holds graph ≤ s.inHand graph :=
  (Finset.single_le_sum (f := fun w => (s.worker w).holds graph) (fun _ _ => Multiset.zero_le _)
    (Finset.mem_univ w)).trans (Multiset.le_add_right _ _)

variable [DecidableEq N] [DecidableEq V]

/-- The game of the tokens has been played up to the bag of a state. -/
def Tokens (graph : Graph G N) (f : N → GraphData V → List (GraphData V))
    (s : State G N W C V) : Prop :=
  ∃ Q, InQueues s Q ∧
    Fires (graph.children f) (s.received.flatMap graph.enters : List (N × GraphData V))
      (s.executed : Multiset (N × GraphData V)) (s.inHand graph + Q)

variable {graph : Graph G N} {f : N → GraphData V → List (GraphData V)}

/-- The tokens in the hands and in the queues stay the same. -/
theorem Tokens.exchange (hT : Tokens graph f s) (hreceived : s'.received = s.received)
    (hexecuted : s'.executed = s.executed)
    (hmove : ∀ Q, InQueues s Q → ∃ K, InQueues s' K ∧
      s'.inHand graph + K = s.inHand graph + Q) : Tokens graph f s' := by
  obtain ⟨Q, hQ, hfires⟩ := hT
  obtain ⟨K, hK, heq⟩ := hmove Q hQ
  refine ⟨K, hK, ?_⟩
  rw [hreceived, hexecuted, heq]
  exact hfires

/-- A thread goes on with the same tokens. -/
theorem Tokens.same (hT : Tokens graph f s) (hreceived : s'.received = s.received)
    (hexecuted : s'.executed = s.executed) (hqueue : s'.queue = s.queue)
    (hin : s'.inHand graph = s.inHand graph) : Tokens graph f s' :=
  hT.exchange hreceived hexecuted fun Q hQ => ⟨Q, hQ.same hqueue, by rw [hin]⟩

/-- A worker goes on with the same tokens. -/
theorem Tokens.goto [DecidableEq W] (hT : Tokens graph f s) {w : W} {pc : WorkerPc N V}
    (hholds : pc.holds graph = (s.worker w).holds graph) :
    Tokens graph f { s with worker := Function.update s.worker w pc } :=
  hT.same rfl rfl rfl (inHand_goto rfl (fun _ => rfl) hholds)

/-- A client goes on with the same tokens. -/
theorem Tokens.clientGoto [DecidableEq C] (hT : Tokens graph f s) {c : C} {pc : ClientPc G N W V}
    (hholds : pc.holds = (s.client c).holds) :
    Tokens graph f { s with client := Function.update s.client c pc } :=
  hT.same rfl rfl rfl (inHand_clientGoto rfl rfl hholds)

/-- A token goes from a thread to a queue. -/
theorem Tokens.pushed (hT : Tokens graph f s) (hreceived : s'.received = s.received)
    (hexecuted : s'.executed = s.executed) {q : NodeQueue N} {d : GraphData V}
    (htype : d.type = q.2) (hqueue : s'.queue = (s.push q d).queue)
    (hin : s.inHand graph = (q.1, d) ::ₘ s'.inHand graph) : Tokens graph f s' := by
  refine hT.exchange hreceived hexecuted fun Q hQ => ⟨(q.1, d) ::ₘ Q, ?_, ?_⟩
  · exact (hQ.push htype).same hqueue
  · rw [hin, Multiset.add_cons, Multiset.cons_add]

/-- A token goes from a queue to a thread. -/
theorem Tokens.popped (hT : Tokens graph f s) (hreceived : s'.received = s.received)
    (hexecuted : s'.executed = s.executed) {q : NodeQueue N} {d : GraphData V}
    {rest : List (GraphData V)} (htype : d.type = q.2) (hq : s.queue q = d :: rest)
    (hqueue : s'.queue = Function.update s.queue q rest)
    (hin : s'.inHand graph = (q.1, d) ::ₘ s.inHand graph) : Tokens graph f s' := by
  refine hT.exchange hreceived hexecuted fun Q hQ => ?_
  obtain ⟨K, rfl, hK⟩ := hQ.pop htype hq hqueue
  refine ⟨K, hK, ?_⟩
  rw [hin, Multiset.add_cons, Multiset.cons_add]

/-- The token of a worker is fired. -/
theorem Tokens.fired [DecidableEq W] (hT : Tokens graph f s) {w : W} {pc : WorkerPc N V}
    {x : N × GraphData V} (hreceived : s'.received = s.received)
    (hexecuted : s'.executed = s.executed ++ [x]) (hqueue : s'.queue = s.queue)
    (hw : s'.worker = Function.update s.worker w pc)
    (hc : ∀ c, (s'.client c).holds = (s.client c).holds)
    (hold : (s.worker w).holds graph = {x}) (hnew : pc.holds graph = graph.children f x) :
    Tokens graph f s' := by
  obtain ⟨Q, hQ, hfires⟩ := hT
  refine ⟨Q, hQ.same hqueue, ?_⟩
  have hmem : x ∈ s.inHand graph := by
    refine Multiset.mem_of_le (holds_le_inHand graph s w) ?_
    rw [hold]
    exact Multiset.mem_singleton_self x
  obtain ⟨R, hR⟩ := Multiset.exists_cons_of_mem hmem
  have hin : s'.inHand graph = R + graph.children f x := by
    have hinHand := inHand_worker graph hw hc
    rw [hold, hnew, hR, Multiset.cons_add, ← Multiset.singleton_add, add_comm] at hinHand
    exact add_left_cancel hinHand
  rw [hR, Multiset.cons_add] at hfires
  have hfired := hfires.fire x
  rw [hreceived, hexecuted, hin, coe_snoc, add_right_comm]
  exact hfired

/-- Tokens come into the game. -/
theorem Tokens.entered (hT : Tokens graph f s) {d : GraphData V}
    (hreceived : s'.received = s.received ++ [d]) (hexecuted : s'.executed = s.executed)
    (hqueue : s'.queue = s.queue)
    (hin : s'.inHand graph = s.inHand graph + (graph.enters d : List (N × GraphData V))) :
    Tokens graph f s' := by
  obtain ⟨Q, hQ, hfires⟩ := hT
  refine ⟨Q, hQ.same hqueue, ?_⟩
  have hframed := hfires.frame (graph.enters d : List (N × GraphData V))
  rw [hreceived, hexecuted, hin, List.flatMap_append, List.flatMap_singleton,
    ← Multiset.coe_add, add_right_comm]
  exact hframed

end Game

end Dfg
end ThreadUtils
