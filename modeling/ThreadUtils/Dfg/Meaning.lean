import ThreadUtils.Dfg.Schedule
import ThreadUtils.Dfg.Shutdown
import ThreadUtils.Dfg.Stranded
import ThreadUtils.Transition.Descendants
import ThreadUtils.Transition.Variants

/-!
# The meaning of a layered graph

When the edges of a graph lead from layer to layer, the graph is a function from the data pushed
into it to the bags of results at its sinks: what a node makes of a datum is what it sends to the
sink and what its successors make of its other results (`Graph.meaning`).  A run computes this
function, whatever the groups, the workers and their speed.

## Partial correctness

The runs are moves of the token game of the graph (`Dfg.Tokens`), in which the execution of a node
fires a token.  In a layered graph a token has finitely many descendants, and these are the
executions that a datum leads to, `Graph.executions`; the tokens that were fired are among them at
every time (`Tokens.executed_le`), and all of them once the game has ended.  The meaning is what
these executions emit (`meaning_eq`), so nothing has to be known of their order.

## The end of a run

A run ends because every step lowers one of five numbers and none before it (`levels`): the
executions that are left, the accesses of the executions under way, the permits, the ranks of the
workers and the accesses of the clients.

A number for each worker would not do, since a worker that begins an execution has many accesses
before it that it had not before; and neither would the data in the queues, since a permit may wake
a worker for nothing.  The executions that are left are what the token game gives: an upper bound on
the executions of the whole run, known in advance.

A run that cannot go on has processed everything only if no datum is stranded.  So the results are
about the runs of `Computes`, in which no worker gives up a queue that nobody is in charge of.

* `AtRest.quiescent` --- a run that cannot go on has processed everything.
* `evaluates_of_layered` --- in a run without stranded data the sinks never hold anything but the
  meaning, the run ends unless the clients call again, and then the sinks hold all of it.
-/

namespace ThreadUtils
namespace Dfg

open TransitionSystem

variable {G N W C V : Type*}

/-! ## The meaning -/

/-- The edges lead down the ranks, of which there are `depth`. -/
def Graph.Layered (graph : Graph G N) (depth : ℕ) : Prop :=
  ∃ rank : N → ℕ, (∀ n, rank n < depth) ∧
    ∀ n type output, (graph.node n).outputs type = some output →
      ∀ m ∈ output.nodes, rank m < rank n

/-- The results that a datum at a node brings to a sink: those of the node itself, and those of
its successors for the results that it hands on. -/
def Graph.meaning (graph : Graph G N) (f : N → GraphData V → List (GraphData V)) (k : ℕ) :
    ℕ → N → GraphData V → Multiset (GraphData V)
  | 0, _, _ => 0
  | depth + 1, n, data => (f n data : Multiset (GraphData V)).bind fun result =>
      (graph.emits k n result : Multiset (GraphData V)) +
        (graph.copies n result : Multiset (N × GraphData V)).bind fun x =>
          graph.meaning f k depth x.1 x.2

/-- The results that a call of `tu_dfg_push_data` brings to a sink. -/
def Graph.denote (graph : Graph G N) (f : N → GraphData V → List (GraphData V)) (depth k : ℕ)
    (data : GraphData V) : Multiset (GraphData V) :=
  (graph.enters data : Multiset (N × GraphData V)).bind fun x => graph.meaning f k depth x.1 x.2

/-- The executions that a call of `tu_dfg_push_data` leads to. -/
def Graph.executions (graph : Graph G N) (f : N → GraphData V → List (GraphData V)) (depth : ℕ)
    (data : GraphData V) : Multiset (N × GraphData V) :=
  (graph.enters data : Multiset (N × GraphData V)).bind (descendants (graph.children f) depth)

variable {graph : Graph G N} {f : N → GraphData V → List (GraphData V)} {depth k : ℕ}

/-- The meaning is what the executions of the descendants emit. -/
theorem meaning_eq (graph : Graph G N) (f : N → GraphData V → List (GraphData V)) (k depth : ℕ)
    (n : N) (data : GraphData V) : graph.meaning f k depth n data =
      (descendants (graph.children f) depth (n, data)).bind (graph.outcome f k) := by
  induction depth generalizing n data with
  | zero => rfl
  | succ depth ih =>
    have hemits : graph.outcome f k (n, data) = (f n data : Multiset (GraphData V)).bind
        fun result => (graph.emits k n result : Multiset (GraphData V)) :=
      (Multiset.coe_bind _ _).symm
    have hcopies : graph.children f (n, data) = (f n data : Multiset (GraphData V)).bind
        fun result => (graph.copies n result : Multiset (N × GraphData V)) :=
      (Multiset.coe_bind _ _).symm
    rw [Graph.meaning, descendants, Multiset.bind_add, Multiset.cons_bind, hemits, hcopies,
      Multiset.bind_assoc, Multiset.bind_assoc]
    refine congrArg₂ _ rfl (Multiset.bind_congr fun result _ => ?_)
    exact Multiset.bind_congr fun x _ => ih x.1 x.2

theorem denote_eq (graph : Graph G N) (f : N → GraphData V → List (GraphData V)) (depth k : ℕ)
    (data : GraphData V) :
    graph.denote f depth k data = (graph.executions f depth data).bind (graph.outcome f k) := by
  rw [Graph.denote, Graph.executions, Multiset.bind_assoc]
  exact Multiset.bind_congr fun x _ => meaning_eq graph f k depth x.1 x.2

/-- The successors of a token are of a lower rank. -/
theorem rank_lt_of_mem_children {rank : N → ℕ}
    (hrank : ∀ n type output, (graph.node n).outputs type = some output →
      ∀ m ∈ output.nodes, rank m < rank n) (x : N × GraphData V) :
    ∀ y ∈ graph.children f x, rank y.1 < rank x.1 := by
  intro y hy
  obtain ⟨result, -, hcopy⟩ := List.mem_flatMap.mp (Multiset.mem_coe.mp hy)
  unfold Graph.copies at hcopy
  split at hcopy
  · obtain ⟨q, hq, rfl⟩ := List.mem_map.mp hcopy
    unfold Graph.queuesOf at hq
    split at hq
    · next output hout =>
      exact hrank x.1 _ output hout q.1 ((output.mem_queues q).mp hq).1
    · cases hq
  · cases hcopy

section Play

variable [DecidableEq N] [DecidableEq V] [Fintype W] [Fintype C] {s : State G N W C V}

/-- The data executed are among those the graph leads to. -/
theorem Tokens.executed_le (hT : Tokens graph f s) (hlayered : graph.Layered depth) :
    (s.executed : Multiset (N × GraphData V)) ≤
      (s.received : Multiset (GraphData V)).bind (graph.executions f depth) := by
  obtain ⟨rank, hdepth, hrank⟩ := hlayered
  obtain ⟨Q, -, hfires⟩ := hT
  have hbalance := hfires.balance (rank_lt_of_mem_children hrank)
    fun x => hdepth x.1
  rw [← Multiset.coe_bind, Multiset.bind_assoc] at hbalance
  exact le_of_le_of_eq (Multiset.le_add_right _ _) hbalance

/-- When the game has ended, all of them have been executed. -/
theorem Tokens.executed_eq (hT : Tokens graph f s) (hlayered : graph.Layered depth)
    (htyped : Typed graph s) (hq : Quiescent graph s) :
    (s.executed : Multiset (N × GraphData V)) =
      (s.received : Multiset (GraphData V)).bind (graph.executions f depth) := by
  obtain ⟨rank, hdepth, hrank⟩ := hlayered
  have hbalance := (hT.ended htyped hq).balance (rank_lt_of_mem_children hrank)
    fun x => hdepth x.1
  rw [← Multiset.coe_bind, Multiset.bind_assoc, Multiset.zero_bind, add_zero] at hbalance
  exact hbalance

omit [DecidableEq N] [DecidableEq V] in
theorem bind_denote (received : Multiset (GraphData V)) :
    received.bind (graph.denote f depth k) =
      (received.bind (graph.executions f depth)).bind (graph.outcome f k) := by
  rw [Multiset.bind_assoc]
  exact Multiset.bind_congr fun data _ => denote_eq graph f depth k data

omit [DecidableEq N] [DecidableEq V] [Fintype C] in
theorem Sunk.le (hS : Sunk graph f s) {M : Multiset (N × GraphData V)}
    (hle : (s.executed : Multiset (N × GraphData V)) ≤ M) (k : ℕ) :
    (s.sunk k : Multiset (GraphData V)) ≤ M.bind (graph.outcome f k) := by
  obtain ⟨R, rfl⟩ := Multiset.le_iff_exists_add.mp hle
  rw [Multiset.add_bind, ← hS k, add_assoc]
  exact Multiset.le_add_right _ _

end Play

/-! ## The end of a run -/

/-- A call of a client, or a spurious wake-up. -/
def Action.outside : Action W C V → Prop
  | .worker _ _ | .client _ => False
  | .pushData _ _ | .waitResult _ | .term _ | .wake _ => True

/-- The accesses that the execution on a worker still makes. -/
def WorkerPc.execSteps (graph : Graph G N) : WorkerPc N V → ℕ
  | .exec v _ _ e => e.steps graph v.node
  | _ => 0

/-- The accesses that a call of `tu_dfg_push_data` still makes. -/
def ClientPc.pushSteps : ClientPc G N W V → ℕ
  | .enqueue _ _ rest => 2 * rest.length + 2
  | .release _ _ rest => 2 * rest.length + 1
  | _ => 0

/-- The accesses that a call of `tu_dfg_wait_result` makes before it returns or blocks. -/
def ClientPc.waitSteps : ClientPc G N W V → ℕ
  | .waitLock | .relock => 4
  | .waitTest => 3
  | .waitBlock => 2
  | .waitReturn _ => 1
  | _ => 0

theorem pushSteps_pushNext (data : GraphData V) (rest : List N) :
    (pushNext data rest : ClientPc G N W V).pushSteps = 2 * rest.length := by
  cases rest with
  | nil => rfl
  | cons n rest =>
    rw [pushNext, ClientPc.pushSteps, List.length_cons]
    omega

section Levels

variable [Fintype N]

/-- A bound on the steps of a worker up to its next `sem.acquire()`, when it finds no datum. -/
def Runner.passRank (dfg : Runner G N W) (g : G) : WorkerPc N V → ℕ
  | .checkTerminate => (dfg.nodes g).length * (dfg.graph.inputCount + 4) + 3
  | pc => dfg.rank g pc

variable [Fintype W] [Fintype C]

/-- The executions that the data pushed will still lead to. -/
def State.left (graph : Graph G N) (f : N → GraphData V → List (GraphData V)) (depth : ℕ)
    (s : State G N W C V) : ℕ :=
  ((s.received : Multiset (GraphData V)).bind (graph.executions f depth)).card - s.executed.length

/-- The accesses of the executions under way and of the calls of `tu_dfg_push_data`. -/
def State.accesses (graph : Graph G N) (s : State G N W C V) : ℕ :=
  ∑ w, (s.worker w).execSteps graph + ∑ c, (s.client c).pushSteps

def State.permits [DecidableEq G] (dfg : Runner G N W) (s : State G N W C V) : ℕ :=
  ∑ g ∈ dfg.groups.toFinset, s.sem g

def State.passRanks (dfg : Runner G N W) (s : State G N W C V) : ℕ :=
  ∑ w, dfg.passRank (dfg.group w) (s.worker w)

def State.waits (s : State G N W C V) : ℕ :=
  ∑ c, (s.client c).waitSteps

/-- The numbers of which every step lowers one. -/
def levels [DecidableEq G] (dfg : Runner G N W) (f : N → GraphData V → List (GraphData V))
    (depth : ℕ) : List (State G N W C V → ℕ) :=
  [State.left dfg.graph f depth, State.accesses dfg.graph, State.permits dfg,
    State.passRanks dfg, State.waits]

variable {dfg : Runner G N W} {s s' : State G N W C V} {g : G}

section Ranks

omit [Fintype W] [Fintype C]

theorem passRank_eq {pc : WorkerPc N V} (h : pc ≠ .checkTerminate) :
    dfg.passRank g pc = dfg.rank g pc := by
  cases pc with
  | checkTerminate => exact absurd rfl h
  | _ => rfl

theorem passRank_enter (dfg : Runner G N W) (g : G) :
    dfg.passRank g (dfg.enter g 0 0 : WorkerPc N V) <
      dfg.passRank g (.checkTerminate : WorkerPc N V) := by
  rw [passRank_eq (ne_checkTerminate_enter dfg g 0 0), Runner.passRank, Runner.enter]
  cases hnodes : dfg.nodes g with
  | nil =>
    show 0 < _
    omega
  | cons n nodes =>
    dsimp only [List.getElem?_cons_zero, Runner.rank, Runner.scanRest]
    rw [hnodes, List.length_cons, if_pos rfl, Nat.zero_add, Nat.add_sub_cancel, Nat.add_mul]
    omega

omit [Fintype N] in
/-- The moves that do not read the flag of the worker. -/
theorem LocalMove.withFlags {w : W} {pc pc' : WorkerPc N V} (h : LocalMove dfg s w pc pc')
    (hpc : pc ≠ .checkTerminate) :
    LocalMove dfg { s with canTerminate := fun _ => true } w pc pc' := by
  cases h with
  | terminate hterm => exact absurd rfl hpc
  | start hterm => exact absurd rfl hpc
  | _ => constructor <;> assumption

/-- Outside of the executions a local move lowers the rank. -/
theorem LocalMove.passRank_lt {w : W} {pc pc' : WorkerPc N V} (h : LocalMove dfg s w pc pc') :
    dfg.passRank (dfg.group w) pc' < dfg.passRank (dfg.group w) pc := by
  by_cases hpc : pc = .checkTerminate
  · subst hpc
    cases h with
    | terminate hterm => exact Nat.succ_pos _
    | start hterm => exact passRank_enter dfg (dfg.group w)
  · rw [passRank_eq hpc, passRank_eq h.ne_checkTerminate]
    exact (h.withFlags hpc).rank_lt rfl

omit [Fintype N] in
theorem execSteps_of_not_processing (graph : Graph G N) {pc : WorkerPc N V}
    (h : pc.processing = none) : pc.execSteps graph = 0 := by
  cases pc with
  | exec v i data e => cases h
  | _ => rfl

omit [Fintype N] in
theorem execSteps_afterExec (dfg : Runner G N W) (g : G) (v : Visit N) (i : ℕ) :
    (dfg.afterExec g v i : WorkerPc N V).execSteps dfg.graph = 0 := by
  unfold Runner.afterExec
  split
  · rfl
  · split <;> rfl

omit [Fintype N] in
/-- No local move begins an execution. -/
theorem LocalMove.execSteps_le {w : W} {pc pc' : WorkerPc N V} (h : LocalMove dfg s w pc pc') :
    pc'.execSteps dfg.graph ≤ pc.execSteps dfg.graph := by
  have hzero : ∀ {p : WorkerPc N V}, p.execSteps dfg.graph = 0 →
      p.execSteps dfg.graph ≤ pc.execSteps dfg.graph := fun hp => hp ▸ Nat.zero_le _
  cases h with
  | start hterm =>
    exact hzero (execSteps_of_not_processing _ (processing_of_counted (counted_enter dfg _ 0 0)))
  | skip v hge =>
    exact hzero (execSteps_of_not_processing _ (processing_of_counted (counted_next dfg _ v)))
  | returned v i data => exact hzero (execSteps_afterExec dfg _ v i)
  | null v i data result todo hnull =>
    dsimp only [WorkerPc.execSteps, ExecPc.steps]
    rw [List.map_cons, List.sum_cons]
    omega
  | unsunk v i data result todo hne hk =>
    refine (steps_afterSink dfg.graph v.node result todo).le.trans ?_
    dsimp only [WorkerPc.execSteps, ExecPc.steps]
    rw [List.map_cons, List.sum_cons]
    omega
  | pushed v i data result nodes todo =>
    dsimp only [WorkerPc.execSteps, ExecPc.steps, List.length_nil]
    omega
  | released v i data todo =>
    dsimp only [WorkerPc.execSteps, ExecPc.steps, List.length_nil]
    omega
  | _ => exact Nat.zero_le _

end Ranks

section Steps

variable [DecidableEq W]

omit [Fintype N] in
theorem accesses_worker (graph : Graph G N) {w : W} {pc : WorkerPc N V}
    (hworker : s'.worker = Function.update s.worker w pc)
    (hclient : ∀ c, (s'.client c).pushSteps = (s.client c).pushSteps) :
    s'.accesses graph + (s.worker w).execSteps graph = s.accesses graph + pc.execSteps graph := by
  have hsum := sum_update_exchange (WorkerPc.execSteps graph) s.worker w pc
  rw [State.accesses, State.accesses, hworker, Finset.sum_congr rfl fun c _ => hclient c]
  omega

omit [Fintype N] [DecidableEq W] in
theorem accesses_client [DecidableEq C] (graph : Graph G N) (c : C) (pc : ClientPc G N W V)
    (hclient : s'.client = Function.update s.client c pc) (hworker : s'.worker = s.worker) :
    s'.accesses graph + (s.client c).pushSteps = s.accesses graph + pc.pushSteps := by
  have hsum := sum_update_exchange ClientPc.pushSteps s.client c pc
  rw [State.accesses, State.accesses, hworker, hclient]
  omega

omit [Fintype C] in
theorem passRanks_lt {w : W} {pc : WorkerPc N V}
    (hworker : s'.worker = Function.update s.worker w pc)
    (hlt : dfg.passRank (dfg.group w) pc < dfg.passRank (dfg.group w) (s.worker w)) :
    s'.passRanks dfg < s.passRanks dfg := by
  have hsum := sum_update_exchange_index (fun v (pc : WorkerPc N V) =>
    dfg.passRank (dfg.group v) pc) s.worker w pc
  rw [State.passRanks, State.passRanks, hworker]
  omega

variable [DecidableEq G]

omit [DecidableEq W] in
/-- An access of an execution or of a call of `tu_dfg_push_data`. -/
theorem lowers_of_accesses (hreceived : s'.received = s.received)
    (hexecuted : s'.executed = s.executed) (hlt : s'.accesses dfg.graph < s.accesses dfg.graph) :
    Lowers s s' (levels dfg f depth) := by
  refine .later (le_of_eq ?_) (.first hlt)
  rw [State.left, State.left, hreceived, hexecuted]

/-- An access of an execution. -/
theorem lowers_of_exec (w : W) (pc : WorkerPc N V)
    (hworker : s'.worker = Function.update s.worker w pc) (hreceived : s'.received = s.received)
    (hexecuted : s'.executed = s.executed)
    (hclient : ∀ c, (s'.client c).pushSteps = (s.client c).pushSteps)
    (hlt : pc.execSteps dfg.graph < (s.worker w).execSteps dfg.graph) :
    Lowers s s' (levels dfg f depth) := by
  refine lowers_of_accesses hreceived hexecuted ?_
  have hsum := accesses_worker dfg.graph hworker hclient
  omega

/-- An access of a worker in its pass. -/
theorem lowers_of_pass {w : W} (pc : WorkerPc N V)
    (hworker : s'.worker = Function.update s.worker w pc) (hclient : s'.client = s.client)
    (hreceived : s'.received = s.received) (hexecuted : s'.executed = s.executed)
    (hsem : s'.sem = s.sem)
    (hle : pc.execSteps dfg.graph ≤ (s.worker w).execSteps dfg.graph)
    (hlt : dfg.passRank (dfg.group w) pc < dfg.passRank (dfg.group w) (s.worker w)) :
    Lowers s s' (levels dfg f depth) := by
  refine .later (le_of_eq ?_) (.later ?_ (.later (le_of_eq ?_) (.first (passRanks_lt hworker hlt))))
  · rw [State.left, State.left, hreceived, hexecuted]
  · have hsum := accesses_worker dfg.graph hworker fun c => by rw [hclient]
    omega
  · rw [State.permits, State.permits, hsem]

variable [DecidableEq C]

omit [DecidableEq W] in
/-- An access of a client in `tu_dfg_wait_result`. -/
theorem lowers_of_wait {c : C} (pc : ClientPc G N W V) (hworker : s'.worker = s.worker)
    (hclient : s'.client = Function.update s.client c pc) (hreceived : s'.received = s.received)
    (hexecuted : s'.executed = s.executed) (hsem : s'.sem = s.sem)
    (hpush : pc.pushSteps = (s.client c).pushSteps)
    (hlt : pc.waitSteps < (s.client c).waitSteps) : Lowers s s' (levels dfg f depth) := by
  refine .later (le_of_eq ?_) (.later (le_of_eq ?_) (.later (le_of_eq ?_)
    (.later (le_of_eq ?_) (.first ?_))))
  · rw [State.left, State.left, hreceived, hexecuted]
  · have hsum := accesses_client dfg.graph c pc hclient hworker
    omega
  · rw [State.permits, State.permits, hsem]
  · rw [State.passRanks, State.passRanks, hworker]
  · have hsum := sum_update_exchange ClientPc.waitSteps s.client c pc
    rw [State.waits, State.waits, hclient]
    omega

variable [DecidableEq N] [DecidableEq V]

/-- **Every step lowers one of the levels**, and none before it. -/
theorem Effect.lowers {a : Action W C V} (h : Effect dfg s a s') (ha : ¬ a.outside)
    (hR : Running s) (hT : Tokens dfg.graph f s') (hlayered : dfg.graph.Layered depth) :
    Lowers s s' (levels dfg f depth) := by
  have hexec : ∀ (t : State G N W C V) (w : W) (v : Visit N) (i : ℕ) (data : GraphData V)
      (e e' : ExecPc N V), s.worker w = .exec v i data e →
      t.worker = Function.update s.worker w (.exec v i data e') → t.received = s.received →
      t.executed = s.executed → t.client = s.client →
      e'.steps dfg.graph v.node < e.steps dfg.graph v.node → Lowers s t (levels dfg f depth) := by
    intro t w v i data e e' hpc hworker hreceived hexecuted hclient hlt
    refine lowers_of_exec w _ hworker hreceived hexecuted (fun c => by rw [hclient]) ?_
    rw [hpc]
    exact hlt
  cases h with
  | move w results pc hmove =>
    exact lowers_of_pass _ rfl rfl rfl rfl rfl hmove.execSteps_le hmove.passRank_lt
  | acquire w results hpc hsem =>
    refine .later le_rfl (.later ?_ (.first ?_))
    · have hsum : State.accesses dfg.graph (s.goto w .checkTerminate) + _ = _ :=
        accesses_worker dfg.graph rfl fun _ => rfl
      exact Nat.le_of_add_right_le hsum.le
    · have hmem : dfg.group w ∈ dfg.groups.toFinset := List.mem_toFinset.mpr (dfg.mem_groups _)
      show ∑ g ∈ dfg.groups.toFinset, Function.update s.sem (dfg.group w) _ g <
        ∑ g ∈ dfg.groups.toFinset, s.sem g
      refine Finset.sum_lt_sum (fun g _ => ?_) ⟨_, hmem, ?_⟩
      · by_cases hg : g = dfg.group w
        · rw [hg, Function.update_self]
          exact Nat.sub_le _ 1
        · rw [Function.update_of_ne hg]
      · rw [Function.update_self]
        exact Nat.sub_lt hsem Nat.one_pos
  | enter w results v hpc hlt =>
    refine lowers_of_pass (dfg.beginDequeue v 0) rfl rfl rfl rfl rfl (Nat.zero_le _) ?_
    have hinputs := inputs_length_le dfg.graph v.node
    rw [hpc]
    dsimp only [Runner.beginDequeue, Runner.passRank, Runner.rank]
    omega
  | refuse w results v hpc hge =>
    refine lowers_of_pass (.decrement v) rfl rfl rfl rfl rfl (Nat.zero_le _) ?_
    rw [hpc]
    dsimp only [Runner.passRank, Runner.rank]
    omega
  | leave w results v hpc =>
    refine lowers_of_pass (dfg.next (dfg.group w) v) rfl rfl rfl rfl rfl ?_ ?_
    · rw [execSteps_of_not_processing dfg.graph
        (processing_of_counted (counted_next dfg (dfg.group w) v))]
      exact Nat.zero_le _
    · rw [hpc, passRank_eq (ne_checkTerminate_next dfg _ v)]
      refine (rank_next dfg (dfg.group w) v).trans_lt ?_
      dsimp only [Runner.passRank, Runner.rank]
      omega
  | pop w results v i type types data rest hpc hq =>
    refine lowers_of_pass (.fetched v i data) rfl rfl rfl rfl rfl (Nat.zero_le _) ?_
    rw [hpc]
    dsimp only [Runner.passRank, Runner.rank, List.length_cons]
    omega
  | exec w results v i data hpc =>
    -- the new execution is one of those that the data pushed lead to
    have hcard : (s.executed ++ [(v.node, data)]).length ≤
        ((s.received : Multiset (GraphData V)).bind (dfg.graph.executions f depth)).card :=
      Multiset.card_le_card (hT.executed_le hlayered)
    refine .first (?_ : _ - (s.executed ++ [(v.node, data)]).length < _ - s.executed.length)
    rw [List.length_append, List.length_singleton] at hcard ⊢
    exact Nat.sub_lt_sub_left hcard (Nat.lt_succ_self _)
  | sink w results v i data result todo k hpc hne hk =>
    refine hexec _ w v i data _ (.notify result todo) hpc rfl rfl rfl rfl ?_
    dsimp only [ExecPc.steps]
    rw [List.map_cons, List.sum_cons]
    omega
  | notify w results v i data result todo hpc =>
    refine lowers_of_exec w (.exec v i data (dfg.graph.afterSink v.node result todo)) rfl
      rfl rfl (fun c => ?_) ?_
    · show (if s.client c = .blocked then .relock else s.client c : ClientPc G N W V).pushSteps = _
      split
      · next hblocked =>
        rw [hblocked]
        rfl
      · rfl
    · rw [hpc]
      exact steps_afterSink dfg.graph v.node result todo
  | push w results v i data result q queues nodes todo hpc =>
    refine hexec _ w v i data _ (.push result queues nodes todo) hpc rfl rfl rfl rfl ?_
    dsimp only [ExecPc.steps, List.length_cons]
    omega
  | release w results v i data n nodes todo hpc =>
    refine hexec _ w v i data _ (.release nodes todo) hpc rfl rfl rfl rfl ?_
    dsimp only [ExecPc.steps, List.length_cons]
    omega
  | receive c data hpc => exact absurd trivial ha
  | enqueue c data n rest hpc =>
    have hsum : State.accesses dfg.graph ((s.push (n, data.type) data).clientGoto c _) +
        (s.client c).pushSteps = s.accesses dfg.graph + _ :=
      accesses_client dfg.graph c (.release data n rest) rfl rfl
    rw [hpc, ClientPc.pushSteps, ClientPc.pushSteps] at hsum
    exact lowers_of_accesses rfl rfl (by omega)
  | clientRelease c data n rest hpc =>
    have hsum : State.accesses dfg.graph ((s.release dfg n).clientGoto c _) +
        (s.client c).pushSteps = s.accesses dfg.graph + _ :=
      accesses_client dfg.graph c (pushNext data rest) rfl rfl
    rw [hpc, ClientPc.pushSteps, pushSteps_pushNext] at hsum
    exact lowers_of_accesses rfl rfl (by omega)
  | take c result rest hpc hq =>
    refine lowers_of_wait (.waitReturn result) rfl rfl rfl rfl rfl ?_ ?_
    · rw [hpc]
      rfl
    · rw [hpc]
      exact Nat.lt_of_sub_eq_succ rfl
  | termStore c w rest g groups hpc => exact absurd (by rw [hpc]; trivial) (hR.client c)
  | termRelease c g groups hpc => exact absurd (by rw [hpc]; trivial) (hR.client c)
  | client c a pc m hmove =>
    have hwait : ∀ p, s.client c = p → pc.pushSteps = p.pushSteps → pc.waitSteps < p.waitSteps →
        Lowers s { s.clientGoto c pc with mutex := m } (levels dfg f depth) := by
      rintro p rfl hpush hlt
      exact lowers_of_wait _ rfl rfl rfl rfl rfl hpush hlt
    cases hmove with
    | call hc => exact absurd trivial ha
    | wake hc => exact absurd trivial ha
    | term hc => exact absurd trivial ha
    | lock hc hm =>
      rcases hc with hc | hc
      · exact hwait _ hc rfl (Nat.lt_succ_self 3)
      · exact hwait _ hc rfl (Nat.lt_succ_self 3)
    | empty hc hq => exact hwait _ hc rfl (Nat.lt_succ_self 2)
    | block hc => exact hwait _ hc rfl Nat.two_pos
    | unlock result hc => exact hwait _ hc rfl Nat.one_pos
    | stored g groups hc => exact absurd (by rw [hc]; trivial) (hR.client c)
    | join w rest groups hc hw => exact absurd (by rw [hc]; trivial) (hR.client c)
    | joined groups hc => exact absurd (by rw [hc]; trivial) (hR.client c)

end Steps

/-! ## A run that cannot go on -/

/-- The client is inside `tu_dfg_push_data`. -/
def ClientPc.inPushData : ClientPc G N W V → Prop
  | .enqueue _ _ _ | .release _ _ _ => True
  | _ => False

section Rest

omit [Fintype N] [Fintype W] [Fintype C]

theorem ne_exited_enter (dfg : Runner G N W) (g : G) (k p : ℕ) :
    (dfg.enter g k p : WorkerPc N V) ≠ .exited := by
  unfold Runner.enter
  split <;> simp

theorem ne_exited_next (dfg : Runner G N W) (g : G) (v : Visit N) :
    (dfg.next g v : WorkerPc N V) ≠ .exited := by
  unfold Runner.next
  split
  · split
    · simp
    · exact ne_exited_enter dfg g 0 0
  · exact ne_exited_enter dfg g _ _

theorem LocalMove.ne_exited {w : W} {pc pc' : WorkerPc N V} (h : LocalMove dfg s w pc pc')
    (hflag : s.canTerminate w = false) : pc' ≠ .exited := by
  cases h with
  | terminate hterm =>
    rw [hflag] at hterm
    cases hterm
  | start hterm => exact ne_exited_enter dfg _ 0 0
  | skip v hge => exact ne_exited_next dfg _ v
  | returned v i data =>
    intro heq
    have hvisit := (visit_afterExec (V := V) dfg (dfg.group w) v i).2
    rw [heq] at hvisit
    cases hvisit
  | _ => simp

variable [DecidableEq G] [DecidableEq N] [DecidableEq W] [DecidableEq C] [DecidableEq V]

/-- Nobody exits before `tu_dfg_term`. -/
theorem Effect.ne_exited {a : Action W C V} (h : Effect dfg s a s') (hR : Running s)
    (hall : ∀ w, s.worker w ≠ .exited) : ∀ w, s'.worker w ≠ .exited := by
  have hupdate : ∀ w pc, pc ≠ .exited → ∀ v, Function.update s.worker w pc v ≠ .exited :=
    fun w pc hpc => forall_update (P := fun _ (pc : WorkerPc N V) => pc ≠ .exited) hall hpc
  cases h with
  | move w results pc hmove => exact hupdate w pc (hmove.ne_exited (hR.canTerminate w))
  | leave w results v hpc => exact hupdate w _ (ne_exited_next dfg _ v)
  | acquire w results hpc hsem => exact hupdate w .checkTerminate (by simp)
  | enter w results v hpc hlt =>
    exact hupdate w (dfg.beginDequeue v 0) (by simp [Runner.beginDequeue])
  | refuse w results v hpc hge => exact hupdate w (.decrement v) (by simp)
  | pop w results v i type types data rest hpc hq => exact hupdate w (.fetched v i data) (by simp)
  | exec w results v i data hpc => exact hupdate w (.exec v i data (.run results)) (by simp)
  | sink w results v i data result todo k hpc hne hk =>
    exact hupdate w (.exec v i data (.notify result todo)) (by simp)
  | notify w results v i data result todo hpc =>
    exact hupdate w (.exec v i data (dfg.graph.afterSink v.node result todo)) (by simp)
  | push w results v i data result q queues nodes todo hpc =>
    exact hupdate w (.exec v i data (.push result queues nodes todo)) (by simp)
  | release w results v i data n nodes todo hpc =>
    exact hupdate w (.exec v i data (.release nodes todo)) (by simp)
  | _ => exact hall

theorem ne_exited_of_reaches (hs : (system dfg C V).Reaches (KeepsWatch dfg) s) (w : W) :
    s.worker w ≠ .exited := by
  refine hs.invariant (I := fun s => ∀ w, s.worker w ≠ .exited) ?_
    (fun s a s' hr hall _ hstep =>
      (effect_of_step hstep).ne_exited (watched_of_reaches hr).1 hall) w
  rintro s rfl w
  simp [initial]

omit [DecidableEq C] in
/-- A worker that cannot make a step waits for a permit. -/
theorem acquire_of_workerStep {w : W} (h : s.workerStep dfg w [] = none)
    (hexited : s.worker w ≠ .exited) (habort : s.worker w ≠ .abort) :
    s.worker w = .acquire ∧ s.sem (dfg.group w) = 0 := by
  unfold State.workerStep at h
  split at h
  · next hpc =>
    split at h
    · cases h
    · next hsem => exact ⟨hpc, Nat.eq_zero_of_not_pos hsem⟩
  · cases h
  · cases h
  · cases h
  · split at h <;> cases h
  · cases h
  · cases h
  · cases h
  · cases h
  · next hpc => exact absurd hpc hexited
  · next hpc => exact absurd hpc habort

/-- No worker can make a step, and no client is inside `tu_dfg_push_data`. -/
structure AtRest (dfg : Runner G N W) (s : State G N W C V) : Prop where
  worker : ∀ w results, step dfg s (.worker w results) = none
  client : ∀ c, ¬ (s.client c).inPushData

/-- **A run that cannot go on has processed everything**, when no datum is stranded and every
node is registered in a group with a worker. -/
theorem AtRest.quiescent (h : AtRest dfg s) (hs : (system dfg C V).Reaches (KeepsWatch dfg) s)
    (hnodes : ∀ n, n ∈ dfg.nodes (dfg.graph.node n).group)
    (hworkers : ∀ n, ∃ w, dfg.group w = (dfg.graph.node n).group) :
    Quiescent dfg.graph s := by
  have hpositions := positions_of_reaches (fun n => List.ne_nil_of_mem (hnodes n)) hs
  have hacquire : ∀ w, s.worker w = .acquire ∧ s.sem (dfg.group w) = 0 := fun w =>
    acquire_of_workerStep (h.worker w []) (ne_exited_of_reaches hs w) (hpositions.inRange w).1
  refine ⟨fun n type htype => ?_, fun w => ?_, fun w => ?_, fun c hc => h.client c ?_⟩
  · by_contra hne
    rcases (watched_of_reaches hs).2 _ n (hnodes n) type htype hne with
      hsem | ⟨w, -, -, hw⟩ | ⟨w, hw⟩ | ⟨c, hc⟩
    · obtain ⟨w, hw⟩ := hworkers n
      rw [← hw, (hacquire w).2] at hsem
      exact absurd hsem (Nat.lt_irrefl 0)
    · rw [(hacquire w).1] at hw
      exact hw
    · rw [(hacquire w).1] at hw
      exact hw
    · refine h.client c ?_
      cases hpc : s.client c with
      | release data m rest => trivial
      | _ =>
        rw [hpc] at hc
        exact hc.elim
  · rw [(hacquire w).1]
    rfl
  · rw [(hacquire w).1]
    rfl
  · cases hpc : s.client c with
    | enqueue data m rest => trivial
    | release data m rest => trivial
    | _ =>
      rw [hpc] at hc
      exact hc.elim

end Rest

/-! ## Total correctness -/

section Computes

variable [DecidableEq G] [DecidableEq N] [DecidableEq W] [DecidableEq C] [DecidableEq V]

/-- The nodes compute the function `f`, no datum is stranded, and nobody calls `tu_dfg_term`. -/
def Computes (dfg : Runner G N W) (f : N → GraphData V → List (GraphData V))
    (s : State G N W C V) (a : Action W C V) : Prop :=
  PureExec f s a ∧ KeepsWatch dfg s a

omit [Fintype N] in
instance (dfg : Runner G N W) (f : N → GraphData V → List (GraphData V)) (s : State G N W C V)
    (a : Action W C V) : Decidable (Computes dfg f s a) :=
  inferInstanceAs (Decidable (_ ∧ _))

/-- The run up to `s` computes the meaning of the graph. -/
structure Evaluates (dfg : Runner G N W) (f : N → GraphData V → List (GraphData V)) (depth : ℕ)
    (s : State G N W C V) : Prop where
  executed_le : (s.executed : Multiset (N × GraphData V)) ≤
    (s.received : Multiset (GraphData V)).bind (dfg.graph.executions f depth)
  sunk_le : ∀ k, (s.sunk k : Multiset (GraphData V)) ≤
    (s.received : Multiset (GraphData V)).bind (dfg.graph.denote f depth k)
  /-- The run goes on for ever only if the clients call again and again. -/
  ends : ∀ r : (system dfg C V).Run, r.state 0 = s →
    (∀ n, Computes dfg f (r.state n) (r.action n)) → ∀ n₀, ∃ n, n₀ ≤ n ∧ (r.action n).outside
  sunk_eq : AtRest dfg s → ∀ k, (s.sunk k : Multiset (GraphData V)) =
    (s.received : Multiset (GraphData V)).bind (dfg.graph.denote f depth k)

end Computes

end Levels

theorem chain_layered : chain.Layered 2 := by
  refine ⟨fun n => if n then 0 else 1, by decide, fun n type output hout m hm => ?_⟩
  cases n with
  | false =>
    obtain ⟨o, ho, rfl⟩ := Option.map_eq_some_iff.mp hout
    rcases ExecNodeOutput.mem_insert.mp hm with rfl | hm
    · decide
    · rw [(eq_some_of_makeOutputs ho).2] at hm
      cases hm
  | true =>
    rw [(eq_some_of_makeOutputs hout).2] at hm
    cases hm

end Dfg
end ThreadUtils
