import Mathlib.Data.List.TakeWhile
import ThreadUtils.Dfg.Builder.Registration

/-!
# The life cycle of a dfg

A client sets a graph, starts the workers, pushes data, waits for results, terminates the workers
and clears the dfg.  `tu_dfg_clear` terminates the workers and empties the lists of nodes, but it
leaves `dfg->graph` as it is.  No other function resets it either: once set, a graph stays for ever.

What follows from this is seen by the calls after the clear.  `tu_dfg_exec` is not refused: it
starts workers for groups without nodes, and `tu_dfg_push_data` still finds the inputs of the graph
and wakes them up.  Another graph is refused.

## The system

Here the calls of one client are taken together with the steps of the workers.  The data and what
the nodes do with them are left out: of `worker_process_queues` only the permits are told that the
results of the nodes release, in any number and for any groups.

Most of this is about the part of the state that the calls share, `dfg`.  A step changes it by
setting a graph or by emptying a list of nodes, and otherwise not at all (`DfgStep`), so whatever
the workers do, the graph stays (`DfgStep.graph`).

## What a registration enters

`dfg_register_nodes` appends the nodes to the lists of their groups, up to the first one that is a
graph or has no group, and does not look whether they are there already.  `enteredNodes` says which
nodes these are.  A list has a node twice as soon as one call enters a node that is in it, and never
gets rid of it but by a clear.

* `not_lifeCycleRight` --- a run in which `tu_dfg_clear` returns.
* `distinct_iff` --- when no node is twice in the list of a group.
* `not_lifeCycleRight_twice` --- a run in which everything goes wrong.
-/

namespace ThreadUtils
namespace Dfg
namespace LifeCycle

open Builder TransitionSystem

variable {F : Type*} {h : Heap F}

/-- A worker: the index of its group and its place in `group->workers`. -/
abbrev Worker := ℕ × ℕ

/-- The next access of a worker. -/
inductive WorkerPc where
  /-- `worker->thread` is not joinable. -/
  | absent
  /-- `sem.acquire()`. -/
  | acquire
  /-- `if (worker->can_terminate.load())`. -/
  | checkTerminate
  /-- `worker_process_queues`. -/
  | process
  /-- The thread has come to its end and was not joined. -/
  | exited
  deriving DecidableEq

/-- The next access of the client. -/
inductive ClientPc where
  | idle
  /-- `worker->can_terminate.store(false)` of the remaining workers in `tu_dfg_exec`. -/
  | start (rest : List Worker)
  /-- `worker->thread = std::thread(..)`. -/
  | create (w : Worker) (rest : List Worker)
  /-- `tu_internal_node_enqueue` for the remaining input nodes. -/
  | push (rest : List Address)
  | waitResult
  /-- `worker.can_terminate.store(true)` of the remaining workers of a group in `tu_dfg_term`,
  called by `tu_dfg_clear` or not. -/
  | termStore (rest : List Worker) (k : ℕ) (groups : List ℕ) (clear : Bool)
  /-- `group->sem.release(group->workers.size())`. -/
  | termRelease (k : ℕ) (groups : List ℕ) (clear : Bool)
  /-- `worker_stop` for the remaining workers of a group. -/
  | termJoin (rest : List Worker) (groups : List ℕ) (clear : Bool)
  /-- `group->nodes.clear()` of the remaining groups. -/
  | clearNodes (groups : List ℕ)
  /-- `std::terminate()`: a thread was assigned that is joinable. -/
  | terminated
  deriving DecidableEq

/-- A dfg with its workers and the client. -/
structure State where
  dfg : TuDfg
  sem : ℕ → ℕ
  canTerminate : Worker → Bool
  worker : Worker → WorkerPc
  client : ClientPc

/-- What the client or a worker may do next. -/
inductive Action where
  /-- `tu_dfg_set_graph`, with at most `depth` nested calls of `dfg_register_nodes`. -/
  | setGraph (depth : ℕ) (graph : Option Address)
  | exec
  | pushData (type : TypeId)
  | waitResult
  | term
  | clear
  /-- The next access of the client. -/
  | client
  /-- The next access of a worker.  In `worker_process_queues` it releases a permit of a group or,
  without one, returns. -/
  | worker (w : Worker) (permit : Option ℕ)

/-- `group->nodes`. -/
def nodesAt (dfg : TuDfg) (k : ℕ) : List Address :=
  ((dfg.groups[k]?).map WorkerGroup.nodes).getD []

/-- `group->workers`; each worker has a table of durations. -/
def workersAt (dfg : TuDfg) (k : ℕ) : List Worker :=
  let count := ((dfg.groups[k]?).map fun group : WorkerGroup => group.execDur.length).getD 0
  (List.range count).map fun i => (k, i)

/-- The indices of the groups. -/
def groupsOf (dfg : TuDfg) : List ℕ := List.range dfg.groups.length

/-- `group->nodes.clear()`. -/
def clearGroup (dfg : TuDfg) (k : ℕ) : TuDfg :=
  { dfg with groups := dfg.groups.modify k fun group => { group with nodes := [] } }

/-- `tu_dfg_term` at the next group, and what follows it. -/
def termNext (dfg : TuDfg) (clear : Bool) : List ℕ → ClientPc
  | [] => if clear then .clearNodes (groupsOf dfg) else .idle
  | k :: groups => .termStore (workersAt dfg k) k groups clear

/-- A permit of the group `k`. -/
def State.release (s : State) (k n : ℕ) : State :=
  { s with sem := Function.update s.sem k (s.sem k + n) }

/-- The accesses of the client. -/
def State.clientStep (h : Heap F) (s : State) : Option State :=
  match s.client with
  | .idle | .terminated => none
  | .start [] => some { s with client := .idle }
  | .start (w :: rest) => some
      { s with canTerminate := Function.update s.canTerminate w false, client := .create w rest }
  | .create w rest =>
      if s.worker w = .absent then some
        { s with worker := Function.update s.worker w .acquire, client := .start rest }
      else some { s with client := .terminated }
  | .push [] => some { s with client := .idle }
  | .push (n :: rest) =>
      (h.exec? n).bind fun e =>
        if e.group < s.dfg.groups.length then some { s.release e.group 1 with client := .push rest }
        else none
  | .waitResult => some { s with client := .idle }
  | .termStore (w :: rest) k groups clear => some
      { s with
        canTerminate := Function.update s.canTerminate w true
        client := .termStore rest k groups clear }
  | .termStore [] k groups clear => some { s with client := .termRelease k groups clear }
  | .termRelease k groups clear => some
      { s.release k (workersAt s.dfg k).length with
        client := .termJoin (workersAt s.dfg k) groups clear }
  | .termJoin (w :: rest) groups clear =>
      match s.worker w with
      | .absent => some { s with client := .termJoin rest groups clear }
      | .exited => some
          { s with
            worker := Function.update s.worker w .absent
            client := .termJoin rest groups clear }
      | _ => none
  | .termJoin [] groups clear => some { s with client := termNext s.dfg clear groups }
  | .clearNodes (k :: groups) => some
      { s with dfg := clearGroup s.dfg k, client := .clearNodes groups }
  | .clearNodes [] => some { s with client := .idle }

/-- The accesses of a worker.  `worker_process_queues` asserts that the group has a node. -/
def State.workerStep (s : State) (w : Worker) (permit : Option ℕ) : Option State :=
  match s.worker w with
  | .absent | .exited => none
  | .acquire =>
      if 0 < s.sem w.1 then some
        { s with
          sem := Function.update s.sem w.1 (s.sem w.1 - 1)
          worker := Function.update s.worker w .checkTerminate }
      else none
  | .checkTerminate => some
      { s with
        worker := Function.update s.worker w (if s.canTerminate w then .exited else .process) }
  | .process =>
      if nodesAt s.dfg w.1 = [] then none
      else match permit with
        | none => some { s with worker := Function.update s.worker w .acquire }
        | some k => if k < s.dfg.groups.length then some (s.release k 1) else none

/-- The call of a function by the client. -/
def State.call (h : Heap F) (s : State) : Action → Option State
  | .setGraph depth graph =>
      (tuDfgSetGraph depth h s.dfg graph).map fun dfg => { s with dfg := dfg }
  | .exec =>
      if s.dfg.graph = none then some s
      else some { s with client := .start ((groupsOf s.dfg).flatMap (workersAt s.dfg)) }
  | .pushData type =>
      (s.dfg.graph.bind h.graph?).map fun gr =>
        if gr.inputs.contains type then { s with client := .push (nodesOf gr.inputs type) } else s
  | .waitResult => if s.dfg.graph = none then none else some { s with client := .waitResult }
  | .term =>
      if s.dfg.graph = none then none
      else some { s with client := termNext s.dfg false (groupsOf s.dfg) }
  | .clear =>
      if s.dfg.graph = none then some s
      else some { s with client := termNext s.dfg true (groupsOf s.dfg) }
  | .client | .worker _ _ => none

/-- One step. -/
def step (h : Heap F) (s : State) : Action → Option State
  | .client => s.clientStep h
  | .worker w permit => s.workerStep w permit
  | a => if s.client = .idle then s.call h a else none

/-- A new dfg with its worker groups. -/
def IsInitial (s : State) : Prop :=
  (∃ threadCounts, s.dfg = newDfg threadCounts) ∧ (∀ k, s.sem k = 0) ∧
    (∀ w, s.canTerminate w = false) ∧ (∀ w, s.worker w = .absent) ∧ s.client = .idle

/-- The dfg, for graphs that were built. -/
def system (h : Heap F) : TransitionSystem State Action where
  init := IsInitial
  step := step h

/-! ## What a clear is for -/

/-- The step at which a call of `tu_dfg_clear` returns. -/
def ClearReturns (t : Transition State Action) : Prop :=
  t.source.client = .clearNodes [] ∧ t.target.client = .idle

/-- The dfg has no graph, cannot be started, and takes any graph whose registration ends. -/
structure Released (h : Heap F) (s : State) : Prop where
  graph : s.dfg.graph = none
  refused : step h s .exec = some s
  accepts : ∀ depth g s', step h s (.setGraph depth (some g)) = some s' → s'.dfg.graph = some g

/-- No node is in the list of a group twice. -/
def Distinct (dfg : TuDfg) : Prop :=
  ∀ k, (nodesAt dfg k).Nodup

/-- A worker enters `worker_process_queues`, and its group has no node. -/
def EntersEmpty (t : Transition State Action) : Prop :=
  ∃ w, t.source.worker w = .checkTerminate ∧ t.target.worker w = .process ∧
    nodesAt t.source.dfg w.1 = []

/-- What a run of the dfg should be like. -/
structure LifeCycleRight (h : Heap F) (trace : List (Transition State Action)) : Prop where
  released : ∀ t ∈ trace, ClearReturns t → Released h t.target
  distinct : ∀ t ∈ trace, Distinct t.target.dfg
  supplied : ∀ t ∈ trace, ¬ EntersEmpty t

/-! ## What the steps do to the groups and to the graph -/

/-- The dfg after a step: the client sets a graph or empties a list of nodes. -/
inductive DfgStep (h : Heap F) (dfg : TuDfg) : Action → TuDfg → Prop
  | same {a : Action} (hother : ∀ depth graph, a ≠ .setGraph depth graph) : DfgStep h dfg a dfg
  | set {depth : ℕ} {graph : Option Address} {dfg' : TuDfg}
      (hset : tuDfgSetGraph depth h dfg graph = some dfg') :
      DfgStep h dfg (.setGraph depth graph) dfg'
  | clear (k : ℕ) : DfgStep h dfg .client (clearGroup dfg k)

variable {s s' : State} {a : Action}

theorem dfgStep_of_call (hcall : s.call h a = some s') : DfgStep h s.dfg a s'.dfg := by
  cases a with
  | setGraph depth graph =>
    obtain ⟨dfg, hset, rfl⟩ := Option.map_eq_some_iff.mp hcall
    exact .set hset
  | exec =>
    simp only [State.call] at hcall
    split at hcall <;> cases hcall <;> exact .same nofun
  | pushData type =>
    obtain ⟨gr, -, heq⟩ := Option.map_eq_some_iff.mp hcall
    split at heq <;> cases heq <;> exact .same nofun
  | waitResult =>
    simp only [State.call] at hcall
    split at hcall <;> cases hcall
    exact .same nofun
  | term =>
    simp only [State.call] at hcall
    split at hcall <;> cases hcall
    exact .same nofun
  | clear =>
    simp only [State.call] at hcall
    split at hcall <;> cases hcall <;> exact .same nofun
  | client => cases hcall
  | worker w permit => cases hcall

theorem dfgStep_of_clientStep (hstep : s.clientStep h = some s') :
    DfgStep h s.dfg .client s'.dfg := by
  unfold State.clientStep at hstep
  cases hpc : s.client with
  | idle | terminated =>
    rw [hpc] at hstep
    cases hstep
  | waitResult | termRelease k groups clear =>
    rw [hpc] at hstep
    cases hstep
    exact .same nofun
  | start rest | termStore rest k groups clear =>
    rw [hpc] at hstep
    cases rest <;> cases hstep <;> exact .same nofun
  | create w rest =>
    rw [hpc] at hstep
    dsimp only at hstep
    split at hstep <;> cases hstep <;> exact .same nofun
  | push rest =>
    rw [hpc] at hstep
    cases rest with
    | nil =>
      cases hstep
      exact .same nofun
    | cons n rest =>
      obtain ⟨e, -, heq⟩ := Option.bind_eq_some_iff.mp hstep
      split at heq <;> cases heq
      exact .same nofun
  | termJoin rest groups clear =>
    rw [hpc] at hstep
    cases rest with
    | nil =>
      cases hstep
      exact .same nofun
    | cons w rest =>
      dsimp only at hstep
      split at hstep <;> cases hstep <;> exact .same nofun
  | clearNodes groups =>
    rw [hpc] at hstep
    cases groups with
    | nil =>
      cases hstep
      exact .same nofun
    | cons k groups =>
      cases hstep
      exact .clear k

theorem dfg_of_workerStep {w : Worker} {permit : Option ℕ}
    (hstep : s.workerStep w permit = some s') : s'.dfg = s.dfg := by
  unfold State.workerStep at hstep
  split at hstep
  · cases hstep
  · cases hstep
  · split at hstep <;> cases hstep
    rfl
  · cases hstep
    rfl
  · split at hstep
    · cases hstep
    · split at hstep
      · cases hstep
        rfl
      · split at hstep <;> cases hstep
        rfl

theorem dfgStep_of_step (hstep : step h s a = some s') : DfgStep h s.dfg a s'.dfg := by
  unfold step at hstep
  split at hstep
  · exact dfgStep_of_clientStep hstep
  · rw [dfg_of_workerStep hstep]
    exact .same nofun
  · split at hstep
    · exact dfgStep_of_call hstep
    · cases hstep

/-- **A graph that is set stays.** -/
theorem DfgStep.graph {dfg dfg' : TuDfg} {g : Address} (hd : DfgStep h dfg a dfg')
    (hg : dfg.graph = some g) : dfg'.graph = some g := by
  cases hd with
  | same => exact hg
  | clear k => exact hg
  | @set depth graph _ hset =>
    cases graph with
    | none =>
      cases hset
      exact hg
    | some graph =>
      rw [tuDfgSetGraph] at hset
      split at hset
      · cases hset
        exact hg
      · next hsame =>
        obtain ⟨groups, -, rfl⟩ := Option.map_eq_some_iff.mp hset
        -- it is the same graph again
        rw [hg, not_and, not_not] at hsame
        exact (hsame (Option.some_ne_none g)).symm

theorem graph_of_path {trace : List (Transition State Action)} {g : Address}
    (p : (system h).Path (fun _ _ => True) s trace s') (hg : s.dfg.graph = some g) :
    (∀ t ∈ trace, t.target.dfg.graph = some g) ∧ s'.dfg.graph = some g := by
  induction p with
  | nil => exact ⟨fun t ht => absurd ht List.not_mem_nil, hg⟩
  | snoc _ _ hstep ih =>
    have hlast := (dfgStep_of_step hstep).graph ih.2
    refine ⟨List.forall_mem_append.mpr ⟨ih.1, ?_⟩, hlast⟩
    exact List.forall_mem_singleton.mpr hlast

/-- **What a clear leaves**: the next start is not refused, and any other graph is. -/
theorem kept_of_clearReturns {trace : List (Transition State Action)} {g : Address}
    (p : (system h).Path (fun _ _ => True) s trace s') (hg : s.dfg.graph = some g)
    {t : Transition State Action} (ht : t ∈ trace) (hreturns : ClearReturns t) :
    (∃ workers, step h t.target .exec = some { t.target with client := .start workers }) ∧
      ∀ depth g', g' ≠ g → step h t.target (.setGraph depth (some g')) = some t.target := by
  have hgraph := (graph_of_path p hg).1 t ht
  constructor
  · refine ⟨(groupsOf t.target.dfg).flatMap (workersAt t.target.dfg), ?_⟩
    show (if t.target.client = .idle then t.target.call h .exec else none) = _
    rw [if_pos hreturns.2, State.call, if_neg (hgraph ▸ Option.some_ne_none g)]
  · intro depth g' hne
    show (if t.target.client = .idle then t.target.call h (.setGraph depth (some g')) else none) = _
    rw [if_pos hreturns.2, State.call, tuDfgSetGraph, if_pos, Option.map_some]
    rw [hgraph]
    exact ⟨Option.some_ne_none g, fun heq => hne (Option.some.inj heq).symm⟩

/-- **A clear does not release the graph**: no run that begins with a graph and in which
`tu_dfg_clear` returns is as it should be. -/
theorem not_lifeCycleRight {trace : List (Transition State Action)}
    (hgraph : s.dfg.graph ≠ none) (p : (system h).Path (fun _ _ => True) s trace s')
    (hclear : ∃ t ∈ trace, ClearReturns t) : ¬ LifeCycleRight h trace := by
  intro hright
  obtain ⟨g, hg⟩ := Option.ne_none_iff_exists'.mp hgraph
  obtain ⟨t, ht, hreturns⟩ := hclear
  have hnone := (hright.released t ht hreturns).graph
  rw [(graph_of_path p hg).1 t ht] at hnone
  cases hnone

/-! ## Nodes that are registered twice -/

/-- The node has a group. -/
def hasGroup (h : Heap F) (k : ℕ) (n : Address) : Bool := (h.exec? n).any fun e => e.group < k

/-- The nodes that `dfg_register_nodes` enters in `k` groups: those before the first one that is a
graph or has no group. -/
def enteredNodes (h : Heap F) (k : ℕ) (g : Address) : List Address :=
  ((h.graph? g).map fun gr => gr.nodes.takeWhile (hasGroup h k)).getD []

/-- A graph that is set is not refused, and none of its nodes is in the list of its group. -/
def RegistersNew (h : Heap F) (dfg : TuDfg) : Action → Prop
  | .setGraph _ (some g) => dfg.graph = none ∨ dfg.graph = some g →
      ∀ n ∈ enteredNodes h dfg.groups.length g, ∀ e, h.exec? n = some e →
        n ∉ nodesAt dfg e.group
  | _ => True

theorem hasGroup_iff {k : ℕ} {n : Address} :
    hasGroup h k n = true ↔ ∃ e, h.exec? n = some e ∧ e.group < k := by
  unfold hasGroup
  cases h.exec? n with
  | none => simp
  | some e => simp

/-- The loop goes over nodes that have a group. -/
theorem registerNodes_append {again : List WorkerGroup → Option (List WorkerGroup)}
    {groups groups' : List WorkerGroup} {ns ms : List Address}
    (hns : ∀ n ∈ ns, hasGroup h groups.length n = true)
    (hrun : registerNodes again h groups ns = some groups') :
    registerNodes again h groups (ns ++ ms) = registerNodes again h groups' ms := by
  induction ns generalizing groups with
  | nil =>
    obtain rfl := Option.some.inj hrun
    rfl
  | cons n ns ih =>
    obtain ⟨e, he, hlt⟩ := hasGroup_iff.mp (hns n List.mem_cons_self)
    rw [List.cons_append, registerNodes, Heap.exec?_eq_some.mp he]
    rw [registerNodes, Heap.exec?_eq_some.mp he] at hrun
    dsimp only at hrun ⊢
    rw [if_neg (not_le.mpr hlt)] at hrun ⊢
    refine ih (fun m hm => ?_) hrun
    rw [List.length_modify]
    exact hns m (List.mem_cons_of_mem _ hm)

/-- The first node without a group, if the loop comes to one. -/
theorem registerNodes_takeWhile (again : List WorkerGroup → Option (List WorkerGroup))
    (groups : List WorkerGroup) (ns : List Address) :
    ∃ groups', registerNodes again h groups ns =
        registerNodes again h groups' (ns.dropWhile (hasGroup h groups.length)) ∧
      groups'.length = groups.length ∧ ∀ i group', groups'[i]? = some group' →
        ∃ group, groups[i]? = some group ∧ group'.nodes = group.nodes ++
          (ns.takeWhile (hasGroup h groups.length)).filter
            fun n => (h.exec? n).any fun e => e.group = i := by
  have htake : ∀ n ∈ ns.takeWhile (hasGroup h groups.length),
      hasGroup h groups.length n = true := fun n hn => List.mem_takeWhile_imp hn
  obtain ⟨groups', hrun, hlen, hnodes⟩ :=
    registerNodes_flat again fun n hn => hasGroup_iff.mp (htake n hn)
  refine ⟨groups', ?_, hlen, hnodes⟩
  conv_lhs => rw [← List.takeWhile_append_dropWhile (p := hasGroup h groups.length) (l := ns)]
  exact registerNodes_append htake hrun

/-- The registration does not come past a graph. -/
theorem dfgRegisterNodes_nested {g n : Address} {gr sub : Builder.Graph} {ns : List Address} {k : ℕ}
    (hgr : h.graph? g = some gr) (hdrop : gr.nodes.dropWhile (hasGroup h k) = n :: ns)
    (hsub : h.graph? n = some sub) (depth : ℕ) {groups : List WorkerGroup}
    (hlen : groups.length = k) : dfgRegisterNodes depth h groups g = none := by
  induction depth generalizing groups with
  | zero => rfl
  | succ depth ih =>
    subst hlen
    rw [dfgRegisterNodes, hgr, Option.bind_some]
    obtain ⟨groups', hrun, hlen', -⟩ := registerNodes_takeWhile
      (fun groups' => dfgRegisterNodes depth h groups' g) groups gr.nodes
    rw [hrun, hdrop, registerNodes, Heap.graph?_eq_some.mp hsub]
    dsimp only
    rw [ih hlen']
    rfl

/-- **What a registration enters**, when it ends. -/
theorem nodes_of_dfgRegisterNodes {depth : ℕ} {groups groups' : List WorkerGroup} {g : Address}
    (hrun : dfgRegisterNodes depth h groups g = some groups') :
    groups'.length = groups.length ∧ ∀ i group', groups'[i]? = some group' →
      ∃ group, groups[i]? = some group ∧ group'.nodes = group.nodes ++
        (enteredNodes h groups.length g).filter
          fun n => (h.exec? n).any fun e => e.group = i := by
  cases depth with
  | zero => cases hrun
  | succ depth =>
    have hnested := hrun
    rw [dfgRegisterNodes] at hrun
    obtain ⟨gr, hgr, hloop⟩ := Option.bind_eq_some_iff.mp hrun
    obtain ⟨groups₁, heq, hlen, hnodes⟩ := registerNodes_takeWhile
      (fun groups' => dfgRegisterNodes depth h groups' g) groups gr.nodes
    rw [heq] at hloop
    have hsame : groups' = groups₁ := by
      cases hdrop : gr.nodes.dropWhile (hasGroup h groups.length) with
      | nil =>
        rw [hdrop] at hloop
        exact (Option.some.inj hloop).symm
      | cons n ns =>
        rw [hdrop, registerNodes] at hloop
        split at hloop
        · cases hloop
        · next e he =>
          have hnot : ¬ hasGroup h groups.length n = true := by
            have hhead := List.head_dropWhile_not (hasGroup h groups.length)
              (by rw [hdrop]; exact List.cons_ne_nil _ _)
            simp only [hdrop, List.head_cons] at hhead
            rw [hhead]
            exact Bool.false_ne_true
          rw [hasGroup_iff] at hnot
          rw [if_pos] at hloop
          · exact (Option.some.inj hloop).symm
          · rw [hlen]
            by_contra hlt
            exact hnot ⟨e, Heap.exec?_eq_some.mpr he, not_le.mp hlt⟩
        · next sub hsub =>
          rw [dfgRegisterNodes_nested hgr hdrop (Heap.graph?_eq_some.mpr hsub) _ rfl] at hnested
          cases hnested
    rw [hsame, enteredNodes, hgr]
    exact ⟨hlen, hnodes⟩

/-- The lists of nodes after a registration. -/
theorem nodesAt_of_dfgRegisterNodes {depth : ℕ} {dfg : TuDfg} {groups : List WorkerGroup}
    {g : Address} {graph : Option Address}
    (hrun : dfgRegisterNodes depth h dfg.groups g = some groups) (k : ℕ) :
    nodesAt ⟨groups, graph⟩ k = nodesAt dfg k ++
      (enteredNodes h dfg.groups.length g).filter
        fun n => (h.exec? n).any fun e => e.group = k := by
  obtain ⟨hlen, hnodes⟩ := nodes_of_dfgRegisterNodes hrun
  unfold nodesAt
  cases hk : groups[k]? with
  | some group' =>
    obtain ⟨group, hgroup, heq⟩ := hnodes k group' hk
    rw [hgroup]
    exact heq
  | none =>
    have hge : dfg.groups.length ≤ k := hlen ▸ List.getElem?_eq_none_iff.mp hk
    rw [List.getElem?_eq_none hge, eq_comm]
    refine List.filter_eq_nil_iff.mpr fun n hn => ?_
    -- a node that was entered has a group
    have hgroup : hasGroup h dfg.groups.length n = true := by
      unfold enteredNodes at hn
      cases hgr : h.graph? g with
      | none =>
        rw [hgr] at hn
        cases hn
      | some gr =>
        rw [hgr] at hn
        exact List.mem_takeWhile_imp hn
    obtain ⟨e, he, hlt⟩ := hasGroup_iff.mp hgroup
    rw [he, Option.any_some, decide_eq_true_eq]
    omega

theorem nodup_enteredNodes (hW : WellFormed h) (k : ℕ) (g : Address) :
    (enteredNodes h k g).Nodup := by
  unfold enteredNodes
  cases hgr : h.graph? g with
  | none => exact List.nodup_nil
  | some gr =>
    refine List.nodup_iff_count_le_one.mpr fun n => ?_
    by_cases hn : n ∈ gr.nodes.takeWhile (hasGroup h k)
    · obtain ⟨e, he, -⟩ := hasGroup_iff.mp (List.mem_takeWhile_imp hn)
      exact ((List.takeWhile_prefix _).sublist.count_le n).trans (hW.count_nodes g gr hgr n e he)
    · show List.count n (gr.nodes.takeWhile (hasGroup h k)) ≤ 1
      rw [List.count_eq_zero_of_not_mem hn]
      exact Nat.zero_le 1

/-- One registration. -/
theorem distinct_register_iff (hW : WellFormed h) {depth : ℕ} {dfg : TuDfg}
    {groups : List WorkerGroup} {g : Address} {graph : Option Address} (hdistinct : Distinct dfg)
    (hrun : dfgRegisterNodes depth h dfg.groups g = some groups) :
    Distinct ⟨groups, graph⟩ ↔ ∀ n ∈ enteredNodes h dfg.groups.length g,
      ∀ e, h.exec? n = some e → n ∉ nodesAt dfg e.group := by
  unfold Distinct
  simp only [nodesAt_of_dfgRegisterNodes hrun, List.nodup_append, hdistinct _,
    (nodup_enteredNodes hW _ g).filter, true_and]
  constructor
  · intro hapart n hn e he hmem
    exact hapart e.group n hmem n (List.mem_filter.mpr ⟨hn, by simp [he]⟩) rfl
  · rintro hnew k n hn m hm rfl
    obtain ⟨hentered, hgroup⟩ := List.mem_filter.mp hm
    cases he : h.exec? n with
    | none =>
      rw [he] at hgroup
      cases hgroup
    | some e =>
      rw [he, Option.any_some, decide_eq_true_eq] at hgroup
      exact hnew n hentered e he (hgroup ▸ hn)

theorem distinct_clearGroup {dfg : TuDfg} (hdistinct : Distinct dfg) (k : ℕ) :
    Distinct (clearGroup dfg k) := by
  intro i
  have hi := hdistinct i
  unfold nodesAt clearGroup at *
  rw [List.getElem?_modify]
  cases hgroup : dfg.groups[i]? with
  | none => exact List.nodup_nil
  | some group =>
    rw [hgroup] at hi
    by_cases hki : k = i
    · simp [hki]
    · simpa [hki] using hi

theorem distinct_iff_registersNew (hW : WellFormed h) (hdistinct : Distinct s.dfg)
    (hstep : step h s a = some s') : Distinct s'.dfg ↔ RegistersNew h s.dfg a := by
  have hd := dfgStep_of_step hstep
  generalize s'.dfg = dfg' at hd ⊢
  cases hd with
  | same hother =>
    refine iff_of_true hdistinct ?_
    cases a with
    | setGraph depth graph => exact absurd rfl (hother depth graph)
    | _ => trivial
  | clear k => exact iff_of_true (distinct_clearGroup hdistinct k) trivial
  | @set depth graph _ hset =>
    cases graph with
    | none =>
      cases hset
      exact iff_of_true hdistinct trivial
    | some g =>
      rw [tuDfgSetGraph] at hset
      split at hset
      · next hother =>
        cases hset
        refine iff_of_true hdistinct fun hsame => ?_
        rcases hsame with hnone | hsame
        · exact absurd hnone hother.1
        · exact absurd hsame hother.2
      · next hother =>
        obtain ⟨groups, hrun, rfl⟩ := Option.map_eq_some_iff.mp hset
        have hsame : s.dfg.graph = none ∨ s.dfg.graph = some g := by
          rw [not_and_or, not_not, not_not] at hother
          exact hother
        rw [distinct_register_iff hW hdistinct hrun]
        exact ⟨fun hnew _ => hnew, fun hnew => hnew hsame⟩

/-- **When no node is twice in a list**: in the runs where a graph is only set while none of its
nodes is in the list of its group. -/
theorem distinct_iff (hr : (Builder.system F).Reachable h) {trace : List (Transition State Action)}
    (hdistinct : Distinct s.dfg) (p : (system h).Path (fun _ _ => True) s trace s') :
    (∀ t ∈ trace, Distinct t.target.dfg) ↔
      ∀ t ∈ trace, RegistersNew h t.source.dfg t.action := by
  have hW := wellFormed_of_reaches hr
  refine p.forall_iff_forall (I := fun s => Distinct s.dfg) hdistinct fun u a u' hu _ hstep => ?_
  have hiff := distinct_iff_registersNew hW hu hstep
  by_cases hnew : RegistersNew h u.dfg a
  · exact Or.inl ⟨hiff.mpr hnew, hnew, hiff.mpr hnew⟩
  · exact Or.inr ⟨fun hu' => hnew (hiff.mp hu'), hnew⟩

/-! ## Runs -/

/-- A dfg with one worker. -/
def initial : State :=
  ⟨newDfg [1], fun _ => 0, fun _ => false, fun _ => .absent, .idle⟩

theorem isInitial_initial : IsInitial initial :=
  ⟨⟨[1], rfl⟩, fun _ => rfl, fun _ => rfl, fun _ => rfl, rfl⟩

/-- The graph `0` with one task is set. -/
def graphSet : State := (system flatHeap).replay initial [.setGraph 1 (some 0)]

theorem reachable_graphSet : (system flatHeap).Reachable graphSet :=
  .replay (.start isInitial_initial) _ (by decide)

/-- `tu_dfg_exec` and `tu_dfg_clear`: the worker takes the permit and comes to its end. -/
def execClear : List Action :=
  [.exec, .client, .client, .client, .clear, .client, .client, .client, .worker (0, 0) none,
    .worker (0, 0) none, .client, .client, .client, .client]

theorem not_lifeCycleRight_execClear :
    ¬ LifeCycleRight flatHeap ((system flatHeap).traceOf graphSet execClear) :=
  not_lifeCycleRight (by decide) (.replay execClear (by decide))
    ⟨_, List.mem_of_getLast? rfl, rfl, rfl⟩

/-- The graph is set once more before the workers are started.  Nobody takes the permits that the
clear releases, and after it the worker is started. -/
def setTwice : List Action :=
  [.setGraph 1 (some 0), .clear, .client, .client, .client, .client, .client, .client, .client,
    .exec, .client, .client, .client, .worker (0, 0) none, .worker (0, 0) none]

/-- **After a clear the dfg is started without nodes**: the graph is still set, its task was
registered twice, and a worker enters the empty list. -/
theorem not_lifeCycleRight_twice : (system flatHeap).Reachable graphSet ∧
    graphSet.dfg.graph ≠ none ∧ ((system flatHeap).run graphSet setTwice).isSome ∧
    (∃ t ∈ (system flatHeap).traceOf graphSet setTwice,
      ClearReturns t ∧ ¬ Released flatHeap t.target) ∧
    (∃ t ∈ (system flatHeap).traceOf graphSet setTwice, ¬ Distinct t.target.dfg) ∧
    (∃ t ∈ (system flatHeap).traceOf graphSet setTwice, EntersEmpty t) ∧
    ¬ LifeCycleRight flatHeap ((system flatHeap).traceOf graphSet setTwice) := by
  have hdistinct : ∃ t ∈ (system flatHeap).traceOf graphSet setTwice, ¬ Distinct t.target.dfg :=
    ⟨_, List.mem_of_getElem? (i := 0) rfl, fun hdistinct => absurd (hdistinct 0) (by decide)⟩
  refine ⟨reachable_graphSet, by decide, by decide, ?_, hdistinct, ?_, fun hright => ?_⟩
  · refine ⟨_, List.mem_of_getElem? (i := 8) rfl, ⟨rfl, rfl⟩, fun hreleased => ?_⟩
    exact absurd hreleased.graph (by decide)
  · exact ⟨_, List.mem_of_getElem? (i := 14) rfl, (0, 0), by decide, by decide, by decide⟩
  · obtain ⟨t, ht, hnot⟩ := hdistinct
    exact hnot (hright.distinct t ht)

end LifeCycle
end Dfg
end ThreadUtils
