import ThreadUtils.Dfg.Builder.WellFormed

/-!
# The registration of a graph

`tu_dfg_set_graph` enters the nodes of a graph in the worker groups.  For a node that is a graph
`dfg_register_nodes` calls itself, but with the graph that it is working on and not with the
nested one: `dfg_register_nodes(dfg, (Graph *)graph)`.  A call that comes to a nested graph
begins again from the first node, and never returns.

## Returning at some depth

The recursion is bounded by a depth, and a call that reaches the bound has no outcome.  A call of
the source returns if it has an outcome at some depth, and it does not return if it has none at any
depth, so that the theorem is about the termination as well and does not fix a depth.  The second is
an induction on the depth: the inner call begins with other groups, but with the same graph, and
comes to the same nested graph unless it was refused before.

Exact means that each node of the graph, those of the nested graphs included, is registered in its
group once, and no other node is.

* `tuDfgSetGraph_iff` --- the registration terminates, and is exact, exactly when the graph has
  no nested graph.
-/

namespace ThreadUtils
namespace Dfg
namespace Builder

variable {F : Type*} {h : Heap F}

/-- `TU_DfgWorkerGroup`: the registered nodes, and for each worker the keys of
`prof_infos.exec_dur`. -/
structure WorkerGroup where
  nodes : List Address
  execDur : List (Finset Address)
  deriving DecidableEq

/-- `group->nodes.push_back(node)`, and `exec_dur[node] = {}` for the workers. -/
def WorkerGroup.register (group : WorkerGroup) (n : Address) : WorkerGroup :=
  ⟨group.nodes ++ [n], group.execDur.map (insert n)⟩

/-- `TU_Dfg`. -/
structure TuDfg where
  groups : List WorkerGroup
  graph : Option Address
  deriving DecidableEq

/-- `tu_dfg_create`. -/
def tuDfgCreate : TuDfg := ⟨[], none⟩

/-- `tu_dfg_add_worker_group`. -/
def tuDfgAddWorkerGroup (dfg : TuDfg) (threadCount : ℕ) : TuDfg :=
  { dfg with groups := dfg.groups ++ [⟨[], List.replicate threadCount ∅⟩] }

/-- The loop of `dfg_register_nodes`, with the recursive call.  An invalid group ends it. -/
def registerNodes (again : List WorkerGroup → Option (List WorkerGroup)) (h : Heap F) :
    List WorkerGroup → List Address → Option (List WorkerGroup)
  | groups, [] => some groups
  | groups, n :: ns =>
      match h n with
      | none => none
      | some (.exec e) =>
          if groups.length ≤ e.group then some groups
          else registerNodes again h (groups.modify e.group (·.register n)) ns
      | some (.graph _) => (again groups).bind fun groups' => registerNodes again h groups' ns

/-- `dfg_register_nodes`, with at most `depth` nested calls. -/
def dfgRegisterNodes : ℕ → Heap F → List WorkerGroup → Address → Option (List WorkerGroup)
  | 0, _, _, _ => none
  | depth + 1, h, groups, graph =>
      (h.graph? graph).bind fun gr =>
        registerNodes (fun groups' => dfgRegisterNodes depth h groups' graph) h groups gr.nodes

/-- `tu_dfg_set_graph`. -/
def tuDfgSetGraph (depth : ℕ) (h : Heap F) (dfg : TuDfg) : Option Address → Option TuDfg
  | none => some dfg
  | some graph =>
      if dfg.graph ≠ none ∧ dfg.graph ≠ some graph then some dfg
      else (dfgRegisterNodes depth h dfg.groups graph).map fun groups => ⟨groups, some graph⟩

/-- The executable nodes of a graph and of the graphs nested in it. -/
inductive NodeOf (h : Heap F) : Address → Address → Prop
  | own {g n : Address} {gr : Graph} {e : ExecNode F} : h.graph? g = some gr → n ∈ gr.nodes →
      h.exec? n = some e → NodeOf h g n
  | nested {g sub n : Address} {gr gr' : Graph} : h.graph? g = some gr → sub ∈ gr.nodes →
      h.graph? sub = some gr' → NodeOf h sub n → NodeOf h g n

/-- All executable nodes have one of `k` groups. -/
def ValidGroups (h : Heap F) (k : ℕ) (g : Address) : Prop :=
  ∀ n e, NodeOf h g n → h.exec? n = some e → e.group < k

/-- Each group has each of its nodes once, and nothing else. -/
structure Registered (h : Heap F) (g : Address) (dfg : TuDfg) : Prop where
  once : ∀ i group, dfg.groups[i]? = some group → ∀ n e, NodeOf h g n → h.exec? n = some e →
    e.group = i → group.nodes.count n = 1
  exact : ∀ i group, dfg.groups[i]? = some group → ∀ n ∈ group.nodes,
    NodeOf h g n ∧ ∃ e, h.exec? n = some e ∧ e.group = i

/-- The nodes of the groups after the loop, when no node is a graph. -/
theorem registerNodes_flat (again : List WorkerGroup → Option (List WorkerGroup))
    {ns : List Address} {groups : List WorkerGroup}
    (hns : ∀ n ∈ ns, ∃ e, h.exec? n = some e ∧ e.group < groups.length) :
    ∃ groups', registerNodes again h groups ns = some groups' ∧
      groups'.length = groups.length ∧ ∀ i group', groups'[i]? = some group' →
        ∃ group, groups[i]? = some group ∧ group'.nodes = group.nodes ++
          ns.filter fun n => (h.exec? n).any fun e => e.group = i := by
  induction ns generalizing groups with
  | nil => exact ⟨groups, rfl, rfl, fun i group hi => ⟨group, hi, by simp⟩⟩
  | cons n ns ih =>
    obtain ⟨e, he, hlt⟩ := hns n List.mem_cons_self
    have hmodify : ∀ m ∈ ns, ∃ e', h.exec? m = some e' ∧
        e'.group < (groups.modify e.group (·.register n)).length := by
      intro m hm
      rw [List.length_modify]
      exact hns m (List.mem_cons_of_mem _ hm)
    obtain ⟨groups', hrun, hlen, hnodes⟩ := ih hmodify
    refine ⟨groups', ?_, by rw [hlen, List.length_modify], fun i group' hi => ?_⟩
    · rw [registerNodes, Heap.exec?_eq_some.mp he]
      exact (if_neg (not_le.mpr hlt)).trans hrun
    · obtain ⟨group₁, hi₁, heq⟩ := hnodes i group' hi
      rw [List.getElem?_modify] at hi₁
      obtain ⟨group, hgroup, hmodify⟩ := Option.map_eq_some_iff.mp hi₁
      refine ⟨group, hgroup, ?_⟩
      rw [heq, ← hmodify, List.filter_cons, he]
      by_cases hgi : e.group = i
      · simp [hgi, WorkerGroup.register]
      · simp [hgi]

/-- The loop does not come past a graph. -/
theorem registerNodes_eq_none {again : List WorkerGroup → Option (List WorkerGroup)}
    {ns : List Address} {groups : List WorkerGroup}
    (hagain : ∀ groups', groups'.length = groups.length → again groups' = none)
    (hns : ∀ n ∈ ns, ∀ e, h.exec? n = some e → e.group < groups.length)
    (hsub : ∃ sub ∈ ns, ∃ gr, h.graph? sub = some gr) :
    registerNodes again h groups ns = none := by
  induction ns generalizing groups with
  | nil =>
    obtain ⟨sub, hmem, -⟩ := hsub
    cases hmem
  | cons n ns ih =>
    unfold registerNodes
    split
    · rfl
    · next e he =>
      have he' := Heap.exec?_eq_some.mpr he
      rw [if_neg (not_le.mpr (hns n List.mem_cons_self e he'))]
      refine ih (fun groups' hlen => ?_) (fun m hm => ?_) ?_
      · rw [List.length_modify] at hlen
        exact hagain groups' hlen
      · rw [List.length_modify]
        exact hns m (List.mem_cons_of_mem _ hm)
      · obtain ⟨sub, hmem, gr, hgr⟩ := hsub
        rcases List.mem_cons.mp hmem with rfl | hmem
        · rw [Heap.graph?_of_exec? he'] at hgr
          cases hgr
        · exact ⟨sub, hmem, gr, hgr⟩
    · rw [hagain groups rfl]
      rfl

/-- The groups that `tu_dfg_add_worker_group` has made have no nodes. -/
theorem nodes_of_addWorkerGroup {threadCounts : List ℕ} {dfg : TuDfg}
    (hdfg : ∀ group ∈ dfg.groups, group.nodes = []) :
    ∀ group ∈ (threadCounts.foldl tuDfgAddWorkerGroup dfg).groups, group.nodes = [] := by
  induction threadCounts generalizing dfg with
  | nil => exact hdfg
  | cons threadCount threadCounts ih =>
    refine ih fun group hgroup => ?_
    rcases List.mem_append.mp hgroup with hgroup | hgroup
    · exact hdfg group hgroup
    · rw [List.mem_singleton.mp hgroup]

theorem graph_of_addWorkerGroup (threadCounts : List ℕ) (dfg : TuDfg) :
    (threadCounts.foldl tuDfgAddWorkerGroup dfg).graph = dfg.graph := by
  induction threadCounts generalizing dfg with
  | nil => rfl
  | cons threadCount threadCounts ih => exact ih _

/-- A new dfg with worker groups of the given sizes. -/
def newDfg (threadCounts : List ℕ) : TuDfg :=
  threadCounts.foldl tuDfgAddWorkerGroup tuDfgCreate

/-- The groups have executable nodes of the graph, each in the group of its index. -/
def OnlyNodes (h : Heap F) (g : Address) (groups : List WorkerGroup) : Prop :=
  ∀ i group, groups[i]? = some group → ∀ n ∈ group.nodes,
    NodeOf h g n ∧ ∃ e, h.exec? n = some e ∧ e.group = i

theorem OnlyNodes.register {g n : Address} {groups : List WorkerGroup} {e : ExecNode F}
    (hgroups : OnlyNodes h g groups) (hn : NodeOf h g n) (he : h.exec? n = some e) :
    OnlyNodes h g (groups.modify e.group (·.register n)) := by
  intro i group' hi m hm
  rw [List.getElem?_modify] at hi
  obtain ⟨group, hgroup, rfl⟩ := Option.map_eq_some_iff.mp hi
  split at hm
  · next heq =>
    rcases List.mem_append.mp hm with hm | hm
    · exact hgroups i group hgroup m hm
    · rw [List.mem_singleton.mp hm]
      exact ⟨hn, e, he, heq⟩
  · exact hgroups i group hgroup m hm

/-- The loop registers nodes of the graph only. -/
theorem OnlyNodes.registerNodes {g : Address}
    {again : List WorkerGroup → Option (List WorkerGroup)}
    (hagain : ∀ groups groups', OnlyNodes h g groups → again groups = some groups' →
      OnlyNodes h g groups') {ns : List Address}
    (hns : ∀ n ∈ ns, ∀ e, h.exec? n = some e → NodeOf h g n) {groups groups' : List WorkerGroup}
    (hgroups : OnlyNodes h g groups)
    (hrun : Builder.registerNodes again h groups ns = some groups') : OnlyNodes h g groups' := by
  induction ns generalizing groups with
  | nil =>
    obtain rfl := Option.some.inj hrun
    exact hgroups
  | cons n ns ih =>
    have hns' : ∀ m ∈ ns, ∀ e, h.exec? m = some e → NodeOf h g m :=
      fun m hm => hns m (List.mem_cons_of_mem _ hm)
    unfold Builder.registerNodes at hrun
    split at hrun
    · cases hrun
    · next e he =>
      have he' := Heap.exec?_eq_some.mpr he
      split at hrun
      · obtain rfl := Option.some.inj hrun
        exact hgroups
      · exact ih hns' (hgroups.register (hns n List.mem_cons_self e he') he') hrun
    · obtain ⟨groups₁, hcall, hrest⟩ := Option.bind_eq_some_iff.mp hrun
      exact ih hns' (hagain groups groups₁ hgroups hcall) hrest

theorem OnlyNodes.dfgRegisterNodes {g : Address} {depth : ℕ} {groups groups' : List WorkerGroup}
    (hgroups : OnlyNodes h g groups)
    (hrun : Builder.dfgRegisterNodes depth h groups g = some groups') :
    OnlyNodes h g groups' := by
  induction depth generalizing groups groups' with
  | zero => cases hrun
  | succ depth ih =>
    obtain ⟨gr, hgr, hloop⟩ := Option.bind_eq_some_iff.mp hrun
    exact hgroups.registerNodes (fun _ _ => ih) (fun n hn e he => .own hgr hn he) hloop

/-- **What a new dfg registers** are nodes of the graph. -/
theorem onlyNodes_of_tuDfgSetGraph {g : Address} {threadCounts : List ℕ} {depth : ℕ} {dfg : TuDfg}
    (hrun : tuDfgSetGraph depth h (newDfg threadCounts) (some g) = some dfg) :
    OnlyNodes h g dfg.groups := by
  have hempty : OnlyNodes h g (newDfg threadCounts).groups := by
    intro i group hi n hn
    rw [nodes_of_addWorkerGroup (by simp [tuDfgCreate]) group (List.mem_of_getElem? hi)] at hn
    cases hn
  rw [tuDfgSetGraph] at hrun
  split at hrun
  · obtain rfl := Option.some.inj hrun
    exact hempty
  · obtain ⟨groups, hloop, rfl⟩ := Option.map_eq_some_iff.mp hrun
    exact hempty.dfgRegisterNodes hloop

/-- A graph without nested graphs is registered. -/
theorem registered_of_flat {g : Address} {gr : Graph} {threadCounts : List ℕ} (hW : WellFormed h)
    (hgr : h.graph? g = some gr) (hflat : ∀ n ∈ gr.nodes, h.graph? n = none)
    (hvalid : ValidGroups h (newDfg threadCounts).groups.length g) :
    ∃ depth dfg, tuDfgSetGraph depth h (newDfg threadCounts) (some g) = some dfg ∧
      Registered h g dfg := by
  have hexec : ∀ n ∈ gr.nodes, ∃ e, h.exec? n = some e ∧
      e.group < (newDfg threadCounts).groups.length := by
    intro n hn
    rcases hW.nodes g gr hgr n hn with ⟨e, he, -⟩ | ⟨sub, hsub⟩
    · exact ⟨e, he, hvalid n e (.own hgr hn he) he⟩
    · rw [hflat n hn] at hsub
      cases hsub
  have hnodeOf : ∀ n, NodeOf h g n ↔ n ∈ gr.nodes := by
    intro n
    constructor
    · intro hn
      cases hn with
      | own hgr' hn _ =>
        obtain rfl := Option.some.inj (hgr.symm.trans hgr')
        exact hn
      | nested hgr' hsub hgr'' _ =>
        obtain rfl := Option.some.inj (hgr.symm.trans hgr')
        rw [hflat _ hsub] at hgr''
        cases hgr''
    · intro hn
      obtain ⟨e, he, -⟩ := hexec n hn
      exact .own hgr hn he
  obtain ⟨groups', hrun, hlen, hnodes⟩ :=
    registerNodes_flat (fun groups' => dfgRegisterNodes 0 h groups' g) hexec
  have hempty : ∀ i group', groups'[i]? = some group' →
      group'.nodes = gr.nodes.filter fun n => (h.exec? n).any fun e => e.group = i := by
    intro i group' hi
    obtain ⟨group, hgroup, heq⟩ := hnodes i group' hi
    rw [heq, nodes_of_addWorkerGroup (by simp [tuDfgCreate]) group (List.mem_of_getElem? hgroup),
      List.nil_append]
  have hset : tuDfgSetGraph 1 h (newDfg threadCounts) (some g) = some ⟨groups', some g⟩ := by
    rw [tuDfgSetGraph, if_neg]
    · rw [dfgRegisterNodes, hgr]
      exact congrArg (Option.map fun groups => (⟨groups, some g⟩ : TuDfg)) hrun
    · rw [newDfg, graph_of_addWorkerGroup]
      exact fun hne => hne.1 rfl
  refine ⟨1, _, hset, fun i group hi n e hn he hgroup => ?_, onlyNodes_of_tuDfgSetGraph hset⟩
  have hmem := (hnodeOf n).mp hn
  rw [hempty i group hi, List.count_filter (by simp [he, hgroup])]
  exact le_antisymm (hW.count_nodes g gr hgr n e he) (List.one_le_count_iff.mpr hmem)

/-- A graph that has a nested graph is not registered, however many calls are nested. -/
theorem dfgRegisterNodes_eq_none {g : Address} {gr : Graph} (hgr : h.graph? g = some gr)
    (hsub : ∃ sub ∈ gr.nodes, ∃ gr', h.graph? sub = some gr') {groups : List WorkerGroup}
    (hvalid : ValidGroups h groups.length g) (depth : ℕ) :
    dfgRegisterNodes depth h groups g = none := by
  induction depth generalizing groups with
  | zero => rfl
  | succ depth ih =>
    rw [dfgRegisterNodes, hgr]
    exact registerNodes_eq_none (fun groups' hlen => ih (hlen ▸ hvalid))
      (fun n hn e he => hvalid n e (.own hgr hn he) he) hsub

/-- **When the registration terminates and is exact**: when the graph has no nested graph. -/
theorem tuDfgSetGraph_iff {ok : Heap F → Action F → Prop} (hr : (system F).Reaches ok h)
    (threadCounts : List ℕ) (g : Address) (gr : Graph) (hgr : h.graph? g = some gr)
    (hvalid : ValidGroups h (newDfg threadCounts).groups.length g) :
    (∃ depth dfg, tuDfgSetGraph depth h (newDfg threadCounts) (some g) = some dfg ∧
      Registered h g dfg) ↔ ∀ n ∈ gr.nodes, h.graph? n = none := by
  constructor
  · rintro ⟨depth, dfg, hrun, -⟩ n hn
    by_contra hne
    obtain ⟨gr', hgr'⟩ := Option.ne_none_iff_exists'.mp hne
    rw [tuDfgSetGraph, dfgRegisterNodes_eq_none hgr ⟨n, hn, gr', hgr'⟩ hvalid, if_neg] at hrun
    · cases hrun
    · rw [newDfg, graph_of_addWorkerGroup]
      exact fun hne => hne.1 rfl
  · exact fun hflat => registered_of_flat (wellFormed_of_reaches hr) hgr hflat hvalid

/-- A graph with a task in the group `0`, and another graph. -/
def flatCalls : List (Action Unit) :=
  [⟨.graphCreate 0 .empty .empty, 1⟩, ⟨.graphCreate 1 .empty .empty, 1⟩,
    ⟨.task 2 (some 0) .empty .empty 0 1, 1⟩]

def flatHeap : Heap Unit := (system Unit).replay .empty flatCalls

theorem reachable_flatHeap : (system Unit).Reachable flatHeap :=
  .replay (.start rfl) _ (by decide)

theorem validGroups_flatHeap : ValidGroups flatHeap 1 0 := by
  rintro (_ | _ | _ | n) e - he
  all_goals cases he
  exact Nat.one_pos

theorem tuDfgSetGraph_iff_flat : ∃ depth dfg,
    tuDfgSetGraph depth flatHeap (newDfg [2]) (some 0) = some dfg ∧ Registered flatHeap 0 dfg :=
  (tuDfgSetGraph_iff reachable_flatHeap [2] 0 ⟨[2], .const .empty .empty, .const .empty .empty⟩ rfl
    validGroups_flatHeap).mpr fun n hn => by
      obtain rfl := List.mem_singleton.mp hn
      rfl

/-- The other graph is nested in the first one. -/
def nestedHeap : Heap Unit :=
  (system Unit).replay .empty (flatCalls ++ [⟨.subGraph 0 1, 1⟩])

/-- **A graph with a nested one is not registered.** -/
theorem not_registered_nested : (system Unit).Reachable nestedHeap ∧
    ValidGroups nestedHeap (newDfg [2]).groups.length 0 ∧
    ¬ ∃ depth dfg, tuDfgSetGraph depth nestedHeap (newDfg [2]) (some 0) = some dfg ∧
      Registered nestedHeap 0 dfg := by
  have hvalid : ValidGroups nestedHeap (newDfg [2]).groups.length 0 := by
    rintro (_ | _ | _ | n) e - he
    all_goals cases he
    exact Nat.one_pos
  refine ⟨.replay (.start rfl) _ (by decide), hvalid, ?_⟩
  rintro ⟨depth, dfg, hrun, -⟩
  have hgr : nestedHeap.graph? 0 =
      some ⟨[2, 1], .const .empty .empty, .const .empty .empty⟩ := rfl
  have hnone := dfgRegisterNodes_eq_none hgr
    ⟨1, by decide, ⟨[], .const .empty .empty, .const .empty .empty⟩, rfl⟩ hvalid depth
  rw [tuDfgSetGraph, hnone] at hrun
  cases hrun

end Builder
end Dfg
end ThreadUtils
