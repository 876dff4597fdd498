import Mathlib.Algebra.Ring.Nat
import ThreadUtils.Dfg.Builder.Registration

/-!
# Rejected graphs

`tu_dfg_set_graph` reports an error when another graph is set, and `dfg_register_nodes` reports
one at a node with an invalid group.  By then the graph is set and the nodes before it are in
their groups, and nothing is taken back.  Here the functions of the registration come with what
they report.

## What a rejected call should leave behind

Two things are asked of a dfg after a call that was refused: it is what it was before, and no
datum that is pushed into it later meets a node whose group does not exist.  The second does not
follow from the first.  A call may be refused and change nothing in a dfg that an earlier refused
call has already spoilt, and then `tu_dfg_push_data` looks up a group out of range all the same.
So `InRange` stands on both sides of the equivalence: of the dfg after the call in what is asked,
and of the dfg before the call in the condition.

## Why the first node decides

The loop registers node after node and stops at the first error, so a refused call that registers
nothing has failed at the first node.  The count of the registered nodes never goes down
(`registeredCount_le_reportNodes`), not even through the recursive calls, and one registration
raises it.  A graph whose first node is a graph is no exception: `dfg_register_nodes` calls itself
for the same graph and never returns (`dfgReportNodes_eq_none`).

* `tuDfgSetGraph_unchanged_iff` --- a call that reports an error leaves the dfg as it was and in
  range exactly if another graph is set, or the graph was set already and its first node is the
  invalid one, and the dfg was in range before.
-/

namespace ThreadUtils
namespace Dfg
namespace Builder

variable {F : Type*} {h : Heap F}

/-- The errors of `tu_dfg_set_graph`. -/
inductive SetGraphError where
  /-- `cannot execute graph .., dfg must be cleared before.` -/
  | mustBeCleared (graph : Address)
  /-- `cannot register node .. group .. in dfg.` -/
  | cannotRegister (node : Address) (group : ℕ)
  | nullPointer
  deriving DecidableEq

/-- The groups after a call of `dfg_register_nodes`, and what it reports. -/
abbrev Registering := Option (List WorkerGroup × List SetGraphError)

/-- The loop of `dfg_register_nodes`.  The return from a recursive call does not end it. -/
def reportNodes (again : List WorkerGroup → Registering) (h : Heap F) :
    List WorkerGroup → List Address → Registering
  | groups, [] => some (groups, [])
  | groups, n :: ns =>
      match h n with
      | none => none
      | some (.exec e) =>
          if groups.length ≤ e.group then some (groups, [.cannotRegister n e.group])
          else reportNodes again h (groups.modify e.group (·.register n)) ns
      | some (.graph _) => (again groups).bind fun r =>
          (reportNodes again h r.1 ns).map fun r' => (r'.1, r.2 ++ r'.2)

/-- `dfg_register_nodes`. -/
def dfgReportNodes : ℕ → Heap F → List WorkerGroup → Address → Registering
  | 0, _, _, _ => none
  | depth + 1, h, groups, graph =>
      (h.graph? graph).bind fun gr =>
        reportNodes (fun groups' => dfgReportNodes depth h groups' graph) h groups gr.nodes

/-- `tu_dfg_set_graph`. -/
def tuDfgSetGraphReport (depth : ℕ) (h : Heap F) (dfg : TuDfg) :
    Option Address → Option (TuDfg × List SetGraphError)
  | none => some (dfg, [.nullPointer])
  | some graph =>
      if dfg.graph ≠ none ∧ dfg.graph ≠ some graph then some (dfg, [.mustBeCleared graph])
      else (dfgReportNodes depth h dfg.groups graph).map fun r => (⟨r.1, some graph⟩, r.2)

/-- The nodes whose groups `tu_dfg_push_data` and `tu_result` look up, for the graph `g`. -/
inductive LookedUp (h : Heap F) (g : Address) : Address → Prop
  | input {gr : Graph} {type : TypeId} {n : Address} : h.graph? g = some gr →
      n ∈ nodesOf gr.inputs type → LookedUp h g n
  | successor {n m : Address} {e : ExecNode F} {type : TypeId} {output : ExecNodeOutput} :
      LookedUp h g n → h.exec? n = some e → e.outputs.find? type = some output →
      m ∈ output.nodes → LookedUp h g m

/-- `groups[node->group]` is never out of range. -/
def InRange (h : Heap F) (dfg : TuDfg) : Prop :=
  ∀ g, dfg.graph = some g → ∀ n e, LookedUp h g n → h.exec? n = some e →
    e.group < dfg.groups.length

/-! ## The reports add nothing to what is done -/

theorem map_fst_reportNodes {again : List WorkerGroup → Registering}
    {again' : List WorkerGroup → Option (List WorkerGroup)}
    (hagain : ∀ groups, (again groups).map Prod.fst = again' groups) (groups : List WorkerGroup)
    (ns : List Address) :
    (reportNodes again h groups ns).map Prod.fst = registerNodes again' h groups ns := by
  induction ns generalizing groups with
  | nil => rfl
  | cons n ns ih =>
    rw [reportNodes, registerNodes]
    cases h n with
    | none => rfl
    | some object =>
      cases object with
      | exec e =>
        dsimp only
        split
        · rfl
        · exact ih _
      | graph gr =>
        rw [← hagain groups]
        cases again groups with
        | none => rfl
        | some r =>
          show ((reportNodes again h r.1 ns).map fun r' => (r'.1, r.2 ++ r'.2)).map Prod.fst =
            registerNodes again' h r.1 ns
          rw [← ih r.1, Option.map_map]
          rfl

theorem map_fst_dfgReportNodes (depth : ℕ) (groups : List WorkerGroup) (g : Address) :
    (dfgReportNodes depth h groups g).map Prod.fst = dfgRegisterNodes depth h groups g := by
  induction depth generalizing groups with
  | zero => rfl
  | succ depth ih =>
    rw [dfgReportNodes, dfgRegisterNodes]
    cases h.graph? g with
    | none => rfl
    | some gr => exact map_fst_reportNodes ih groups gr.nodes

/-- **What is reported, and what is done.** -/
theorem map_fst_tuDfgSetGraphReport (depth : ℕ) (h : Heap F) (dfg : TuDfg) (g : Option Address) :
    (tuDfgSetGraphReport depth h dfg g).map Prod.fst = tuDfgSetGraph depth h dfg g := by
  cases g with
  | none => rfl
  | some graph =>
    rw [tuDfgSetGraphReport, tuDfgSetGraph]
    split
    · rfl
    · rw [← map_fst_dfgReportNodes, Option.map_map, Option.map_map]
      rfl

/-! ## Nothing is taken back -/

/-- How many nodes are registered. -/
def registeredCount (groups : List WorkerGroup) : ℕ :=
  (groups.map fun group => group.nodes.length).sum

theorem registeredCount_modify {groups : List WorkerGroup} {i : ℕ} (n : Address)
    (hi : i < groups.length) :
    registeredCount (groups.modify i (·.register n)) = registeredCount groups + 1 := by
  unfold registeredCount
  induction groups generalizing i with
  | nil => exact absurd hi (Nat.not_lt_zero i)
  | cons group groups ih =>
    cases i with
    | zero =>
      rw [List.modify_zero_cons, List.map_cons, List.map_cons, List.sum_cons, List.sum_cons]
      have hlen : (group.register n).nodes.length = group.nodes.length + 1 := List.length_append
      omega
    | succ i =>
      have hrest := ih (Nat.lt_of_succ_lt_succ hi)
      rw [List.modify_succ_cons, List.map_cons, List.map_cons, List.sum_cons, List.sum_cons, hrest]
      omega

theorem registeredCount_le_reportNodes {again : List WorkerGroup → Registering}
    (hagain : ∀ groups r, again groups = some r → registeredCount groups ≤ registeredCount r.1)
    {groups : List WorkerGroup} {ns : List Address} {r : List WorkerGroup × List SetGraphError}
    (hrun : reportNodes again h groups ns = some r) :
    registeredCount groups ≤ registeredCount r.1 := by
  induction ns generalizing groups r with
  | nil =>
    obtain rfl := Option.some.inj hrun
    exact le_rfl
  | cons n ns ih =>
    unfold reportNodes at hrun
    split at hrun
    · cases hrun
    · next e he =>
      split at hrun
      · obtain rfl := Option.some.inj hrun
        exact le_rfl
      · next hlt =>
        have hmodify := registeredCount_modify n (not_le.mp hlt)
        have hrest := ih hrun
        omega
    · obtain ⟨r₁, hcall, hrest⟩ := Option.bind_eq_some_iff.mp hrun
      obtain ⟨r₂, hloop, rfl⟩ := Option.map_eq_some_iff.mp hrest
      have hrest := ih hloop
      exact (hagain groups r₁ hcall).trans hrest

theorem registeredCount_le_dfgReportNodes {depth : ℕ} {groups : List WorkerGroup} {g : Address}
    {r : List WorkerGroup × List SetGraphError}
    (hrun : dfgReportNodes depth h groups g = some r) :
    registeredCount groups ≤ registeredCount r.1 := by
  induction depth generalizing groups r with
  | zero => cases hrun
  | succ depth ih =>
    obtain ⟨gr, -, hloop⟩ := Option.bind_eq_some_iff.mp hrun
    exact registeredCount_le_reportNodes (fun _ _ => ih) hloop

/-- A graph whose first node is a graph is never done with. -/
theorem dfgReportNodes_eq_none {g n : Address} {gr sub : Graph} {ns : List Address}
    (hgr : h.graph? g = some gr) (hnodes : gr.nodes = n :: ns) (hsub : h.graph? n = some sub)
    (depth : ℕ) (groups : List WorkerGroup) : dfgReportNodes depth h groups g = none := by
  induction depth generalizing groups with
  | zero => rfl
  | succ depth ih =>
    rw [dfgReportNodes, hgr, Option.bind_some, hnodes, reportNodes, Heap.graph?_eq_some.mp hsub]
    dsimp only
    rw [ih]
    rfl

/-- The first node of the graph has an invalid group. -/
def FirstInvalid (h : Heap F) (dfg : TuDfg) (g : Address) : Prop :=
  ∃ gr n e, h.graph? g = some gr ∧ gr.nodes.head? = some n ∧ h.exec? n = some e ∧
    dfg.groups.length ≤ e.group

/-- **A registration that reports an error and registers nothing** fails at the first node. -/
theorem firstInvalid_of_dfgReportNodes {depth : ℕ} {dfg : TuDfg} {g : Address}
    {errors : List SetGraphError} (herrors : errors ≠ [])
    (hrun : dfgReportNodes depth h dfg.groups g = some (dfg.groups, errors)) :
    FirstInvalid h dfg g := by
  cases depth with
  | zero => cases hrun
  | succ depth =>
    obtain ⟨gr, hgr, hloop⟩ := Option.bind_eq_some_iff.mp hrun
    cases hnodes : gr.nodes with
    | nil =>
      rw [hnodes] at hloop
      exact absurd (congrArg Prod.snd (Option.some.inj hloop)).symm herrors
    | cons n ns =>
      rw [hnodes, reportNodes] at hloop
      split at hloop
      · cases hloop
      · next e he =>
        have he' := Heap.exec?_eq_some.mpr he
        split at hloop
        · next hle => exact ⟨gr, n, e, hgr, congrArg List.head? hnodes, he', hle⟩
        · next hlt =>
          -- the first node has gone into its group
          have hmodify := registeredCount_modify n (not_le.mp hlt)
          have hle := registeredCount_le_reportNodes
            (fun _ _ => registeredCount_le_dfgReportNodes) hloop
          rw [hmodify] at hle
          exact absurd hle (Nat.not_succ_le_self _)
      · next sub hsub =>
        have hnone := dfgReportNodes_eq_none hgr hnodes (Heap.graph?_eq_some.mpr hsub)
          depth dfg.groups
        rw [hnone] at hloop
        cases hloop

theorem dfgReportNodes_of_firstInvalid {dfg : TuDfg} {g : Address} (hfirst : FirstInvalid h dfg g)
    {depth : ℕ} {r : List WorkerGroup × List SetGraphError}
    (hrun : dfgReportNodes depth h dfg.groups g = some r) : r.1 = dfg.groups := by
  obtain ⟨gr, n, e, hgr, hhead, he, hle⟩ := hfirst
  obtain ⟨ns, hnodes⟩ := List.head?_eq_some_iff.mp hhead
  cases depth with
  | zero => cases hrun
  | succ depth =>
    rw [dfgReportNodes, hgr, Option.bind_some, hnodes, reportNodes,
      Heap.exec?_eq_some.mp he] at hrun
    dsimp only at hrun
    rw [if_pos hle] at hrun
    obtain rfl := Option.some.inj hrun
    rfl

/-- **When a rejected graph changes nothing**, and nothing is looked up out of range. -/
theorem tuDfgSetGraph_unchanged_iff (depth : ℕ) (h : Heap F) (dfg dfg' : TuDfg) (g : Address)
    (errors : List SetGraphError) (herrors : errors ≠ [])
    (hrun : tuDfgSetGraphReport depth h dfg (some g) = some (dfg', errors)) :
    dfg' = dfg ∧ InRange h dfg' ↔
      (dfg.graph ≠ none ∧ dfg.graph ≠ some g ∨ dfg.graph = some g ∧ FirstInvalid h dfg g) ∧
        InRange h dfg := by
  rw [tuDfgSetGraphReport] at hrun
  split at hrun
  · next hother =>
    obtain rfl := congrArg Prod.fst (Option.some.inj hrun)
    exact and_congr_left fun _ => iff_of_true rfl (Or.inl hother)
  · next hother =>
    obtain ⟨⟨groups, errors'⟩, hloop, heq⟩ := Option.map_eq_some_iff.mp hrun
    cases heq
    constructor
    · rintro ⟨hsame, hrange⟩
      rw [hsame] at hrange
      obtain ⟨hgroups, hgraph⟩ := TuDfg.mk.inj (hsame : _ = TuDfg.mk dfg.groups dfg.graph)
      refine ⟨Or.inr ⟨hgraph.symm, ?_⟩, hrange⟩
      rw [show groups = dfg.groups from hgroups] at hloop
      exact firstInvalid_of_dfgReportNodes herrors hloop
    · rintro ⟨hother' | ⟨hgraph, hfirst⟩, hrange⟩
      · exact absurd hother' hother
      · have hgroups : groups = dfg.groups := dfgReportNodes_of_firstInvalid hfirst hloop
        have hsame : (⟨groups, some g⟩ : TuDfg) = dfg := by rw [hgroups, ← hgraph]
        rw [hsame]
        exact ⟨rfl, hrange⟩

/-- A graph with the input type `7`, a task for it in the group `5`, and a task in the group
`0`; the dfg has one group. -/
def invalidCalls : List (Action Unit) :=
  [⟨.graphCreate 0 (.ofList [7]) .empty, 1⟩,
    ⟨.task 1 (some 0) .empty .empty 0 1, 1⟩,
    ⟨.task 2 (some 0) (.ofList [7]) .empty 5 1, 1⟩,
    ⟨.addInput (some 0) (some 2) 7, 1⟩]

def invalidHeap : Heap Unit := (system Unit).replay .empty invalidCalls

/-- The dfg after the call: the first task is registered for the two workers. -/
def rejectedDfg : TuDfg := ⟨[⟨[1], [{1}, {1}]⟩], some 0⟩

/-- **A rejected graph is set**, and `tu_dfg_push_data` will look up the group `5`. -/
theorem not_unchanged_invalid : (system Unit).Reachable invalidHeap ∧
    tuDfgSetGraphReport 1 invalidHeap (newDfg [2]) (some 0) =
      some (rejectedDfg, [.cannotRegister 2 5]) ∧
    rejectedDfg ≠ newDfg [2] ∧ InRange invalidHeap (newDfg [2]) ∧
    ¬ InRange invalidHeap rejectedDfg := by
  refine ⟨.replay (.start rfl) _ (by decide), by decide, by decide, ?_, fun hrange => ?_⟩
  · intro g hg
    cases hg
  · have hgr : invalidHeap.graph? 0 = some ⟨[1, 2],
        (OrderedMap.const (.ofList [7]) .empty).modify 7 (·.insert 2), .const .empty .empty⟩ := rfl
    have hlooked : LookedUp invalidHeap 0 2 :=
      .input hgr (show 2 ∈ nodesOf _ 7 by decide)
    have hlt := hrange 0 rfl 2 _ hlooked rfl
    exact absurd hlt (by decide)

/-- The first node of a graph that is set already has an invalid group. -/
def firstInvalidCalls : List (Action Unit) :=
  [⟨.graphCreate 0 .empty .empty, 1⟩, ⟨.task 1 (some 0) .empty .empty 5 1, 1⟩]

def firstInvalidHeap : Heap Unit := (system Unit).replay .empty firstInvalidCalls

/-- The graph has no input, so that no datum can be pushed. -/
theorem not_lookedUp_firstInvalidHeap (n : Address) : ¬ LookedUp firstInvalidHeap 0 n := by
  intro hn
  induction hn with
  | input hgr hmem =>
    obtain rfl := Option.some.inj hgr
    exact absurd hmem List.not_mem_nil
  | successor hlooked _ _ _ ih => exact ih

theorem tuDfgSetGraph_unchanged_first :
    let dfg : TuDfg := ⟨[⟨[], [∅]⟩], some 0⟩
    ∃ dfg', tuDfgSetGraphReport 1 firstInvalidHeap dfg (some 0) =
        some (dfg', [.cannotRegister 1 5]) ∧
      dfg' = dfg ∧ InRange firstInvalidHeap dfg' := by
  intro dfg
  have hrun : tuDfgSetGraphReport 1 firstInvalidHeap dfg (some 0) =
      some (dfg, [.cannotRegister 1 5]) := by decide
  have hfirst : FirstInvalid firstInvalidHeap dfg 0 := ⟨_, 1, _, rfl, rfl, rfl, by decide⟩
  have hrange : InRange firstInvalidHeap dfg := by
    intro g hg n e hn
    obtain rfl := Option.some.inj hg
    exact absurd hn (not_lookedUp_firstInvalidHeap n)
  exact ⟨dfg, hrun, (tuDfgSetGraph_unchanged_iff 1 _ _ _ 0 _ (by simp) hrun).mpr
    ⟨Or.inr ⟨rfl, hfirst⟩, hrange⟩⟩

end Builder
end Dfg
end ThreadUtils
