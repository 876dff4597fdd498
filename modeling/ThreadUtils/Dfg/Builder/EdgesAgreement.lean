import ThreadUtils.Dfg.Builder.EdgeCalls

/-!
# `tu_edges` and `tu_edge`

`tu_edges` goes through a graph to the nodes of all its types, and then connects two nodes for
every type they have in common, declared by the graph or not.

## What is compared

A user of `tu_edges` expects the calls of `tu_edge` for the types that the sender declares as output
and the receiver as input.  Those calls come first in the comparison: they all succeed, and their
edges are between the nodes that are declared for the type in question.  Every one of these edges is
also drawn by `tu_edges`, so the two can only differ in one direction, and the condition says when
`tu_edges` draws no edge too many (`EdgesDeclared`).  For two executable nodes the types they
declare are the types they have, and the condition is void.

* `tuEdges_agrees_iff` --- the edges are those of `tu_edge` for the common declared types exactly
  if no pair of nodes has another type in common, unless the edge is there already.
* `not_edgesAgree` --- two nodes that have an undeclared type in common.
-/

namespace ThreadUtils
namespace Dfg
namespace Builder

variable {F : Type*} {h : Heap F} {β : Type*}

/-- A sequence of calls that each make a list of insertions. -/
theorem run_putAll {act : β → Action F} {entries : β → List Insertion} {I : Heap F → Prop}
    {bs : List β}
    (hstep : ∀ h, I h → ∀ b ∈ bs, (system F).step h (act b) = some (putAll h (entries b)))
    (hput : ∀ h, I h → ∀ b ∈ bs, I (putAll h (entries b))) (hI : I h) :
    (system F).run h (bs.map act) = some (putAll h (bs.flatMap entries)) := by
  induction bs generalizing h with
  | nil => rfl
  | cons b bs ih =>
    rw [List.map_cons, TransitionSystem.run_cons, hstep h hI b List.mem_cons_self,
      Option.bind_some, ih (fun h hI b hb => hstep h hI b (List.mem_cons_of_mem _ hb))
      (fun h hI b hb => hput h hI b (List.mem_cons_of_mem _ hb)) (hput h hI b List.mem_cons_self),
      List.flatMap_cons, putAll_append]

/-- The types that the sender declares as output and the receiver as input. -/
def edgeTypes (h : Heap F) (sender receiver : Address) : List TypeId :=
  (outputTypes h sender).toList.filter fun type => type ∈ inputTypes h receiver

/-- `tu_edge` for every common type. -/
def edgeCalls (h : Heap F) (sender receiver : Address) (depth : ℕ) : List (Action F) :=
  (edgeTypes h sender receiver).map fun type => ⟨.edge (some sender) (some receiver) type, depth⟩

/-- The same edges. -/
def EdgesAgree (h₁ h₂ : Heap F) : Prop :=
  ∀ type n m, Connected h₁ type n m ↔ Connected h₂ type n m

/-- Two nodes that the sender and the receiver stand for have an edge for each type that they have
in common, unless sender and receiver declare them for this type. -/
def EdgesDeclared (h : Heap F) (sender receiver : Address) : Prop :=
  ∀ n ∈ allOut h sender, ∀ m ∈ allIn h receiver, ∀ type, HasOutput h type n → HasInput h type m →
    Connected h type n m ∨ type ∈ edgeTypes h sender receiver ∧
      n ∈ flatOut h sender type ∧ m ∈ flatIn h receiver type

theorem mem_edgeTypes {sender receiver : Address} {type : TypeId} :
    type ∈ edgeTypes h sender receiver ↔
      type ∈ outputTypes h sender ∧ type ∈ inputTypes h receiver := by
  rw [edgeTypes, List.mem_filter, OrderedSet.mem_toList, decide_eq_true_iff]

/-- A list of insertions that registers no output leaves what a sender stands for alone. -/
theorem flatOut_putAll {l : List Insertion} {n : Address} {type : TypeId}
    (hl : ∀ i ∈ l, ∀ m, i ≠ .output n type m) :
    flatOut (putAll h l) n type = flatOut h n type := by
  induction l generalizing h with
  | nil => rfl
  | cons i l ih =>
    rw [putAll_cons, ih fun j hj => hl j (List.mem_cons_of_mem _ hj),
      flatOut_put (hl i List.mem_cons_self)]

theorem mem_allOut_of_flatOut {n m : Address} {type : TypeId} (hm : m ∈ flatOut h n type) :
    m ∈ allOut h n := by
  unfold flatOut at hm
  unfold allOut
  cases hgr : h.graph? n with
  | none =>
    rw [hgr] at hm
    exact hm
  | some gr =>
    rw [hgr] at hm
    obtain ⟨nodes, hfind, -⟩ := mem_nodesOf.mp hm
    exact List.mem_flatMap.mpr ⟨type, OrderedMap.mem_keys_of_find? hfind, hm⟩

theorem mem_allIn_of_flatIn {n m : Address} {type : TypeId} (hm : m ∈ flatIn h n type) :
    m ∈ allIn h n := by
  unfold flatIn at hm
  unfold allIn
  cases hgr : h.graph? n with
  | none =>
    rw [hgr] at hm
    exact hm
  | some gr =>
    rw [hgr] at hm
    obtain ⟨nodes, hfind, -⟩ := mem_nodesOf.mp hm
    exact List.mem_flatMap.mpr ⟨type, OrderedMap.mem_keys_of_find? hfind, hm⟩

/-- The nodes that a sender stands for output the types it declares. -/
theorem WellFormed.hasOutput_of_outputTypes (hW : WellFormed h) {n m : Address} {type : TypeId}
    (hn : h n ≠ none) (htype : type ∈ outputTypes h n) (hm : m ∈ flatOut h n type) :
    HasOutput h type m := by
  rcases isSome_exec?_or_graph? hn with hexec | hgraph
  · rw [flatOut, graph?_eq_none_of_isSome hexec] at hm
    exact List.mem_singleton.mp hm ▸ (mem_outputTypes_exec hexec).mp htype
  · exact hW.hasOutput_flatOut hgraph hm

theorem WellFormed.hasInput_of_inputTypes (hW : WellFormed h) {n m : Address} {type : TypeId}
    (hn : h n ≠ none) (htype : type ∈ inputTypes h n) (hm : m ∈ flatIn h n type) :
    HasInput h type m := by
  rcases isSome_exec?_or_graph? hn with hexec | hgraph
  · rw [flatIn, graph?_eq_none_of_isSome hexec] at hm
    exact List.mem_singleton.mp hm ▸ (mem_inputTypes_exec hexec).mp htype
  · exact hW.hasInput_flatIn hgraph hm

theorem putAll_ne_none {n : Address} (hn : h n ≠ none) (l : List Insertion) :
    putAll h l n ≠ none := by
  intro hnone
  rcases isSome_exec?_or_graph? hn with hexec | hgraph
  · rw [← isSome_exec?_putAll l, Heap.exec?_of_free hnone] at hexec
    cases hexec
  · rw [← isSome_graph?_putAll l, Heap.graph?_of_free hnone] at hgraph
    cases hgraph

/-- An insertion of `tu_edge` registers no node. -/
theorem ne_input_of_mem_edgeEntries {i : Insertion} {sender receiver : Address} {type : TypeId}
    (hi : i ∈ edgeEntries h sender receiver type) (g m : Address) (type' : TypeId) :
    i ≠ .input g type' m ∧ i ≠ .output g type' m := by
  rw [edgeEntries, List.mem_append, List.mem_flatMap] at hi
  rcases hi with hi | ⟨n, -, hi⟩
  · split at hi
    · rw [List.mem_singleton.mp hi]
      simp
    · cases hi
  · rw [receiverEntries, List.mem_append, List.mem_map] at hi
    rcases hi with hi | ⟨m', -, rfl⟩
    · split at hi
      · rw [List.mem_singleton.mp hi]
        simp
      · cases hi
    · simp

/-- **The calls of `tu_edge`** for the common types. -/
theorem run_edgeCalls (hW : WellFormed h) {sender receiver : Address} (hsender : h sender ≠ none)
    (hreceiver : h receiver ≠ none) (depth : ℕ) :
    (system F).run h (edgeCalls h sender receiver (depth + 3)) =
      some (putAll h ((edgeTypes h sender receiver).flatMap (edgeEntries h sender receiver))) := by
  refine run_putAll (I := fun h' => ∃ l,
    (∀ i ∈ l, ∀ g m type, i ≠ .input g type m ∧ i ≠ .output g type m) ∧ h' = putAll h l) ?_ ?_ ?_
  · rintro h' ⟨l, hl, rfl⟩ type htype
    obtain ⟨houtput, hinput⟩ := mem_edgeTypes.mp htype
    -- the calls before leave what sender and receiver stand for alone
    have hflatOut : flatOut (putAll h l) sender type = flatOut h sender type :=
      flatOut_putAll fun i hi m => (hl i hi sender m type).2
    have hflatIn : flatIn (putAll h l) receiver type = flatIn h receiver type :=
      flatIn_putAll fun i hi m => (hl i hi receiver m type).1
    have hrun := tuEdge_eq (h := putAll h l)
      (fun n hn => (hasOutput_putAll l).mpr
        (hW.hasOutput_of_outputTypes hsender houtput (hflatOut ▸ hn)))
      (fun m hm => (hasInput_putAll l).mpr
        (hW.hasInput_of_inputTypes hreceiver hinput (hflatIn ▸ hm)))
      (putAll_ne_none hreceiver l) depth
    have hentries : edgeEntries (putAll h l) sender receiver type =
        edgeEntries h sender receiver type := by
      simp only [edgeEntries, receiverEntries, isSome_graph?_putAll, hflatOut, hflatIn]
    rw [hentries] at hrun
    show (tuEdge (depth + 3) (putAll h l) (some sender) (some receiver) type).map Prod.fst = _
    rw [hrun]
    rfl
  · rintro h' ⟨l, hl, rfl⟩ type htype
    refine ⟨_, fun i hi g m type' => ?_, (putAll_append h l _).symm⟩
    rcases List.mem_append.mp hi with hi | hi
    · exact hl i hi g m type'
    · exact ne_input_of_mem_edgeEntries hi g m type'
  · exact ⟨[], by simp, rfl⟩

/-- **When `tu_edges` agrees with `tu_edge`.** -/
theorem tuEdges_agrees_iff (hr : (system F).Reachable h) {sender receiver : Address}
    (hsender : h sender ≠ none) (hreceiver : h receiver ≠ none) {depth : ℕ} (hdepth : 3 ≤ depth) :
    ∃ h₁ h₂, (system F).step h ⟨.edges (some sender) (some receiver), depth⟩ = some h₁ ∧
      (system F).run h (edgeCalls h sender receiver depth) = some h₂ ∧
      (EdgesAgree h₁ h₂ ↔ EdgesDeclared h sender receiver) := by
  have hW := wellFormed_of_reaches hr
  obtain ⟨depth, rfl⟩ := Nat.exists_eq_add_of_le' hdepth
  have hedges : (system F).step h ⟨.edges (some sender) (some receiver), depth + 3⟩ =
      some (putAll h (edgesEntries h sender receiver)) := by
    show (tuEdges (depth + 3) h (some sender) (some receiver)).map Prod.fst = _
    rw [tuEdges_eq hW hsender hreceiver depth]
    rfl
  refine ⟨_, _, hedges, run_edgeCalls hW hsender hreceiver depth, ?_⟩
  have hmem : ∀ type n m, .edge n m type ∈
      (edgeTypes h sender receiver).flatMap (edgeEntries h sender receiver) ↔
      type ∈ edgeTypes h sender receiver ∧ n ∈ flatOut h sender type ∧
        m ∈ flatIn h receiver type := by
    intro type n m
    simp only [List.mem_flatMap, edge_mem_edgeEntries]
    constructor
    · rintro ⟨type', htype, hn, hm, rfl⟩
      exact ⟨htype, hn, hm⟩
    · rintro ⟨htype, hn, hm⟩
      exact ⟨type, htype, hn, hm, rfl⟩
  constructor
  · intro hagree n hn m hm type houtput hinput
    have htype : type ∈ inputTypes h m := (mem_inputTypes_exec hinput.isSome_exec?).mpr hinput
    have hconnected := (hagree type n m).mp ((connected_putAll _).mpr
      (Or.inr ⟨mem_edgesEntries.mpr ⟨hn, hm, htype⟩, houtput, hinput⟩))
    rcases (connected_putAll _).mp hconnected with hold | ⟨hnew, -⟩
    · exact Or.inl hold
    · exact Or.inr ((hmem type n m).mp hnew)
  · intro hdeclared type n m
    rw [connected_putAll, connected_putAll, mem_edgesEntries, hmem]
    constructor
    · rintro (hold | ⟨⟨hn, hm, -⟩, houtput, hinput⟩)
      · exact Or.inl hold
      · rcases hdeclared n hn m hm type houtput hinput with hold | hnew
        · exact Or.inl hold
        · exact Or.inr ⟨hnew, houtput, hinput⟩
    · rintro (hold | ⟨⟨-, hn, hm⟩, houtput, hinput⟩)
      · exact Or.inl hold
      · exact Or.inr ⟨⟨mem_allOut_of_flatOut hn, mem_allIn_of_flatIn hm,
          (mem_inputTypes_exec hinput.isSome_exec?).mpr hinput⟩, houtput, hinput⟩

/-- A graph that outputs the type 1, by a task that outputs 1 and 2, and a task that takes both. -/
def twoTypesCalls : List (Action Unit) :=
  [⟨.graphCreate 0 .empty (.ofList [1]), 0⟩,
    ⟨.task 1 (some 0) .empty (.ofList [1, 2]) 0 1, 0⟩,
    ⟨.task 2 none (.ofList [1, 2]) .empty 0 1, 0⟩, ⟨.addOutput (some 0) (some 1) 1, 1⟩]

def twoTypesHeap : Heap Unit := (system Unit).replay .empty twoTypesCalls

theorem reachable_twoTypesHeap : (system Unit).Reachable twoTypesHeap :=
  .replay (.start rfl) twoTypesCalls (by decide)

theorem tuEdges_agrees_twoTypes : ∃ h₁ h₂,
    (system Unit).step twoTypesHeap ⟨.edges (some 1) (some 2), 3⟩ = some h₁ ∧
      (system Unit).run twoTypesHeap (edgeCalls twoTypesHeap 1 2 3) = some h₂ ∧
      (EdgesAgree h₁ h₂ ↔ EdgesDeclared twoTypesHeap 1 2) :=
  tuEdges_agrees_iff reachable_twoTypesHeap (Option.isSome_iff_ne_none.mp (by decide))
    (Option.isSome_iff_ne_none.mp (by decide)) le_rfl

/-- **`tu_edges` draws more**: an edge for the type 2, that the graph does not declare. -/
theorem not_edgesAgree : (system Unit).Reachable twoTypesHeap ∧ ∃ h₁ h₂,
    (system Unit).step twoTypesHeap ⟨.edges (some 0) (some 2), 3⟩ = some h₁ ∧
      (system Unit).run twoTypesHeap (edgeCalls twoTypesHeap 0 2 3) = some h₂ ∧
      ¬ EdgesAgree h₁ h₂ := by
  let output (h : Heap Unit) : Option ExecNodeOutput := (h.exec? 1).bind (·.outputs.find? 2)
  have hplural : ((system Unit).step twoTypesHeap ⟨.edges (some 0) (some 2), 3⟩).bind output =
      some ⟨{2}, {(2, 2)}⟩ := by decide
  have hsingular : ((system Unit).run twoTypesHeap (edgeCalls twoTypesHeap 0 2 3)).bind output =
      some ⟨∅, ∅⟩ := by decide
  obtain ⟨h₁, hstep, h₁out⟩ := Option.bind_eq_some_iff.mp hplural
  obtain ⟨h₂, hrun, h₂out⟩ := Option.bind_eq_some_iff.mp hsingular
  refine ⟨reachable_twoTypesHeap, h₁, h₂, hstep, hrun, fun hagree => ?_⟩
  obtain ⟨e, he, hfind⟩ := Option.bind_eq_some_iff.mp h₁out
  obtain ⟨e', out', he', hfind', hmem⟩ :=
    (hagree 2 1 2).mp ⟨e, _, he, hfind, Finset.mem_singleton_self 2⟩
  obtain ⟨e₂, he₂, hfind₂⟩ := Option.bind_eq_some_iff.mp h₂out
  obtain rfl := Option.some.inj (he'.symm.trans he₂)
  obtain rfl := Option.some.inj (hfind'.symm.trans hfind₂)
  exact absurd hmem (Finset.notMem_empty 2)

end Builder
end Dfg
end ThreadUtils
