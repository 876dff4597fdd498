import ThreadUtils.Dfg.Builder.BoundaryCalls

/-!
# When a sub-graph is embedded

`tu_sub_graph` takes the sinks away from all nodes that the sub-graph outputs, for whatever graph
they were set.  `tu_add_output` for the sub-graph gives some of them the sink of the outer graph.
So a registration that comes first is half undone: the nodes stay among the outputs of the outer
graph and their results go nowhere.

## When the order makes a difference

A node has one sink for all of its types.  A registration for another type that comes after the
embedding sets it again, and the order makes no difference for that node.  So what is lost is lost
for the nodes that are declared before the embedding only, and `Redeclared` says that there are
none.  It speaks of the sub-graph and of the two lists of types, and of nothing that the calls
compute.

## Two heaps

Only two things change in a heap here, the graph that is the outer one and the sinks
(`Heap.withSinks`), and every sequence of these calls is told by what it does to them
(`run_embeddingCalls`).  The outer graph gets the same entries in any order, since they go to
ordered sets.  The sinks are set and cleared, and the last call decides: those before the embedding
do not show any more (`setSinks_outputNodes`).

* `embedding_order_iff` --- when a position of the embedding leads to the same heap as the first.
* `not_embedding_order` --- one output, declared before the embedding.
-/

namespace ThreadUtils
namespace Dfg
namespace Builder

variable {F : Type*} {h : Heap F} {g s : Address} {gr sub : Graph}

/-! ## Heaps that differ in the sinks -/

/-- The heap with other sinks. -/
def Heap.withSinks (h : Heap F) (sinks : Address → Option Address) : Heap F := fun a =>
  match h a with
  | some (.exec e) => some (.exec { e with sink := sinks a })
  | o => o

/-- The sinks after those of some nodes were set. -/
def setSinks (sinks : Address → Option Address) (targets : List Address) (sink : Option Address) :
    Address → Option Address := fun a =>
  if a ∈ targets then sink else sinks a

section Sinks

variable {sinks sinks' : Address → Option Address} {n : Address} {e : ExecNode F}

@[simp] theorem setSinks_nil (sink : Option Address) : setSinks sinks [] sink = sinks :=
  funext fun _ => if_neg List.not_mem_nil

theorem setSinks_cons (targets : List Address) (sink : Option Address) :
    setSinks (Function.update sinks n sink) targets sink = setSinks sinks (n :: targets) sink := by
  funext a
  unfold setSinks
  by_cases ha : a ∈ targets
  · rw [if_pos ha, if_pos (List.mem_cons_of_mem _ ha)]
  · rw [if_neg ha]
    by_cases heq : a = n
    · rw [heq, Function.update_self, if_pos List.mem_cons_self]
    · rw [Function.update_of_ne heq, if_neg fun hmem => (List.mem_cons.mp hmem).elim heq ha]

theorem setSinks_append (targets targets' : List Address) (sink : Option Address) :
    setSinks (setSinks sinks targets sink) targets' sink =
      setSinks sinks (targets ++ targets') sink := by
  funext a
  unfold setSinks
  by_cases ha : a ∈ targets'
  · rw [if_pos ha, if_pos (List.mem_append_right _ ha)]
  · rw [if_neg ha]
    simp [ha]

theorem withSinks_sinkOf (h : Heap F) : h.withSinks (sinkOf h) = h := by
  funext a
  unfold Heap.withSinks sinkOf Heap.exec?
  split
  · next e he =>
    rw [he]
    rfl
  · rfl

@[simp] theorem graph?_withSinks (a : Address) : (h.withSinks sinks).graph? a = h.graph? a := by
  unfold Heap.graph? Heap.withSinks
  cases h a with
  | none => rfl
  | some o => cases o <;> rfl

@[simp] theorem exec?_withSinks (a : Address) :
    (h.withSinks sinks).exec? a = (h.exec? a).map fun e => { e with sink := sinks a } := by
  unfold Heap.exec? Heap.withSinks
  cases h a with
  | none => rfl
  | some o => cases o <;> rfl

theorem setGraph_withSinks (a : Address) :
    (h.withSinks sinks).setGraph a gr = (h.setGraph a gr).withSinks sinks := by
  funext b
  unfold Heap.setGraph Heap.withSinks
  by_cases hb : b = a
  · rw [hb, Function.update_self, Function.update_self]
  · rw [Function.update_of_ne hb, Function.update_of_ne hb]

theorem setExec_withSinks (he : h.exec? n = some e) (sink : Option Address) :
    (h.withSinks sinks).setExec n { e with sink := sink } =
      h.withSinks (Function.update sinks n sink) := by
  funext b
  unfold Heap.setExec Heap.withSinks
  by_cases hb : b = n
  · rw [hb, Function.update_self, Heap.exec?_eq_some.mp he, Function.update_self]
  · rw [Function.update_of_ne hb, Function.update_of_ne hb]

/-- The sinks that count are those of the executable nodes. -/
theorem withSinks_inj : h.withSinks sinks = h.withSinks sinks' ↔
    ∀ n, (h.exec? n).isSome → sinks n = sinks' n := by
  constructor
  · intro heq n hn
    obtain ⟨e, he⟩ := Option.isSome_iff_exists.mp hn
    have hexec := congrArg (fun h => h.exec? n) heq
    simp only [exec?_withSinks, he, Option.map_some, Option.some.injEq] at hexec
    exact congrArg ExecNode.sink hexec
  · intro hsinks
    funext a
    have ha := hsinks a
    unfold Heap.exec? at ha
    unfold Heap.withSinks
    split
    · next e he =>
      rw [he] at ha
      rw [ha rfl]
    · rfl

/-- `exec_node->sink = nullptr`. -/
theorem clearSink_withSinks (n : Address) :
    clearSink (h.withSinks sinks) n = h.withSinks (Function.update sinks n none) := by
  unfold clearSink
  rw [exec?_withSinks]
  cases he : h.exec? n with
  | none =>
    refine withSinks_inj.mpr fun m hm => ?_
    rw [Function.update_of_ne]
    rintro rfl
    rw [he] at hm
    cases hm
  | some e => exact setExec_withSinks he none

theorem foldl_clearSink (targets : List Address) :
    targets.foldl clearSink (h.withSinks sinks) = h.withSinks (setSinks sinks targets none) := by
  induction targets generalizing sinks with
  | nil => rw [List.foldl_nil, setSinks_nil]
  | cons n targets ih => rw [List.foldl_cons, clearSink_withSinks, ih, setSinks_cons]

end Sinks

/-! ## The calls -/

/-- `outputs[type].insert(n)` for some nodes. -/
def insertNodes (outputs : OrderedMap TypeId (OrderedSet Address)) (type : TypeId)
    (nodes : List Address) : OrderedMap TypeId (OrderedSet Address) :=
  nodes.foldl (fun map n => map.modify type (·.insert n)) outputs

/-- `outputs[type].insert(n)` for the nodes of each type. -/
def insertTypes (outputs : OrderedMap TypeId (OrderedSet Address)) (nodes : TypeId → List Address)
    (types : List TypeId) : OrderedMap TypeId (OrderedSet Address) :=
  types.foldl (fun map type => insertNodes map type (nodes type)) outputs

/-- The heap where the outer graph and the sinks are others. -/
def Heap.withOuter (h : Heap F) (g : Address) (gr : Graph) (sinks : Address → Option Address) :
    Heap F :=
  (h.setGraph g gr).withSinks sinks

/-- `tu_add_output(G, S, t)` for each type of the list. -/
def declareCalls (g s : Address) (depth : ℕ) (types : List TypeId) : List (Action F) :=
  types.map fun type => ⟨.addOutput (some g) (some s) type, depth⟩

/-- The sub-graph is embedded between two lists of registrations. -/
def embeddingCalls (g s : Address) (depth : ℕ) (before after : List TypeId) : List (Action F) :=
  declareCalls g s depth before ++ ⟨.subGraph g s, depth⟩ :: declareCalls g s depth after

section Calls

variable {sinks : Address → Option Address} {type : TypeId}

theorem keys_insertNodes (outputs : OrderedMap TypeId (OrderedSet Address)) (type : TypeId)
    (nodes : List Address) : (insertNodes outputs type nodes).keys = outputs.keys := by
  unfold insertNodes
  induction nodes generalizing outputs with
  | nil => rfl
  | cons n nodes ih => exact ih (outputs.modify type _)

theorem graph?_withOuter_self : (h.withOuter g gr sinks).graph? g = some gr := by
  rw [Heap.withOuter, graph?_withSinks, Heap.graph?_setGraph_self]

theorem graph?_withOuter_of_ne {a : Address} (hne : a ≠ g) :
    (h.withOuter g gr sinks).graph? a = h.graph? a := by
  rw [Heap.withOuter, graph?_withSinks, Heap.graph?_setGraph_of_ne hne]

theorem exec?_withOuter (hg : h.exec? g = none) (a : Address) :
    (h.withOuter g gr sinks).exec? a = (h.exec? a).map fun e => { e with sink := sinks a } := by
  rw [Heap.withOuter, exec?_withSinks, Heap.exec?_setGraph hg]

/-- An output of the outer graph. -/
theorem put_output_withOuter (hg : h.exec? g = none) {n : Address} (htype : type ∈ gr.outputs.keys)
    (hn : HasOutput h type n) : put (h.withOuter g gr sinks) (.output g type n) =
      h.withOuter g { gr with outputs := gr.outputs.modify type (·.insert n) }
        (Function.update sinks n (some g)) := by
  obtain ⟨e, he, hout⟩ := hn
  have he' : (h.withOuter g gr sinks).exec? n = some { e with sink := sinks n } := by
    rw [exec?_withOuter hg, he, Option.map_some]
  rw [put_output graph?_withOuter_self he', addOutputExec_eq graph?_withOuter_self he'
    ⟨⟨gr, graph?_withOuter_self, htype⟩, _, he', hout⟩]
  unfold Heap.withOuter
  rw [setGraph_withSinks, Heap.setGraph_setGraph]
  exact setExec_withSinks ((Heap.exec?_setGraph hg).trans he) (some g)

theorem putAll_output_withOuter (hg : h.exec? g = none) {nodes : List Address}
    (htype : type ∈ gr.outputs.keys) (hnodes : ∀ n ∈ nodes, HasOutput h type n) :
    putAll (h.withOuter g gr sinks) (nodes.map fun n => .output g type n) =
      h.withOuter g { gr with outputs := insertNodes gr.outputs type nodes }
        (setSinks sinks nodes (some g)) := by
  induction nodes generalizing gr sinks with
  | nil =>
    rw [setSinks_nil]
    rfl
  | cons n nodes ih =>
    rw [List.map_cons, putAll_cons,
      put_output_withOuter hg htype (hnodes n List.mem_cons_self)]
    refine (@ih { gr with outputs := gr.outputs.modify type (·.insert n) } _ htype
      fun m hm => hnodes m (List.mem_cons_of_mem _ hm)).trans ?_
    rw [setSinks_cons]
    rfl

/-- `tu_add_output(G, S, t)` for a type that both graphs declare. -/
theorem addOutput_withOuter (hg : h.exec? g = none) (hne : s ≠ g) (hsub : h.graph? s = some sub)
    (htype : type ∈ gr.outputs.keys) (htype' : type ∈ sub.outputs.keys)
    (hnodes : ∀ n ∈ nodesOf sub.outputs type, HasOutput h type n) (depth : ℕ) :
    (system F).step (h.withOuter g gr sinks) ⟨.addOutput (some g) (some s) type, depth + 2⟩ =
      some (h.withOuter g
        { gr with outputs := insertNodes gr.outputs type (nodesOf sub.outputs type) }
        (setSinks sinks (nodesOf sub.outputs type) (some g))) := by
  have hsub' : (h.withOuter g gr sinks).graph? s = some sub :=
    (graph?_withOuter_of_ne hne).trans hsub
  have hflat : flatOut (h.withOuter g gr sinks) s type = nodesOf sub.outputs type :=
    flatOut_graph hsub' type
  have hout : ∀ m ∈ flatOut (h.withOuter g gr sinks) s type,
      ((h.withOuter g gr sinks).exec? m).isSome := by
    intro m hm
    rw [hflat] at hm
    rw [exec?_withOuter hg, Option.isSome_map]
    exact (hnodes m hm).isSome_exec?
  show (tuAddOutput (depth + 2) (h.withOuter g gr sinks) (some g) (some s) type).map Prod.fst = _
  rw [tuAddOutput_eq ⟨gr, graph?_withOuter_self, htype⟩ hout, Option.map_some, outputEntries,
    hsub', hflat, putAll_append]
  rw [← putAll_output_withOuter hg htype hnodes]
  refine congrArg (fun h => some (putAll h _)) ?_
  exact put_outputKey_eq_self ⟨sub, hsub', htype'⟩

/-- The registrations for a list of types. -/
theorem run_declareCalls (hg : h.exec? g = none) (hne : s ≠ g) (hsub : h.graph? s = some sub)
    {types : List TypeId} (htypes : ∀ type ∈ types, type ∈ gr.outputs.keys)
    (htypes' : ∀ type ∈ types, type ∈ sub.outputs.keys)
    (hnodes : ∀ type, ∀ n ∈ nodesOf sub.outputs type, HasOutput h type n) (depth : ℕ) :
    (system F).run (h.withOuter g gr sinks) (declareCalls g s (depth + 2) types) =
      some (h.withOuter g
        { gr with outputs := insertTypes gr.outputs (nodesOf sub.outputs) types }
        (setSinks sinks (types.flatMap (nodesOf sub.outputs)) (some g))) := by
  induction types generalizing gr sinks with
  | nil =>
    rw [List.flatMap_nil, setSinks_nil]
    rfl
  | cons type types ih =>
    rw [declareCalls, List.map_cons, TransitionSystem.run_cons,
      addOutput_withOuter hg hne hsub (htypes type List.mem_cons_self)
        (htypes' type List.mem_cons_self) (hnodes type) depth, Option.bind_some]
    refine (ih ?_ fun u hu => htypes' u (List.mem_cons_of_mem _ hu)).trans ?_
    · intro u hu
      rw [keys_insertNodes]
      exact htypes u (List.mem_cons_of_mem _ hu)
    · rw [setSinks_append, List.flatMap_cons]
      rfl

/-- All nodes that a graph outputs. -/
def outputNodes (gr : Graph) : List Address :=
  gr.outputs.keys.toList.flatMap (nodesOf gr.outputs)

theorem mem_outputNodes {gr : Graph} {n : Address} (hn : n ∈ nodesOf gr.outputs type) :
    n ∈ outputNodes gr := by
  obtain ⟨nodes, hfind, -⟩ := mem_nodesOf.mp hn
  exact List.mem_flatMap.mpr ⟨type, OrderedMap.mem_keys_of_find? hfind, hn⟩

/-- `tu_sub_graph(G, S)`. -/
theorem subGraph_withOuter (hne : s ≠ g) (hsub : h.graph? s = some sub) (depth : ℕ) :
    (system F).step (h.withOuter g gr sinks) ⟨.subGraph g s, depth⟩ =
      some (h.withOuter g { gr with nodes := gr.nodes ++ [s] }
        (setSinks sinks (outputNodes sub) none)) := by
  have hsub' : (h.withOuter g gr sinks).graph? s = some sub :=
    (graph?_withOuter_of_ne hne).trans hsub
  show tuSubGraph (h.withOuter g gr sinks) g s = _
  rw [tuSubGraph, hsub', Option.bind_some]
  show (((outputNodes sub).foldl clearSink (h.withOuter g gr sinks)).graph? g).map
    (fun outer => ((outputNodes sub).foldl clearSink (h.withOuter g gr sinks)).setGraph g
      { outer with nodes := outer.nodes ++ [s] }) = _
  unfold Heap.withOuter
  rw [foldl_clearSink, graph?_withSinks, Heap.graph?_setGraph_self, Option.map_some,
    setGraph_withSinks, Heap.setGraph_setGraph]

/-- The sinks after the embedding and the registrations that follow it. -/
def embeddedSinks (sinks : Address → Option Address) (g : Address) (sub : Graph)
    (after : List TypeId) : Address → Option Address :=
  setSinks (setSinks sinks (outputNodes sub) none) (after.flatMap (nodesOf sub.outputs)) (some g)

/-- The embedding undoes what earlier registrations did to the sinks. -/
theorem setSinks_outputNodes (types : List TypeId) (sink : Option Address) :
    setSinks (setSinks sinks (types.flatMap (nodesOf sub.outputs)) (some g)) (outputNodes sub)
      sink = setSinks sinks (outputNodes sub) sink := by
  funext a
  unfold setSinks
  by_cases ha : a ∈ outputNodes sub
  · rw [if_pos ha, if_pos ha]
  · rw [if_neg ha, if_neg ha, if_neg]
    intro hmem
    obtain ⟨type, -, hnode⟩ := List.mem_flatMap.mp hmem
    exact ha (mem_outputNodes hnode)

/-- **All the calls.**  Only the registrations after the embedding show in the sinks. -/
theorem run_embeddingCalls (hg : h.exec? g = none) (hne : s ≠ g) (hsub : h.graph? s = some sub)
    {before after : List TypeId} (htypes : ∀ type ∈ before ++ after, type ∈ gr.outputs.keys)
    (htypes' : ∀ type ∈ before ++ after, type ∈ sub.outputs.keys)
    (hnodes : ∀ type, ∀ n ∈ nodesOf sub.outputs type, HasOutput h type n) (depth : ℕ) :
    (system F).run (h.withOuter g gr sinks) (embeddingCalls g s (depth + 2) before after) =
      some (h.withOuter g
        { gr with
          nodes := gr.nodes ++ [s]
          outputs := insertTypes gr.outputs (nodesOf sub.outputs) (before ++ after) }
        (embeddedSinks sinks g sub after)) := by
  have hkeys : ∀ types, (insertTypes gr.outputs (nodesOf sub.outputs) types).keys =
      gr.outputs.keys := by
    intro types
    unfold insertTypes
    generalize gr.outputs = outputs
    induction types generalizing outputs with
    | nil => rfl
    | cons type types ih => exact (ih _).trans (keys_insertNodes _ _ _)
  rw [embeddingCalls, TransitionSystem.run_append,
    run_declareCalls hg hne hsub (fun type ht => htypes type (List.mem_append_left _ ht))
      (fun type ht => htypes' type (List.mem_append_left _ ht)) hnodes depth, Option.bind_some,
    TransitionSystem.run_cons, subGraph_withOuter hne hsub, Option.bind_some,
    run_declareCalls hg hne hsub ?_ (fun type ht => htypes' type (List.mem_append_right _ ht))
      hnodes depth, setSinks_outputNodes, insertTypes, insertTypes, insertTypes, List.foldl_append]
  · rfl
  · intro type ht
    rw [hkeys]
    exact htypes type (List.mem_append_right _ ht)

end Calls

/-! ## The positions of the embedding -/

/-- The nodes that the sub-graph outputs for the types. -/
def declaredNodes (h : Heap F) (s : Address) (types : List TypeId) : List Address :=
  types.flatMap (flatOut h s)

/-- What was declared before the embedding is declared again after it, for some type. -/
def Redeclared (h : Heap F) (s : Address) (before after : List TypeId) : Prop :=
  declaredNodes h s before ⊆ declaredNodes h s after

/-- The embedding at this position leads to the same heap as the embedding before all
registrations. -/
def SameAsFirst (h : Heap F) (g s : Address) (depth : ℕ) (before after : List TypeId) : Prop :=
  (system F).run h (embeddingCalls g s depth before after) =
    (system F).run h (embeddingCalls g s depth [] (before ++ after))

/-- The sinks of two positions, where the later one declares no more nodes after it. -/
theorem embeddedSinks_eq_iff {sinks : Address → Option Address} {before after : List TypeId} :
    (∀ n, (h.exec? n).isSome →
      embeddedSinks sinks g sub after n = embeddedSinks sinks g sub (before ++ after) n) ↔
      ∀ n, (h.exec? n).isSome → n ∈ before.flatMap (nodesOf sub.outputs) →
        n ∈ after.flatMap (nodesOf sub.outputs) := by
  refine forall_congr' fun n => forall_congr' fun _ => ?_
  unfold embeddedSinks
  rw [List.flatMap_append]
  constructor
  · intro heq hbefore
    by_contra hafter
    have hmem : n ∈ outputNodes sub := by
      obtain ⟨type, -, hn⟩ := List.mem_flatMap.mp hbefore
      exact mem_outputNodes hn
    rw [setSinks, if_neg hafter, setSinks, if_pos hmem, setSinks,
      if_pos (List.mem_append_left _ hbefore)] at heq
    cases heq
  · intro hagain
    unfold setSinks
    by_cases hafter : n ∈ after.flatMap (nodesOf sub.outputs)
    · rw [if_pos hafter, if_pos (List.mem_append_right _ hafter)]
    · rw [if_neg hafter, if_neg (c := n ∈ _ ++ _)]
      intro hmem
      rcases List.mem_append.mp hmem with hbefore | hmem
      · exact hafter (hagain hbefore)
      · exact hafter hmem

/-- One position. -/
theorem sameAsFirst_iff (hW : WellFormed h) (hne : s ≠ g) (hg : (h.graph? g).isSome)
    (hs : (h.graph? s).isSome) {before after : List TypeId}
    (htypes : ∀ type ∈ before ++ after, OutputType h g type ∧ OutputType h s type) (depth : ℕ) :
    ((system F).run h (embeddingCalls g s (depth + 2) before after)).isSome ∧
      (SameAsFirst h g s (depth + 2) before after ↔ Redeclared h s before after) := by
  obtain ⟨gr, hgr⟩ := Option.isSome_iff_exists.mp hg
  obtain ⟨sub, hsub⟩ := Option.isSome_iff_exists.mp hs
  have hkeys : ∀ type ∈ before ++ after, type ∈ gr.outputs.keys := by
    intro type ht
    obtain ⟨gr', hgr', htype⟩ := (htypes type ht).1
    obtain rfl := Option.some.inj (hgr.symm.trans hgr')
    exact htype
  have hkeys' : ∀ type ∈ before ++ after, type ∈ sub.outputs.keys := by
    intro type ht
    obtain ⟨sub', hsub', htype⟩ := (htypes type ht).2
    obtain rfl := Option.some.inj (hsub.symm.trans hsub')
    exact htype
  have hexec : h.exec? g = none := Heap.exec?_of_graph? hgr
  have houter : h = h.withOuter g gr (sinkOf h) := by
    rw [Heap.withOuter, Heap.setGraph_eq_self hgr, withSinks_sinkOf]
  have hrun : ∀ before' after', before' ++ after' = before ++ after →
      (system F).run h (embeddingCalls g s (depth + 2) before' after') =
        some (h.withOuter g
          { gr with
            nodes := gr.nodes ++ [s]
            outputs := insertTypes gr.outputs (nodesOf sub.outputs) (before ++ after) }
          (embeddedSinks (sinkOf h) g sub after')) := by
    intro before' after' heq
    have hcalls : (system F).run (h.withOuter g gr (sinkOf h)) _ = _ :=
      run_embeddingCalls hexec hne hsub (heq ▸ hkeys) (heq ▸ hkeys') (hW.outputs s sub hsub) depth
    rwa [← houter, heq] at hcalls
  have hflat : flatOut h s = nodesOf sub.outputs := funext (flatOut_graph hsub)
  refine ⟨by rw [hrun before after rfl]; rfl, ?_⟩
  rw [SameAsFirst, hrun before after rfl, hrun [] (before ++ after) (List.nil_append _),
    Option.some.injEq, Heap.withOuter, Heap.withOuter, withSinks_inj]
  simp only [Heap.exec?_setGraph hexec]
  rw [embeddedSinks_eq_iff, Redeclared, declaredNodes, declaredNodes, hflat]
  -- the nodes that a graph outputs are executable
  refine ⟨fun hagain n hn => hagain n ?_ hn, fun hagain n _ hn => hagain hn⟩
  obtain ⟨type, -, hnode⟩ := List.mem_flatMap.mp hn
  exact (hW.outputs s sub hsub type n hnode).isSome_exec?

/-- **When the position of the embedding makes no difference**: for one position, and for all of
them. -/
theorem embedding_order_iff (hr : (system F).Reachable h) (hne : s ≠ g)
    (hg : (h.graph? g).isSome) (hs : (h.graph? s).isSome) {types : List TypeId}
    (htypes : ∀ type ∈ types, OutputType h g type ∧ OutputType h s type) {depth : ℕ}
    (hdepth : 2 ≤ depth) :
    (∀ before after, before ++ after = types →
      ((system F).run h (embeddingCalls g s depth before after)).isSome ∧
        (SameAsFirst h g s depth before after ↔ Redeclared h s before after)) ∧
    ((∀ before after, before ++ after = types → SameAsFirst h g s depth before after) ↔
      ∀ type ∈ types, flatOut h s type = []) := by
  have hW := wellFormed_of_reaches hr
  obtain ⟨depth, rfl⟩ := Nat.exists_eq_add_of_le' hdepth
  have hposition : ∀ before after, before ++ after = types →
      ((system F).run h (embeddingCalls g s (depth + 2) before after)).isSome ∧
        (SameAsFirst h g s (depth + 2) before after ↔ Redeclared h s before after) :=
    fun before after heq => sameAsFirst_iff hW hne hg hs (heq ▸ htypes) depth
  refine ⟨hposition, ?_, ?_⟩
  · intro hsame type ht
    -- after all registrations nothing is declared any more
    have hlast := (hposition types [] (List.append_nil _)).2.mp (hsame types [] (List.append_nil _))
    refine List.eq_nil_iff_forall_not_mem.mpr fun n hn => List.not_mem_nil (a := n) ?_
    exact hlast (List.mem_flatMap.mpr ⟨type, ht, hn⟩)
  · intro hnone before after heq
    refine (hposition before after heq).2.mpr fun n hn => ?_
    obtain ⟨type, ht, hnode⟩ := List.mem_flatMap.mp hn
    rw [hnone type (heq ▸ List.mem_append_left _ ht)] at hnode
    cases hnode

/-- Two graphs with the output types 7 and 8, and in the second one a task that it outputs for
both types. -/
def twoOutputsCalls : List (Action Unit) :=
  [⟨.graphCreate 0 .empty (.ofList [7, 8]), 0⟩, ⟨.graphCreate 1 .empty (.ofList [7, 8]), 0⟩,
    ⟨.task 2 (some 1) .empty (.ofList [7, 8]) 0 1, 0⟩, ⟨.addOutput (some 1) (some 2) 7, 1⟩,
    ⟨.addOutput (some 1) (some 2) 8, 1⟩]

def twoOutputsHeap : Heap Unit := (system Unit).replay .empty twoOutputsCalls

theorem reachable_twoOutputsHeap : (system Unit).Reachable twoOutputsHeap :=
  .replay (.start rfl) twoOutputsCalls (by decide)

theorem outputType_twoOutputsHeap : ∀ type ∈ ([7, 8] : List TypeId),
    OutputType twoOutputsHeap 0 type ∧ OutputType twoOutputsHeap 1 type := by
  intro type ht
  rw [← mem_outputTypes_graph (by decide), ← mem_outputTypes_graph (by decide)]
  revert type
  decide

/-- Between the two registrations the embedding does no harm. -/
theorem embedding_order_between : SameAsFirst twoOutputsHeap 0 1 2 [7] [8] :=
  ((embedding_order_iff reachable_twoOutputsHeap (by decide) (by decide) (by decide)
    outputType_twoOutputsHeap le_rfl).1 [7] [8] rfl).2.mpr (by unfold Redeclared; decide)

/-- **A registration before the embedding is lost**: the task is among the outputs of the outer
graph and has no sink. -/
theorem not_embedding_order : (system Unit).Reachable twoOutputsHeap ∧ (1 : Address) ≠ 0 ∧
    (∀ type ∈ ([7] : List TypeId),
      OutputType twoOutputsHeap 0 type ∧ OutputType twoOutputsHeap 1 type) ∧
    ¬ ∀ before after, before ++ after = [7] → SameAsFirst twoOutputsHeap 0 1 2 before after := by
  refine ⟨reachable_twoOutputsHeap, by decide, fun type ht => outputType_twoOutputsHeap type ?_, ?_⟩
  · exact List.mem_cons.mpr (.inl (List.mem_singleton.mp ht))
  · intro hsame
    have hsinks := congrArg (Option.map fun h => sinkOf h 2) (hsame [7] [] rfl)
    exact absurd hsinks (by decide)

end Builder
end Dfg
end ThreadUtils
