import Mathlib.Logic.Relation
import ThreadUtils.Dfg.Builder.Model

/-!
# What a call of the builder does

Whatever nodes a call goes through, it changes the heap by the small edits of `Edit`, each with
the tests that the code has made before it.  An invariant of the heap is a case distinction
over them.

The edits are those of a single line of the source: a node is created, an entry is inserted into one
map, a sink is set or cleared.  A recursive call makes a sequence of edits (`edits_of_step`), by an
induction on its depth, and loops over the edits of their bodies.  Nothing is said of how many there
are or in which order they come; for an invariant it does not matter.

The tests come with the edit, as facts about the heap right before it and not before the call.  An
invariant can use them as they stand, which is what makes each case short.
-/

namespace ThreadUtils
namespace Dfg
namespace Builder

open Relation (ReflTransGen)

variable {F : Type*}

/-- The edits of the builder. -/
inductive Edit (h : Heap F) : Heap F → Prop
  | newGraph (g : Address) (inputTypes outputTypes : OrderedSet TypeId) : h g = none →
      Edit h (h.setGraph g ⟨[], .const inputTypes .empty, .const outputTypes .empty⟩)
  /-- A node outside of a graph. -/
  | newNode (n : Address) (kind : NodeKind) (inputTypes outputTypes : OrderedSet TypeId)
      (group maxThreadCount : ℕ) : h n = none → (kind = .state → maxThreadCount = 1) →
      Edit h (h.setExec n (makeExecBase kind none inputTypes outputTypes group maxThreadCount))
  /-- A node of the graph `g`. -/
  | newNodeOf (n g : Address) (gr : Graph) (kind : NodeKind)
      (inputTypes outputTypes : OrderedSet TypeId) (group maxThreadCount : ℕ) : h n = none →
      (kind = .state → maxThreadCount = 1) → h.graph? g = some gr →
      Edit h ((h.setExec n
        (makeExecBase kind (some g) inputTypes outputTypes group maxThreadCount)).setGraph g
          { gr with nodes := gr.nodes ++ [n] })
  | subGraph (g sub : Address) (gr gr' : Graph) : h.graph? g = some gr → h.graph? sub = some gr' →
      Edit h (h.setGraph g { gr with nodes := gr.nodes ++ [sub] })
  | clearSink (n : Address) (e : ExecNode F) : h.exec? n = some e →
      Edit h (h.setExec n { e with sink := none })
  | exec (n : Address) (e : ExecNode F) (type : TypeId) (exec : Option F) : h.exec? n = some e →
      Edit h (h.setExec n { e with inputs := e.inputs.modify type fun _ => ⟨exec⟩ })
  /-- `inputs[type]`. -/
  | inputKey (g : Address) (gr : Graph) (type : TypeId) : h.graph? g = some gr →
      Edit h (h.setGraph g { gr with inputs := gr.inputs.insert type .empty })
  /-- `outputs[type]`. -/
  | outputKey (g : Address) (gr : Graph) (type : TypeId) : h.graph? g = some gr →
      Edit h (h.setGraph g { gr with outputs := gr.outputs.insert type .empty })
  | input (g n : Address) (gr : Graph) (e : ExecNode F) (type : TypeId) : h.graph? g = some gr →
      h.exec? n = some e → type ∈ e.inputs.keys →
      Edit h (h.setGraph g { gr with inputs := gr.inputs.modify type (·.insert n) })
  | output (g n : Address) (gr : Graph) (e : ExecNode F) (type : TypeId) : h.graph? g = some gr →
      h.exec? n = some e → type ∈ e.outputs.keys →
      Edit h (h.setGraph g { gr with outputs := gr.outputs.modify type (·.insert n) })
  | sink (g n : Address) (gr : Graph) (e : ExecNode F) (type : TypeId) : h.graph? g = some gr →
      h.exec? n = some e → n ∈ nodesOf gr.outputs type →
      Edit h (h.setExec n { e with sink := some g })
  | edge (n m : Address) (e e' : ExecNode F) (type : TypeId) : h.exec? n = some e →
      h.exec? m = some e' → type ∈ e'.inputs.keys →
      Edit h (h.setExec n { e with outputs := e.outputs.modify type (·.insert m type) })

/-- A sequence of edits. -/
abbrev Edits : Heap F → Heap F → Prop := ReflTransGen Edit

theorem nodesOf_eq {map : OrderedMap TypeId (OrderedSet Address)} {type : TypeId}
    {nodes : OrderedSet Address} (h : map.find? type = some nodes) :
    nodesOf map type = nodes.toList := by
  rw [nodesOf, h]
  rfl

theorem mem_nodesOf {map : OrderedMap TypeId (OrderedSet Address)} {type : TypeId} {n : Address} :
    n ∈ nodesOf map type ↔ ∃ nodes, map.find? type = some nodes ∧ n ∈ nodes := by
  unfold nodesOf
  cases map.find? type with
  | none => simp
  | some nodes => simp [OrderedSet.mem_toList]

theorem mem_nodesOf_modify {map : OrderedMap TypeId (OrderedSet Address)} {type type' : TypeId}
    {n m : Address} : m ∈ nodesOf (map.modify type (·.insert n)) type' ↔
      m ∈ nodesOf map type' ∨ m = n ∧ type' = type ∧ type ∈ map.keys := by
  by_cases htype : type' = type
  · subst htype
    simp only [mem_nodesOf, OrderedMap.find?_modify_self, Option.map_eq_some_iff, map.mem_keys,
      Option.isSome_iff_exists]
    constructor
    · rintro ⟨_, ⟨nodes, hnodes, rfl⟩, hm⟩
      rcases OrderedSet.mem_insert.mp hm with rfl | hm
      · exact Or.inr ⟨rfl, trivial, nodes, hnodes⟩
      · exact Or.inl ⟨nodes, hnodes, hm⟩
    · rintro (⟨nodes, hnodes, hm⟩ | ⟨rfl, -, nodes, hnodes⟩)
      · exact ⟨_, ⟨nodes, hnodes, rfl⟩, OrderedSet.mem_insert.mpr (Or.inr hm)⟩
      · exact ⟨_, ⟨nodes, hnodes, rfl⟩, OrderedSet.mem_insert.mpr (Or.inl rfl)⟩
  · rw [nodesOf, nodesOf, OrderedMap.find?_modify_of_ne _ _ htype]
    exact (or_iff_left fun h => htype h.2.1).symm

/-- `operator[]` adds no nodes. -/
theorem nodesOf_insert (map : OrderedMap TypeId (OrderedSet Address)) (type type' : TypeId) :
    nodesOf (map.insert type .empty) type' = nodesOf map type' := by
  by_cases htype : type' = type
  · subst htype
    rw [nodesOf, nodesOf, OrderedMap.find?_insert_self]
    cases map.find? type' <;> rfl
  · rw [nodesOf, nodesOf, OrderedMap.find?_insert_of_ne _ _ htype]

/-! ## The calls are made of edits -/

/-- A loop makes the edits of its calls. -/
theorem edits_forEach {β : Type*} {call : Heap F → β → Outcome F} {bs : List β}
    (hcall : ∀ h b h' ok, call h b = some (h', ok) → Edits h h') {h h' : Heap F} {ok : Bool}
    (hrun : forEach call h bs = some (h', ok)) : Edits h h' := by
  induction bs generalizing h with
  | nil =>
    cases hrun
    exact .refl
  | cons b bs ih =>
    unfold forEach at hrun
    split at hrun
    · next h₁ hb => exact (hcall h b h₁ true hb).trans (ih hrun)
    · next h₁ hb =>
      cases hrun
      exact hcall h b h' false hb
    · cases hrun

theorem edits_makeNode {h h' : Heap F} {fresh : Address} {kind : NodeKind}
    {graph : Option Address} {inputTypes outputTypes : OrderedSet TypeId}
    {group maxThreadCount : ℕ} (hstate : kind = .state → maxThreadCount = 1)
    (hrun : makeNode h fresh
      (makeExecBase kind graph inputTypes outputTypes group maxThreadCount) = some h') :
    Edits h h' := by
  unfold makeNode at hrun
  split at hrun
  · cases hrun
  · next hfree =>
    have hfree : h fresh = none := Option.not_isSome_iff_eq_none.mp hfree
    split at hrun
    · next hgraph =>
      obtain rfl : graph = none := hgraph
      obtain rfl := Option.some.inj hrun
      exact .single (.newNode _ _ _ _ _ _ hfree hstate)
    · next g hgraph =>
      obtain rfl : graph = some g := hgraph
      obtain ⟨gr, hgr, rfl⟩ := Option.map_eq_some_iff.mp hrun
      exact .single (.newNodeOf _ _ _ _ _ _ _ _ hfree hstate hgr)

theorem edits_clearSink (h : Heap F) (n : Address) : Edits h (clearSink h n) := by
  unfold clearSink
  split
  · next e he => exact .single (.clearSink n e he)
  · exact .refl

theorem edits_foldl_clearSink (ns : List Address) (h : Heap F) :
    Edits h (ns.foldl clearSink h) := by
  induction ns generalizing h with
  | nil => exact .refl
  | cons n ns ih => exact (edits_clearSink h n).trans (ih _)

theorem graph?_clearSink (h : Heap F) (n m : Address) :
    (clearSink h n).graph? m = h.graph? m := by
  unfold clearSink
  split
  · next e he => exact Heap.graph?_setExec (Heap.graph?_of_exec? he)
  · rfl

theorem graph?_foldl_clearSink (ns : List Address) (h : Heap F) (m : Address) :
    (ns.foldl clearSink h).graph? m = h.graph? m := by
  induction ns generalizing h with
  | nil => rfl
  | cons n ns ih => rw [List.foldl_cons, ih, graph?_clearSink]

theorem edits_tuSubGraph {h h' : Heap F} {graph sub : Address}
    (hrun : tuSubGraph h graph sub = some h') : Edits h h' := by
  obtain ⟨gr', hgr', hrun⟩ := Option.bind_eq_some_iff.mp hrun
  obtain ⟨gr, hgr, rfl⟩ := Option.map_eq_some_iff.mp hrun
  refine (edits_foldl_clearSink _ h).trans (.single (.subGraph graph sub gr gr' hgr ?_))
  rw [graph?_foldl_clearSink]
  exact hgr'

theorem edits_tuExec {h h' : Heap F} {node : Option Address} {type : TypeId} {exec : Option F}
    {ok : Bool} (hrun : tuExec h node type exec = some (h', ok)) : Edits h h' := by
  cases node with
  | none =>
    cases hrun
    exact .refl
  | some n =>
    rw [tuExec] at hrun
    split at hrun
    · cases hrun
    · cases hrun
      exact .refl
    · next e he =>
      split at hrun
      · cases hrun
        exact .single (.exec n e type exec (Heap.exec?_eq_some.mpr he))
      · cases hrun
        exact .refl

theorem edits_addInputExec {h : Heap F} {g n : Address} {gr : Graph} {e : ExecNode F}
    (type : TypeId) (hgr : h.graph? g = some gr) (he : h.exec? n = some e) :
    Edits h (addInputExec h g gr n e type).1 := by
  unfold addInputExec
  split
  · next hinput =>
    split
    · exact .single (.input g n gr e type hgr he (OrderedMap.contains_iff.mp hinput))
    · exact .refl
  · exact .refl

/-- A loop that writes one field again and again. -/
theorem edits_foldl {M : Type*} (put : M → Heap F) (f : M → TypeId → M) {types : List TypeId}
    (hedit : ∀ m, ∀ type ∈ types, Edit (put m) (put (f m type))) (m : M) :
    Edits (put m) (put (types.foldl f m)) := by
  induction types generalizing m with
  | nil => exact .refl
  | cons type types ih =>
    exact .head (hedit m type List.mem_cons_self)
      (ih (fun m t ht => hedit m t (List.mem_cons_of_mem _ ht)) (f m type))

theorem edits_addInputsExec {h : Heap F} {g n : Address} {gr : Graph} {e : ExecNode F}
    (hgr : h.graph? g = some gr) (he : h.exec? n = some e) :
    Edits h (addInputsExec h g gr n e).1 := by
  have hedits := edits_foldl (fun map => h.setGraph g { gr with inputs := map })
    (fun map type => map.modify type (·.insert n))
    (fun map type (htype : type ∈ e.inputs.keys.toList) => by
      have hedit := Edit.input g n { gr with inputs := map } e type Heap.graph?_setGraph_self
        (Heap.exec?_setGraph (Heap.exec?_of_graph? hgr) ▸ he) htype
      rwa [Heap.setGraph_setGraph] at hedit) gr.inputs
  rwa [Heap.setGraph_eq_self hgr] at hedits

theorem edits_output {h : Heap F} {g n : Address} {gr : Graph} {e : ExecNode F}
    (hgr : h.graph? g = some gr) (he : h.exec? n = some e) {types : List TypeId}
    (htypes : ∀ type ∈ types, type ∈ e.outputs.keys) :
    Edits h (h.setGraph g { gr with
      outputs := types.foldl (fun map type => map.modify type (·.insert n)) gr.outputs }) := by
  have hedits := edits_foldl (fun map => h.setGraph g { gr with outputs := map })
    (fun map type => map.modify type (·.insert n)) (fun map type (htype : type ∈ types) => by
      have hedit := Edit.output g n { gr with outputs := map } e type Heap.graph?_setGraph_self
        (Heap.exec?_setGraph (Heap.exec?_of_graph? hgr) ▸ he) (htypes type htype)
      rwa [Heap.setGraph_setGraph] at hedit) gr.outputs
  rwa [Heap.setGraph_eq_self hgr] at hedits

theorem edits_addOutputExec {h : Heap F} {g n : Address} {gr : Graph} {e : ExecNode F}
    (type : TypeId) (hgr : h.graph? g = some gr) (he : h.exec? n = some e) :
    Edits h (addOutputExec h g gr n e type).1 := by
  unfold addOutputExec
  split
  · next hdeclared =>
    split
    · next houtput =>
      have htypes : ∀ t ∈ [type], t ∈ e.outputs.keys := by
        intro t ht
        rw [List.mem_singleton.mp ht]
        exact OrderedMap.contains_iff.mp houtput
      refine (edits_output hgr he htypes).tail ?_
      · refine .sink g n _ e type Heap.graph?_setGraph_self
          (Heap.exec?_setGraph (Heap.exec?_of_graph? hgr) ▸ he) ?_
        exact mem_nodesOf_modify.mpr (Or.inr ⟨rfl, rfl, OrderedMap.contains_iff.mp hdeclared⟩)
    · exact .refl
  · exact .refl

/-- The nodes after the loop of `tu_add_outputs`. -/
theorem mem_nodesOf_foldl {map : OrderedMap TypeId (OrderedSet Address)} {types : List TypeId}
    {type : TypeId} {n m : Address} :
    m ∈ nodesOf (types.foldl (fun map t => map.modify t (·.insert n)) map) type ↔
      m ∈ nodesOf map type ∨ m = n ∧ type ∈ types ∧ type ∈ map.keys := by
  induction types generalizing map with
  | nil => simp
  | cons t types ih =>
    rw [List.foldl_cons, ih, mem_nodesOf_modify, List.mem_cons]
    constructor
    · rintro ((hm | ⟨rfl, rfl, ht⟩) | ⟨rfl, hmem, hkey⟩)
      · exact Or.inl hm
      · exact Or.inr ⟨rfl, Or.inl rfl, ht⟩
      · exact Or.inr ⟨rfl, Or.inr hmem, hkey⟩
    · rintro (hm | ⟨rfl, rfl | hmem, hkey⟩)
      · exact Or.inl (Or.inl hm)
      · exact Or.inl (Or.inr ⟨rfl, rfl, hkey⟩)
      · exact Or.inr ⟨rfl, hmem, hkey⟩

theorem edits_addOutputsExec {h : Heap F} {g n : Address} {gr : Graph} {e : ExecNode F}
    (hgr : h.graph? g = some gr) (he : h.exec? n = some e) :
    Edits h (addOutputsExec h g gr n e).1 := by
  have hedits := edits_output hgr he (fun type (htype : type ∈ e.outputs.keys.toList) => htype)
  unfold addOutputsExec
  split
  · next hany =>
    obtain ⟨type, htype, hdeclared⟩ := List.any_eq_true.mp hany
    refine hedits.tail (.sink g n _ e type Heap.graph?_setGraph_self
      (Heap.exec?_setGraph (Heap.exec?_of_graph? hgr) ▸ he) ?_)
    exact mem_nodesOf_foldl.mpr (Or.inr ⟨rfl, htype, OrderedMap.contains_iff.mp hdeclared⟩)
  · exact hedits

/-- The loop of `tu_edges`, or the body of `tu_edge`. -/
theorem edits_edge {h : Heap F} {n m : Address} {e e' : ExecNode F} (he : h.exec? n = some e)
    (he' : h.exec? m = some e') {types : List TypeId}
    (htypes : ∀ type ∈ types, type ∈ e'.inputs.keys) :
    Edits h (h.setExec n { e with
      outputs := types.foldl (fun map type => map.modify type (·.insert m type)) e.outputs }) := by
  have hreceiver : ∀ map, ∃ e'', (h.setExec n { e with outputs := map }).exec? m = some e'' ∧
      e''.inputs = e'.inputs := by
    intro map
    by_cases hm : m = n
    · subst hm
      obtain rfl := Option.some.inj (he.symm.trans he')
      exact ⟨_, Heap.exec?_setExec_self, rfl⟩
    · exact ⟨e', (Heap.exec?_setExec_of_ne hm).trans he', rfl⟩
  have hedits := edits_foldl (fun map => h.setExec n { e with outputs := map })
    (fun map type => map.modify type (·.insert m type))
    (fun map type (htype : type ∈ types) => by
      obtain ⟨e'', he'', hinputs⟩ := hreceiver map
      have hedit := Edit.edge n m { e with outputs := map } e'' type Heap.exec?_setExec_self he''
        (hinputs ▸ htypes type htype)
      rwa [Heap.setExec_setExec] at hedit) e.outputs
  rwa [Heap.setExec_eq_self he] at hedits

theorem edits_edgeExec {h : Heap F} {n m : Address} {e e' : ExecNode F} (type : TypeId)
    (he : h.exec? n = some e) (he' : h.exec? m = some e') :
    Edits h (edgeExec h n e m e' type).1 := by
  unfold edgeExec
  split
  · next hand =>
    have htypes : ∀ t ∈ [type], t ∈ e'.inputs.keys := by
      intro t ht
      rw [List.mem_singleton.mp ht]
      exact OrderedMap.contains_iff.mp hand.2
    exact edits_edge he he' htypes
  · exact .refl

/-! ## The recursive functions -/

theorem edits_tuAddInput {depth : ℕ} {h h' : Heap F} {graph node : Option Address}
    {type : TypeId} {ok : Bool} (hrun : tuAddInput depth h graph node type = some (h', ok)) :
    Edits h h' := by
  induction depth generalizing h h' graph node ok with
  | zero => cases hrun
  | succ depth ih =>
    cases graph with
    | none =>
      cases hrun
      exact .refl
    | some g =>
      cases node with
      | none =>
        cases hrun
        exact .refl
      | some n =>
        unfold tuAddInput at hrun
        split at hrun
        · cases hrun
        · unfold tuAddInputGraph at hrun
          split at hrun
          · cases hrun
            exact .refl
          · obtain ⟨sub, hsub, hrun⟩ := Option.bind_eq_some_iff.mp hrun
            exact .head (.inputKey n sub type hsub)
              (edits_forEach (fun _ _ _ _ hcall => ih hcall) hrun)
        · next e he =>
          obtain ⟨gr, hgr, heq⟩ := Option.map_eq_some_iff.mp hrun
          have hedits := edits_addInputExec type hgr (Heap.exec?_eq_some.mpr he)
          rwa [heq] at hedits

theorem edits_tuAddInputs {depth : ℕ} {h h' : Heap F} {graph node : Option Address} {ok : Bool}
    (hrun : tuAddInputs depth h graph node = some (h', ok)) : Edits h h' := by
  induction depth generalizing h h' graph node ok with
  | zero => cases hrun
  | succ depth ih =>
    cases graph with
    | none =>
      cases hrun
      exact .refl
    | some g =>
      cases node with
      | none =>
        cases hrun
        exact .refl
      | some n =>
        unfold tuAddInputs at hrun
        split at hrun
        · cases hrun
        · unfold tuAddInputsGraph at hrun
          split at hrun
          · cases hrun
            exact .refl
          · obtain ⟨sub, hsub, hrun⟩ := Option.bind_eq_some_iff.mp hrun
            refine edits_forEach (fun h₁ type h₂ ok₁ hcall => ?_) hrun
            obtain ⟨gr, hgr, hcall⟩ := Option.bind_eq_some_iff.mp hcall
            split at hcall
            · cases hcall
              exact .refl
            · exact edits_forEach (fun _ _ _ _ hcall => ih hcall) hcall
        · next e he =>
          obtain ⟨gr, hgr, heq⟩ := Option.map_eq_some_iff.mp hrun
          have hedits := edits_addInputsExec hgr (Heap.exec?_eq_some.mpr he)
          rwa [heq] at hedits

theorem edits_tuAddOutput {depth : ℕ} {h h' : Heap F} {graph node : Option Address}
    {type : TypeId} {ok : Bool} (hrun : tuAddOutput depth h graph node type = some (h', ok)) :
    Edits h h' := by
  induction depth generalizing h h' graph node ok with
  | zero => cases hrun
  | succ depth ih =>
    cases graph with
    | none =>
      cases hrun
      exact .refl
    | some g =>
      cases node with
      | none =>
        cases hrun
        exact .refl
      | some n =>
        unfold tuAddOutput at hrun
        split at hrun
        · cases hrun
        · obtain ⟨sub, hsub, hrun⟩ := Option.bind_eq_some_iff.mp hrun
          exact .head (.outputKey n sub type hsub)
            (edits_forEach (fun _ _ _ _ hcall => ih hcall) hrun)
        · next e he =>
          obtain ⟨gr, hgr, heq⟩ := Option.map_eq_some_iff.mp hrun
          have hedits := edits_addOutputExec type hgr (Heap.exec?_eq_some.mpr he)
          rwa [heq] at hedits

theorem edits_tuAddOutputs {depth : ℕ} {h h' : Heap F} {graph node : Option Address} {ok : Bool}
    (hrun : tuAddOutputs depth h graph node = some (h', ok)) : Edits h h' := by
  induction depth generalizing h h' graph node ok with
  | zero => cases hrun
  | succ depth ih =>
    cases graph with
    | none =>
      cases hrun
      exact .refl
    | some g =>
      cases node with
      | none =>
        cases hrun
        exact .refl
      | some n =>
        unfold tuAddOutputs at hrun
        split at hrun
        · cases hrun
        · obtain ⟨sub, hsub, hrun⟩ := Option.bind_eq_some_iff.mp hrun
          refine edits_forEach (fun h₁ type h₂ ok₁ hcall => ?_) hrun
          obtain ⟨gr, hgr, hcall⟩ := Option.bind_eq_some_iff.mp hcall
          split at hcall
          · cases hcall
            exact .refl
          · exact edits_forEach (fun _ _ _ _ hcall => ih hcall) hcall
        · next e he =>
          obtain ⟨gr, hgr, heq⟩ := Option.map_eq_some_iff.mp hrun
          have hedits := edits_addOutputsExec hgr (Heap.exec?_eq_some.mpr he)
          rwa [heq] at hedits

theorem edits_tuEdge {depth : ℕ} {h h' : Heap F} {sender receiver : Option Address}
    {type : TypeId} {ok : Bool} (hrun : tuEdge depth h sender receiver type = some (h', ok)) :
    Edits h h' := by
  induction depth generalizing h h' sender receiver ok with
  | zero => cases hrun
  | succ depth ih =>
    cases sender with
    | none =>
      cases hrun
      exact .refl
    | some n =>
      cases receiver with
      | none =>
        cases hrun
        exact .refl
      | some m =>
        unfold tuEdge at hrun
        split at hrun
        · next gr _ hgr _ =>
          exact .head (.outputKey n gr type (Heap.graph?_eq_some.mpr hgr))
            (edits_forEach (fun _ _ _ _ hcall => ih hcall) hrun)
        · next _ gr _ hgr =>
          exact .head (.inputKey m gr type (Heap.graph?_eq_some.mpr hgr))
            (edits_forEach (fun _ _ _ _ hcall => ih hcall) hrun)
        · next e e' he he' =>
          have hedits := edits_edgeExec type (Heap.exec?_eq_some.mpr he)
            (Heap.exec?_eq_some.mpr he')
          rwa [Option.some.inj hrun] at hedits
        · cases hrun

theorem edits_tuEdges {depth : ℕ} {h h' : Heap F} {sender receiver : Option Address} {ok : Bool}
    (hrun : tuEdges depth h sender receiver = some (h', ok)) : Edits h h' := by
  induction depth generalizing h h' sender receiver ok with
  | zero => cases hrun
  | succ depth ih =>
    cases sender with
    | none =>
      cases hrun
      exact .refl
    | some n =>
      cases receiver with
      | none =>
        cases hrun
        exact .refl
      | some m =>
        unfold tuEdges at hrun
        split at hrun
        · exact edits_forEach (fun _ _ _ _ hcall => ih hcall) hrun
        · exact edits_forEach (fun _ _ _ _ hcall => ih hcall) hrun
        · next e e' he he' =>
          have hedits := edits_edge (Heap.exec?_eq_some.mpr he) (Heap.exec?_eq_some.mpr he')
            fun type (htype : type ∈ e'.inputs.keys.toList) => htype
          obtain ⟨rfl, -⟩ := Prod.mk.inj (Option.some.inj hrun)
          exact hedits
        · cases hrun

/-- **A call of the builder is a sequence of edits.** -/
theorem edits_of_step {h h' : Heap F} {a : Action F} (hstep : (system F).step h a = some h') :
    Edits h h' := by
  have hstep : a.call.run a.depth h = some h' := hstep
  have hfst : ∀ {o : Outcome F}, (∀ ok, o = some (h', ok) → Edits h h') →
      o.map Prod.fst = some h' → Edits h h' := by
    intro o ho heq
    obtain ⟨⟨h₁, ok⟩, ho', rfl⟩ := Option.map_eq_some_iff.mp heq
    exact ho ok ho'
  cases hcall : a.call with
  | graphCreate fresh inputTypes outputTypes =>
    rw [hcall, Call.run, tuGraphCreate] at hstep
    split at hstep
    · cases hstep
    · next hfree =>
      obtain rfl := Option.some.inj hstep
      exact .single (.newGraph _ _ _ (Option.not_isSome_iff_eq_none.mp hfree))
  | task fresh graph inputTypes outputTypes dfgGroup maxThreadCount =>
    rw [hcall] at hstep
    exact edits_makeNode (by simp) hstep
  | state fresh graph inputTypes outputTypes dfgGroup =>
    rw [hcall] at hstep
    exact edits_makeNode (fun _ => rfl) hstep
  | subGraph graph sub =>
    rw [hcall] at hstep
    exact edits_tuSubGraph hstep
  | exec node type proc =>
    rw [hcall] at hstep
    exact hfst (fun ok ho => edits_tuExec ho) hstep
  | addInput graph node type =>
    rw [hcall] at hstep
    exact hfst (fun ok ho => edits_tuAddInput ho) hstep
  | addInputs graph node =>
    rw [hcall] at hstep
    exact hfst (fun ok ho => edits_tuAddInputs ho) hstep
  | addOutput graph node type =>
    rw [hcall] at hstep
    exact hfst (fun ok ho => edits_tuAddOutput ho) hstep
  | addOutputs graph node =>
    rw [hcall] at hstep
    exact hfst (fun ok ho => edits_tuAddOutputs ho) hstep
  | edge sender receiver type =>
    rw [hcall] at hstep
    exact hfst (fun ok ho => edits_tuEdge ho) hstep
  | edges sender receiver =>
    rw [hcall] at hstep
    exact hfst (fun ok ho => edits_tuEdges ho) hstep

/-- **The invariant rule of the builder.**  What an edit preserves holds of every heap that calls
lead to. -/
theorem invariant_of_edit {I : Heap F → Prop} (hempty : I .empty)
    (hedit : ∀ h h', I h → Edit h h' → I h') {ok : Heap F → Action F → Prop} {h : Heap F}
    (hr : (system F).Reaches ok h) : I h := by
  refine hr.invariant (I := I) ?_ fun h a h' _ hI _ hstep => ?_
  · rintro h rfl
    exact hempty
  · have hedits := edits_of_step hstep
    clear hstep
    induction hedits with
    | refl => exact hI
    | tail _ hlast ih => exact hedit _ _ ih hlast

end Builder
end Dfg
end ThreadUtils
