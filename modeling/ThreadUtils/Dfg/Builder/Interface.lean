import ThreadUtils.Dfg.Builder.BoundaryCalls
import ThreadUtils.Dfg.Builder.EdgeCalls

/-!
# The declared types of a graph

The types that a graph was created with are the keys of `graph->inputs` and `graph->outputs`.
`tu_add_input`, `tu_add_output` and `tu_edge` look a nested graph up with `operator[]`, so a call
with a type that the graph does not declare returns true and declares it.  All other functions of
the builder look up with `find` or go over the keys that are there.

## Why the keys matter

The keys are the interface of the graph.  `tu_result` asks for the key of the type when it passes a
result on to the sink, and `tu_dfg_push_data` for the key of the datum.  A key that a call has made
by accident is one of them from then on, with no node behind it.

## The two directions

A call is told by its insertions, and the keys change if the list has a key that was not there
(`interfaceKept_putAll_iff`).  Which keys a call inserts depends on the maps it looks up, and those
are maps of its arguments: the nodes that a graph declares are never graphs.  So `Declared` asks for
the arguments of the call only, and it is exact: a call for an undeclared type finds no node to loop
over, and so there is no node that could refuse it.

* `interface_fixed` --- in a run without such a call the types of a graph stay as created.
* `interfaceKept_iff` --- a call changes the types of a graph exactly if it is such a call.
* `not_interface_fixed` --- an edge out of a graph that has no output.
-/

namespace ThreadUtils
namespace Dfg
namespace Builder

variable {F : Type*} {h h' : Heap F}

/-- The types of the graphs are as before. -/
def InterfaceKept (h h' : Heap F) : Prop :=
  ∀ g gr, h.graph? g = some gr → ∃ gr', h'.graph? g = some gr' ∧
    gr'.inputs.keys = gr.inputs.keys ∧ gr'.outputs.keys = gr.outputs.keys

/-- The graphs that the call looks up with `operator[]` declare the type. -/
def Declared (h : Heap F) : Call F → Prop
  | .addInput (some g) (some n) type => g ≠ n → (h.graph? n).isSome → InputType h n type
  | .addOutput (some _) (some n) type => (h.graph? n).isSome → OutputType h n type
  | .edge (some sender) (some receiver) type =>
      ((h.graph? sender).isSome → OutputType h sender type) ∧
        ((h.graph? receiver).isSome → flatOut h sender type ≠ [] → InputType h receiver type)
  | _ => True

namespace InterfaceKept

theorem refl (h : Heap F) : InterfaceKept h h :=
  fun _ gr hgr => ⟨gr, hgr, rfl, rfl⟩

theorem trans {h'' : Heap F} (hkept : InterfaceKept h h') (hkept' : InterfaceKept h' h'') :
    InterfaceKept h h'' := by
  intro g gr hgr
  obtain ⟨gr', hgr', hin, hout⟩ := hkept g gr hgr
  obtain ⟨gr'', hgr'', hin', hout'⟩ := hkept' g gr' hgr'
  exact ⟨gr'', hgr'', hin'.trans hin, hout'.trans hout⟩

/-- A write of a node. -/
theorem setExec {n : Address} (hn : h.graph? n = none) (e : ExecNode F) :
    InterfaceKept h (h.setExec n e) :=
  fun _ gr hgr => ⟨gr, (Heap.graph?_setExec hn).trans hgr, rfl, rfl⟩

/-- A write of a graph that leaves its types alone. -/
theorem setGraph {g : Address} {gr gr' : Graph} (hgr : h.graph? g = some gr)
    (hin : gr'.inputs.keys = gr.inputs.keys) (hout : gr'.outputs.keys = gr.outputs.keys) :
    InterfaceKept h (h.setGraph g gr') := by
  intro a gr₀ hgr₀
  by_cases ha : a = g
  · subst ha
    obtain rfl := Option.some.inj (hgr.symm.trans hgr₀)
    exact ⟨gr', Heap.graph?_setGraph_self, hin, hout⟩
  · exact ⟨gr₀, (Heap.graph?_setGraph_of_ne ha).trans hgr₀, rfl, rfl⟩

/-- A new graph. -/
theorem setGraph_free {g : Address} (hfree : h g = none) (gr : Graph) :
    InterfaceKept h (h.setGraph g gr) := by
  intro a gr₀ hgr₀
  refine ⟨gr₀, (Heap.graph?_setGraph_of_ne ?_).trans hgr₀, rfl, rfl⟩
  rintro rfl
  rw [Heap.graph?_of_free hfree] at hgr₀
  cases hgr₀

end InterfaceKept

/-- **The types after a list of insertions** are the same if the keys in it were there. -/
theorem interfaceKept_putAll_iff {l : List Insertion} : InterfaceKept h (putAll h l) ↔
    ∀ g type, (h.graph? g).isSome → (.inputKey g type ∈ l → InputType h g type) ∧
      (.outputKey g type ∈ l → OutputType h g type) := by
  constructor
  · intro hkept g type hg
    obtain ⟨gr, hgr⟩ := Option.isSome_iff_exists.mp hg
    obtain ⟨gr', hgr', hin, hout⟩ := hkept g gr hgr
    constructor
    · intro hmem
      have hput : InputType (putAll h l) g type := (inputType_putAll l).mpr (Or.inr ⟨hmem, hg⟩)
      obtain ⟨gr'', hgr'', htype⟩ := hput
      obtain rfl := Option.some.inj (hgr'.symm.trans hgr'')
      exact ⟨gr, hgr, hin ▸ htype⟩
    · intro hmem
      have hput : OutputType (putAll h l) g type := (outputType_putAll l).mpr (Or.inr ⟨hmem, hg⟩)
      obtain ⟨gr'', hgr'', htype⟩ := hput
      obtain rfl := Option.some.inj (hgr'.symm.trans hgr'')
      exact ⟨gr, hgr, hout ▸ htype⟩
  · intro hkeys g gr hgr
    have hg : (h.graph? g).isSome := Option.isSome_iff_exists.mpr ⟨gr, hgr⟩
    have hg' : ((putAll h l).graph? g).isSome := (isSome_graph?_putAll l).trans hg
    obtain ⟨gr', hgr'⟩ := Option.isSome_iff_exists.mp hg'
    refine ⟨gr', hgr', OrderedSet.ext_of_mem fun type => ?_, OrderedSet.ext_of_mem fun type => ?_⟩
    · rw [← inputTypes_graph hgr', ← inputTypes_graph hgr, mem_inputTypes_graph hg',
        mem_inputTypes_graph hg, inputType_putAll]
      exact or_iff_left_of_imp fun hand => (hkeys g type hg).1 hand.1
    · rw [← outputTypes_graph hgr', ← outputTypes_graph hgr, mem_outputTypes_graph hg',
        mem_outputTypes_graph hg, outputType_putAll]
      exact or_iff_left_of_imp fun hand => (hkeys g type hg).2 hand.1

/-- A list that inserts no key. -/
theorem interfaceKept_putAll {l : List Insertion}
    (hl : ∀ g type, .inputKey g type ∉ l ∧ .outputKey g type ∉ l) :
    InterfaceKept h (putAll h l) :=
  interfaceKept_putAll_iff.mpr fun g type _ =>
    ⟨fun hmem => absurd hmem (hl g type).1, fun hmem => absurd hmem (hl g type).2⟩

theorem interfaceKept_put_inputKey {g : Address} {type : TypeId} (hg : (h.graph? g).isSome) :
    InterfaceKept h (put h (.inputKey g type)) ↔ InputType h g type := by
  rw [← putAll_nil (put h _), ← putAll_cons, interfaceKept_putAll_iff]
  constructor
  · exact fun hkeys => (hkeys g type hg).1 (List.mem_singleton_self _)
  · intro htype a u _
    constructor
    · intro hmem
      obtain ⟨rfl, rfl⟩ := Insertion.inputKey.inj (List.mem_singleton.mp hmem)
      exact htype
    · simp

theorem interfaceKept_put_outputKey {g : Address} {type : TypeId} (hg : (h.graph? g).isSome) :
    InterfaceKept h (put h (.outputKey g type)) ↔ OutputType h g type := by
  rw [← putAll_nil (put h _), ← putAll_cons, interfaceKept_putAll_iff]
  constructor
  · exact fun hkeys => (hkeys g type hg).2 (List.mem_singleton_self _)
  · intro htype a u _
    constructor
    · simp
    · intro hmem
      obtain ⟨rfl, rfl⟩ := Insertion.outputKey.inj (List.mem_singleton.mp hmem)
      exact htype

/-! ## The calls -/

theorem interfaceKept_makeNode {fresh : Address} {e : ExecNode F}
    (hrun : makeNode h fresh e = some h') : InterfaceKept h h' := by
  unfold makeNode at hrun
  split at hrun
  · cases hrun
  · next hfree =>
    have hfree : h fresh = none := Option.not_isSome_iff_eq_none.mp hfree
    have hkept : InterfaceKept h (h.setExec fresh e) := .setExec (Heap.graph?_of_free hfree) e
    split at hrun
    · cases hrun
      exact hkept
    · next g _ =>
      obtain ⟨gr, hgr, rfl⟩ := Option.map_eq_some_iff.mp hrun
      have hgr' : (h.setExec fresh e).graph? g = some gr := by
        rw [Heap.graph?_setExec (Heap.graph?_of_free hfree)]
        exact hgr
      exact hkept.trans (.setGraph hgr' rfl rfl)

theorem interfaceKept_foldl_clearSink (ns : List Address) (h : Heap F) :
    InterfaceKept h (ns.foldl clearSink h) :=
  fun _ gr hgr => ⟨gr, (graph?_foldl_clearSink ns h _).trans hgr, rfl, rfl⟩

theorem interfaceKept_tuSubGraph {graph sub : Address} (hrun : tuSubGraph h graph sub = some h') :
    InterfaceKept h h' := by
  obtain ⟨gr', hgr', hrun⟩ := Option.bind_eq_some_iff.mp hrun
  obtain ⟨gr, hgr, rfl⟩ := Option.map_eq_some_iff.mp hrun
  exact (interfaceKept_foldl_clearSink _ h).trans (.setGraph hgr rfl rfl)

theorem interfaceKept_tuExec {node : Option Address} {type : TypeId} {exec : Option F} {ok : Bool}
    (hrun : tuExec h node type exec = some (h', ok)) : InterfaceKept h h' := by
  cases node with
  | none =>
    cases hrun
    exact .refl h
  | some n =>
    rw [tuExec] at hrun
    split at hrun
    · cases hrun
    · cases hrun
      exact .refl h
    · next e he =>
      split at hrun <;> cases hrun
      · exact .setExec (Heap.graph?_of_exec? (Heap.exec?_eq_some.mpr he)) _
      · exact .refl h

theorem interfaceKept_tuAddInput_iff (hW : WellFormed h) {depth : ℕ} {graph node : Option Address}
    {type : TypeId} {ok : Bool} (hrun : tuAddInput depth h graph node type = some (h', ok)) :
    InterfaceKept h h' ↔ Declared h (.addInput graph node type : Call F) := by
  have hrun := tuAddInput_of_le (Nat.le_add_right depth 2) hrun
  cases graph with
  | none =>
    cases hrun
    exact iff_of_true (.refl h) trivial
  | some g =>
    cases node with
    | none =>
      cases hrun
      exact iff_of_true (.refl h) trivial
    | some n =>
      by_cases hdeclared : Declared h (.addInput (some g) (some n) type : Call F)
      · refine iff_of_true ?_ hdeclared
        by_cases hg : (h.graph? g).isSome
        · have hn : h n ≠ none := by
            intro hn
            rw [tuAddInput, hn] at hrun
            cases hrun
          by_cases hall : g ≠ n ∧ InputType h g type ∧ ∀ m ∈ flatIn h n type, HasInput h type m
          · rw [tuAddInput_eq hall.1 hall.2.1 hall.2.2 depth] at hrun
            obtain ⟨rfl, -⟩ := Prod.mk.inj (Option.some.inj hrun)
            refine interfaceKept_putAll_iff.mpr fun a u ha => ⟨fun hmem => ?_, fun hmem => ?_⟩
            · obtain ⟨rfl, rfl, hgraph⟩ := inputKey_mem_inputEntries.mp hmem
              exact hdeclared hall.1 hgraph
            · exact absurd hmem outputKey_notMem_inputEntries
          · rcases tuAddInput_refused hW hg hn hall depth with hrefused | ⟨hkey, hne, hgraph⟩
            · rw [hrefused] at hrun
              cases hrun
              exact .refl h
            · rw [hkey] at hrun
              obtain ⟨rfl, -⟩ := Prod.mk.inj (Option.some.inj hrun)
              exact (interfaceKept_put_inputKey hgraph).mpr (hdeclared hne hgraph)
        · obtain ⟨hne, hgraph, rfl⟩ :=
            tuAddInput_not_graph hW (Option.not_isSome_iff_eq_none.mp hg) hrun
          exact (interfaceKept_put_inputKey hgraph).mpr (hdeclared hne hgraph)
      · -- the graph has no node for the type, and the loop is over before it begins
        refine iff_of_false ?_ hdeclared
        simp only [Declared, not_forall] at hdeclared
        obtain ⟨hne, hgraph, hnot⟩ := hdeclared
        obtain ⟨sub, hsub⟩ := Option.isSome_iff_exists.mp hgraph
        have hnil : flatIn h n type = [] := by
          by_contra hne'
          exact hnot (inputType_of_flatIn hgraph hne')
        rw [tuAddInput_graph hne hsub, hnil] at hrun
        obtain ⟨rfl, -⟩ := Prod.mk.inj (Option.some.inj hrun)
        exact fun hkept => hnot ((interfaceKept_put_inputKey hgraph).mp hkept)

theorem interfaceKept_tuAddOutput_iff (hW : WellFormed h) {depth : ℕ}
    {graph node : Option Address} {type : TypeId} {ok : Bool}
    (hrun : tuAddOutput depth h graph node type = some (h', ok)) :
    InterfaceKept h h' ↔ Declared h (.addOutput graph node type : Call F) := by
  have hrun := tuAddOutput_of_le (Nat.le_add_right depth 2) hrun
  cases graph with
  | none =>
    cases hrun
    exact iff_of_true (.refl h) trivial
  | some g =>
    cases node with
    | none =>
      cases hrun
      exact iff_of_true (.refl h) trivial
    | some n =>
      by_cases hdeclared : Declared h (.addOutput (some g) (some n) type : Call F)
      · refine iff_of_true ?_ hdeclared
        by_cases hg : (h.graph? g).isSome
        · have hn : h n ≠ none := by
            intro hn
            rw [tuAddOutput, hn] at hrun
            cases hrun
          by_cases hall : OutputType h g type
          · rw [tuAddOutput_eq hall (hW.isSome_flatOut hn) depth] at hrun
            obtain ⟨rfl, -⟩ := Prod.mk.inj (Option.some.inj hrun)
            refine interfaceKept_putAll_iff.mpr fun a u ha => ⟨fun hmem => ?_, fun hmem => ?_⟩
            · exact absurd hmem inputKey_notMem_outputEntries
            · obtain ⟨rfl, rfl, hgraph⟩ := outputKey_mem_outputEntries.mp hmem
              exact hdeclared hgraph
          · rcases tuAddOutput_refused hW hg hn hall depth with hrefused | ⟨hkey, hgraph⟩
            · rw [hrefused] at hrun
              cases hrun
              exact .refl h
            · rw [hkey] at hrun
              obtain ⟨rfl, -⟩ := Prod.mk.inj (Option.some.inj hrun)
              exact (interfaceKept_put_outputKey hgraph).mpr (hdeclared hgraph)
        · obtain ⟨hgraph, rfl⟩ :=
            tuAddOutput_not_graph hW (Option.not_isSome_iff_eq_none.mp hg) hrun
          exact (interfaceKept_put_outputKey hgraph).mpr (hdeclared hgraph)
      · refine iff_of_false ?_ hdeclared
        simp only [Declared, not_forall] at hdeclared
        obtain ⟨hgraph, hnot⟩ := hdeclared
        obtain ⟨sub, hsub⟩ := Option.isSome_iff_exists.mp hgraph
        have hnil : flatOut h n type = [] := by
          by_contra hne'
          exact hnot (outputType_of_flatOut hgraph hne')
        rw [tuAddOutput_graph hsub, hnil] at hrun
        obtain ⟨rfl, -⟩ := Prod.mk.inj (Option.some.inj hrun)
        exact fun hkept => hnot ((interfaceKept_put_outputKey hgraph).mp hkept)

/-- An edge that is refused goes through declared types only: for any other type there is no node
to refuse. -/
theorem declared_of_tuEdge_refused (hW : WellFormed h) {sender receiver : Address}
    {type : TypeId} {depth : ℕ} (hsender : h sender ≠ none) (hreceiver : h receiver ≠ none)
    (hrun : tuEdge (depth + 3) h (some sender) (some receiver) type = some (h', false)) :
    Declared h (.edge (some sender) (some receiver) type : Call F) := by
  constructor
  · intro hgraph
    by_contra hnot
    obtain ⟨gr, hgr⟩ := Option.isSome_iff_exists.mp hgraph
    have hnil : flatOut h sender type = [] := by
      by_contra hne
      exact hnot (outputType_of_flatOut hgraph hne)
    rw [tuEdge_graph_sender hgr hreceiver, hnil] at hrun
    cases hrun
  · intro hgraph hne
    by_contra hnot
    obtain ⟨gr, hgr⟩ := Option.isSome_iff_exists.mp hgraph
    have hnil : flatIn h receiver type = [] := by
      by_contra hne'
      exact hnot (inputType_of_flatIn hgraph hne')
    rcases isSome_exec?_or_graph? hsender with hexec | hgraph'
    · rw [tuEdge_graph_receiver hexec hgr, hnil] at hrun
      cases hrun
    · rw [tuEdge_eq (fun n hn => hW.hasOutput_flatOut hgraph' hn)
        (fun m hm => hW.hasInput_flatIn hgraph hm) hreceiver] at hrun
      cases hrun

theorem interfaceKept_tuEdge_iff (hW : WellFormed h) {depth : ℕ} {sender receiver : Option Address}
    {type : TypeId} {ok : Bool} (hrun : tuEdge depth h sender receiver type = some (h', ok)) :
    InterfaceKept h h' ↔ Declared h (.edge sender receiver type : Call F) := by
  have hrun := tuEdge_of_le (Nat.le_add_right depth 3) hrun
  cases sender with
  | none =>
    cases hrun
    exact iff_of_true (.refl h) trivial
  | some s =>
    cases receiver with
    | none =>
      cases hrun
      exact iff_of_true (.refl h) trivial
    | some r =>
      obtain ⟨hs, hr⟩ : h s ≠ none ∧ h r ≠ none := by
        constructor
        · intro hs
          rw [tuEdge, hs] at hrun
          cases hrun
        · intro hr
          rw [tuEdge, hr] at hrun
          generalize h s = o at hrun
          rcases o with _ | _ | _ <;> cases hrun
      by_cases hall : (∀ n ∈ flatOut h s type, HasOutput h type n) ∧
          ∀ m ∈ flatIn h r type, HasInput h type m
      · rw [tuEdge_eq hall.1 hall.2 hr depth] at hrun
        obtain ⟨rfl, -⟩ := Prod.mk.inj (Option.some.inj hrun)
        rw [interfaceKept_putAll_iff]
        simp only [inputKey_mem_edgeEntries, outputKey_mem_edgeEntries]
        constructor
        · intro hkeys
          exact ⟨fun hgraph => (hkeys s type hgraph).2 ⟨rfl, rfl, hgraph⟩,
            fun hgraph hne => (hkeys r type hgraph).1 ⟨rfl, rfl, hgraph, hne⟩⟩
        · rintro ⟨hsender, hreceiver⟩ a u -
          constructor
          · rintro ⟨rfl, rfl, hgraph, hne⟩
            exact hreceiver hgraph hne
          · rintro ⟨rfl, rfl, hgraph⟩
            exact hsender hgraph
      · rcases tuEdge_refused hW hs hr hall depth with hrefused | ⟨-, i, hkey, hi⟩
        · have hdeclared := declared_of_tuEdge_refused hW hs hr hrefused
          rw [hrefused] at hrun
          cases hrun
          exact iff_of_true (.refl h) hdeclared
        · rw [hkey] at hrun
          obtain ⟨rfl, -⟩ := Prod.mk.inj (Option.some.inj hrun)
          rcases hi with ⟨rfl, hgraph⟩ | ⟨rfl, hgraph, hexec⟩
          · rw [interfaceKept_put_outputKey hgraph]
            refine ⟨fun htype => ⟨fun _ => htype, fun hgraph' _ => ?_⟩, fun hand => hand.1 hgraph⟩
            exact absurd ⟨fun n hn => hW.hasOutput_flatOut hgraph hn,
              fun m hm => hW.hasInput_flatIn hgraph' hm⟩ hall
          · have hnone := graph?_eq_none_of_isSome hexec
            rw [interfaceKept_put_inputKey hgraph]
            constructor
            · refine fun htype => ⟨fun hgraph' => ?_, fun _ _ => htype⟩
              rw [hnone] at hgraph'
              cases hgraph'
            · refine fun hand => hand.2 hgraph ?_
              rw [flatOut, hnone]
              exact List.cons_ne_nil _ _

theorem interfaceKept_tuAddInputs (hW : WellFormed h) {depth : ℕ} {graph node : Option Address}
    {ok : Bool} (hrun : tuAddInputs depth h graph node = some (h', ok)) : InterfaceKept h h' := by
  have hrun := tuAddInputs_of_le (Nat.le_add_right depth 2) hrun
  cases graph with
  | none =>
    cases hrun
    exact .refl h
  | some g =>
    cases node with
    | none =>
      cases hrun
      exact .refl h
    | some n =>
      by_cases hall : g ≠ n ∧ (h.graph? g).isSome ∧ h n ≠ none
      · rw [tuAddInputs_eq hW hall.1 hall.2.1 hall.2.2 depth] at hrun
        obtain ⟨rfl, -⟩ := Prod.mk.inj (Option.some.inj hrun)
        refine interfaceKept_putAll fun a u => ⟨fun hmem => ?_, fun hmem => ?_⟩
        · obtain ⟨type, m, heq⟩ := eq_input_of_mem hmem
          cases heq
        · obtain ⟨type, m, heq⟩ := eq_input_of_mem hmem
          cases heq
      · unfold tuAddInputs at hrun
        split at hrun
        · cases hrun
        · next sub hn =>
          unfold tuAddInputsGraph at hrun
          split at hrun
          · cases hrun
            exact .refl h
          · next hne =>
            have hg : h.graph? g = none := by
              by_contra hg
              exact hall ⟨hne, Option.isSome_iff_ne_none.mpr hg, by rw [hn]; simp⟩
            rw [Heap.graph?_eq_some.mpr hn, Option.bind_some] at hrun
            cases hkeys : sub.inputs.keys.toList with
            | nil =>
              rw [hkeys] at hrun
              cases hrun
              exact .refl h
            | cons type types =>
              rw [hkeys, forEach, hg] at hrun
              cases hrun
        · next e hn =>
          have hg : h.graph? g = none := by
            by_contra hg
            refine hall ⟨?_, Option.isSome_iff_ne_none.mpr hg, by rw [hn]; simp⟩
            rintro rfl
            exact hg (Heap.graph?_of_exec? (Heap.exec?_eq_some.mpr hn))
          rw [hg] at hrun
          cases hrun

theorem interfaceKept_tuAddOutputs (hW : WellFormed h) {depth : ℕ} {graph node : Option Address}
    {ok : Bool} (hrun : tuAddOutputs depth h graph node = some (h', ok)) : InterfaceKept h h' := by
  have hrun := tuAddOutputs_of_le (Nat.le_add_right depth 2) hrun
  cases graph with
  | none =>
    cases hrun
    exact .refl h
  | some g =>
    cases node with
    | none =>
      cases hrun
      exact .refl h
    | some n =>
      by_cases hall : (h.graph? g).isSome ∧ h n ≠ none
      · rw [tuAddOutputs_eq hW hall.1 hall.2 depth] at hrun
        obtain ⟨rfl, -⟩ := Prod.mk.inj (Option.some.inj hrun)
        refine interfaceKept_putAll fun a u => ⟨fun hmem => ?_, fun hmem => ?_⟩
        · obtain ⟨type, m, heq⟩ := eq_output_of_mem hmem
          cases heq
        · obtain ⟨type, m, heq⟩ := eq_output_of_mem hmem
          cases heq
      · unfold tuAddOutputs at hrun
        split at hrun
        · cases hrun
        · next sub hn =>
          have hg : h.graph? g = none := by
            by_contra hg
            exact hall ⟨Option.isSome_iff_ne_none.mpr hg, by rw [hn]; simp⟩
          rw [tuAddOutputsGraph, Heap.graph?_eq_some.mpr hn, Option.bind_some] at hrun
          cases hkeys : sub.outputs.keys.toList with
          | nil =>
            rw [hkeys] at hrun
            cases hrun
            exact .refl h
          | cons type types =>
            rw [hkeys, forEach, hg] at hrun
            cases hrun
        · next e hn =>
          have hg : h.graph? g = none := by
            by_contra hg
            exact hall ⟨Option.isSome_iff_ne_none.mpr hg, by rw [hn]; simp⟩
          rw [hg] at hrun
          cases hrun

theorem interfaceKept_tuEdges (hW : WellFormed h) {depth : ℕ} {sender receiver : Option Address}
    {ok : Bool} (hrun : tuEdges depth h sender receiver = some (h', ok)) : InterfaceKept h h' := by
  have hrun := tuEdges_of_le (Nat.le_add_right depth 3) hrun
  cases sender with
  | none =>
    cases hrun
    exact .refl h
  | some s =>
    cases receiver with
    | none =>
      cases hrun
      exact .refl h
    | some r =>
      obtain ⟨hs, hr⟩ : h s ≠ none ∧ h r ≠ none := by
        constructor
        · intro hs
          rw [tuEdges, hs] at hrun
          cases hrun
        · intro hr
          rw [tuEdges, hr] at hrun
          generalize h s = o at hrun
          rcases o with _ | _ | _ <;> cases hrun
      rw [tuEdges_eq hW hs hr depth] at hrun
      obtain ⟨rfl, -⟩ := Prod.mk.inj (Option.some.inj hrun)
      refine interfaceKept_putAll fun a u => ⟨fun hmem => ?_, fun hmem => ?_⟩
      · obtain ⟨n, m, type, heq⟩ := eq_edge_of_mem hmem
        cases heq
      · obtain ⟨n, m, type, heq⟩ := eq_edge_of_mem hmem
        cases heq

/-- **What a call does to the declared types.**  It leaves them as they are exactly if every graph
it looks up with `operator[]` declares the type. -/
theorem interfaceKept_iff {ok : Heap F → Action F → Prop} (hr : (system F).Reaches ok h)
    {a : Action F} (hstep : (system F).step h a = some h') :
    InterfaceKept h h' ↔ Declared h a.call := by
  have hW := wellFormed_of_reaches hr
  have hstep : a.call.run a.depth h = some h' := hstep
  have hfst : ∀ {o : Outcome F}, o.map Prod.fst = some h' → ∃ ok, o = some (h', ok) := by
    intro o heq
    obtain ⟨⟨h₁, ok⟩, ho, rfl⟩ := Option.map_eq_some_iff.mp heq
    exact ⟨ok, ho⟩
  cases hcall : a.call with
  | graphCreate fresh inputTypes outputTypes =>
    rw [hcall, Call.run, tuGraphCreate] at hstep
    split at hstep
    · cases hstep
    · next hfree =>
      obtain rfl := Option.some.inj hstep
      exact iff_of_true (.setGraph_free (Option.not_isSome_iff_eq_none.mp hfree) _) trivial
  | task fresh graph inputTypes outputTypes dfgGroup maxThreadCount =>
    rw [hcall] at hstep
    exact iff_of_true (interfaceKept_makeNode hstep) trivial
  | state fresh graph inputTypes outputTypes dfgGroup =>
    rw [hcall] at hstep
    exact iff_of_true (interfaceKept_makeNode hstep) trivial
  | subGraph graph sub =>
    rw [hcall] at hstep
    exact iff_of_true (interfaceKept_tuSubGraph hstep) trivial
  | exec node type proc =>
    rw [hcall] at hstep
    obtain ⟨ok, hrun⟩ := hfst hstep
    exact iff_of_true (interfaceKept_tuExec hrun) trivial
  | addInput graph node type =>
    rw [hcall] at hstep
    obtain ⟨ok, hrun⟩ := hfst hstep
    exact interfaceKept_tuAddInput_iff hW hrun
  | addInputs graph node =>
    rw [hcall] at hstep
    obtain ⟨ok, hrun⟩ := hfst hstep
    exact iff_of_true (interfaceKept_tuAddInputs hW hrun) trivial
  | addOutput graph node type =>
    rw [hcall] at hstep
    obtain ⟨ok, hrun⟩ := hfst hstep
    exact interfaceKept_tuAddOutput_iff hW hrun
  | addOutputs graph node =>
    rw [hcall] at hstep
    obtain ⟨ok, hrun⟩ := hfst hstep
    exact iff_of_true (interfaceKept_tuAddOutputs hW hrun) trivial
  | edge sender receiver type =>
    rw [hcall] at hstep
    obtain ⟨ok, hrun⟩ := hfst hstep
    exact interfaceKept_tuEdge_iff hW hrun
  | edges sender receiver =>
    rw [hcall] at hstep
    obtain ⟨ok, hrun⟩ := hfst hstep
    exact iff_of_true (interfaceKept_tuEdges hW hrun) trivial

/-! ## Runs -/

/-- The types of the graphs along a run. -/
theorem interfaceKept_of_path {trace : List (TransitionSystem.Transition (Heap F) (Action F))}
    (hr : (system F).Reachable h)
    (hpath : (system F).Path (fun h a => Declared h a.call) h trace h') : InterfaceKept h h' := by
  induction hpath with
  | nil => exact .refl h
  | snoc hpath hdeclared hstep ih =>
    exact ih.trans ((interfaceKept_iff (hpath.reachable hr) hstep).mpr hdeclared)

/-- **The types of a graph are fixed at its creation**, in every run whose calls look up declared
types only. -/
theorem interface_fixed {h₀ : Heap F} {g : Address} {inputTypes outputTypes : OrderedSet TypeId}
    {depth : ℕ} {trace : List (TransitionSystem.Transition (Heap F) (Action F))}
    (hr : (system F).Reachable h₀)
    (hcreate : (system F).step h₀ ⟨.graphCreate g inputTypes outputTypes, depth⟩ = some h)
    (hpath : (system F).Path (fun h a => Declared h a.call) h trace h') :
    ∃ gr, h'.graph? g = some gr ∧ gr.inputs.keys = inputTypes ∧ gr.outputs.keys = outputTypes := by
  have hkept := interfaceKept_of_path (.next hr trivial hcreate) hpath
  have hcreate : tuGraphCreate h₀ g inputTypes outputTypes = some h := hcreate
  unfold tuGraphCreate at hcreate
  split at hcreate
  · cases hcreate
  · obtain rfl := Option.some.inj hcreate
    exact hkept g _ Heap.graph?_setGraph_self

/-- The heap of one graph, that declares the input 7 and no output. -/
def oneGraph : Heap Unit :=
  .setGraph .empty 0 ⟨[], .const (.ofList [7]) .empty, .const .empty .empty⟩

/-- A task of the graph that takes its input. -/
def innerTask : Action Unit := ⟨.task 1 (some 0) (.ofList [7]) .empty 0 1, 0⟩

def taskHeap : Heap Unit := ((system Unit).step oneGraph innerTask).getD .empty

/-- The task becomes an input of the graph. -/
def inputHeap : Heap Unit :=
  ((system Unit).step taskHeap ⟨.addInput (some 0) (some 1) 7, 1⟩).getD .empty

theorem interface_fixed_oneGraph :
    (system Unit).step .empty ⟨.graphCreate 0 (.ofList [7]) .empty, 0⟩ = some oneGraph ∧
    (system Unit).step oneGraph innerTask = some taskHeap ∧
    (system Unit).step taskHeap ⟨.addInput (some 0) (some 1) 7, 1⟩ = some inputHeap ∧
    ∃ gr, inputHeap.graph? 0 = some gr ∧ gr.inputs.keys = .ofList [7] ∧
      gr.outputs.keys = .empty := by
  have hcreate : (system Unit).step .empty ⟨.graphCreate 0 (.ofList [7]) .empty, 0⟩ =
      some oneGraph := rfl
  have htask : (system Unit).step oneGraph innerTask = some taskHeap := rfl
  have hinput : (system Unit).step taskHeap ⟨.addInput (some 0) (some 1) 7, 1⟩ =
      some inputHeap := rfl
  have hdeclared : Declared oneGraph innerTask.call := trivial
  have hdeclared' : Declared taskHeap (.addInput (some 0) (some 1) 7) := by
    intro _ hgraph
    exact absurd hgraph (by decide)
  exact ⟨hcreate, htask, hinput, interface_fixed (.start rfl) hcreate
    (.snoc (.snoc (.nil _) hdeclared htask) hdeclared' hinput)⟩

/-- An edge out of the graph, for the type 5, to a task outside of it. -/
def undeclaredCalls : List (Action Unit) :=
  [⟨.task 1 none (.ofList [5]) .empty 0 1, 0⟩, ⟨.edge (some 0) (some 1) 5, 1⟩]

/-- **The types of a graph change**: the edge returns true, and the graph outputs the type 5. -/
theorem not_interface_fixed : ¬ ∀ (h₀ h h' : Heap Unit) (g : Address)
    (inputTypes outputTypes : OrderedSet TypeId) (depth : ℕ) (calls : List (Action Unit)),
    (system Unit).Reachable h₀ →
    (system Unit).step h₀ ⟨.graphCreate g inputTypes outputTypes, depth⟩ = some h →
    (system Unit).run h calls = some h' →
    ∃ gr, h'.graph? g = some gr ∧ gr.inputs.keys = inputTypes ∧ gr.outputs.keys = outputTypes := by
  intro hfixed
  have hrun : ((system Unit).run oneGraph undeclaredCalls).isSome := by decide
  obtain ⟨h', hh'⟩ := Option.isSome_iff_exists.mp hrun
  obtain ⟨gr, hgr, -, hout⟩ := hfixed .empty oneGraph h' 0 (.ofList [7]) .empty 0 undeclaredCalls
    (.start rfl) rfl hh'
  have hkeys : ((system Unit).run oneGraph undeclaredCalls).bind
      (fun h => (h.graph? 0).map fun gr => gr.outputs.keys) = some (.ofList [5]) := by decide
  rw [hh', Option.bind_some, hgr, Option.map_some, hout] at hkeys
  exact absurd hkeys (by decide)

end Builder
end Dfg
end ThreadUtils
