import ThreadUtils.Dfg.Builder.BoundaryCalls
import ThreadUtils.Dfg.Builder.EdgesAgreement

/-!
# The plural registrations and the singular ones

For an executable node `tu_add_inputs` and `tu_add_outputs` do what `tu_add_input` and
`tu_add_output` do for the common types.  For a graph their test is negated: they leave the common
types out and go through the nodes of the types that the outer graph does *not* declare.

## When the negated test does no harm

The two calls may lead to the same heap all the same.  A node that the plural call comes to, by a
type that the outer graph does not declare, is registered for all of its own types that the outer
graph does declare.  So the nodes that are found by the wrong types may be those that would be found
by the right ones; or the right ones may be registered already.  `InputsMatch` says that one of the
two is the case for every node and type.

For the outputs there are also the sinks.  The plural call gives a sink to a node once for all types
and the singular one for the type of the call, and what counts is whether the node has one in the
end (`OutputsMatch`).

## The comparison

Both calls are lists of insertions into the entries of one graph.  They lead to the same maps if and
only if they add the same entries, but for those that are there (`forall_adds_iff`), so the theorem
compares the members of two lists and not the two programs.

* `plural_agrees_iff` --- when the inputs, the outputs and the sinks are the same.
* `not_plural_agrees` --- a nested graph with one type, which is not registered at all.
-/

namespace ThreadUtils
namespace Dfg
namespace Builder

variable {F : Type*} {h h₁ h₂ : Heap F} {g n : Address}

/-! ## What is compared -/

/-- The same inputs of all graphs. -/
def SameInputs (h₁ h₂ : Heap F) : Prop :=
  ∀ a, (h₁.graph? a).map Graph.inputs = (h₂.graph? a).map Graph.inputs

/-- The same outputs of all graphs and the same sinks of all nodes. -/
def SameOutputs (h₁ h₂ : Heap F) : Prop :=
  (∀ a, (h₁.graph? a).map Graph.outputs = (h₂.graph? a).map Graph.outputs) ∧
    ∀ m, sinkOf h₁ m = sinkOf h₂ m

/-- A map of node sets is determined by its keys and by the nodes. -/
theorem eq_of_nodesOf {map map' : OrderedMap TypeId (OrderedSet Address)}
    (hkeys : ∀ type, type ∈ map.keys ↔ type ∈ map'.keys)
    (hnodes : ∀ type m, m ∈ nodesOf map type ↔ m ∈ nodesOf map' type) : map = map' := by
  refine OrderedMap.ext_of_find? fun type => ?_
  by_cases htype : type ∈ map.keys
  · obtain ⟨nodes, hfind⟩ := OrderedMap.exists_find? htype
    obtain ⟨nodes', hfind'⟩ := OrderedMap.exists_find? ((hkeys type).mp htype)
    rw [hfind, hfind', Option.some.injEq]
    refine OrderedSet.ext_of_mem fun m => ?_
    rw [← OrderedSet.mem_toList, ← OrderedSet.mem_toList, ← nodesOf_eq hfind, ← nodesOf_eq hfind']
    exact hnodes type m
  · have htype' : type ∉ map'.keys := fun hmem => htype ((hkeys type).mpr hmem)
    rw [map.mem_keys, Bool.not_eq_true, Option.isSome_eq_false_iff,
      Option.isNone_iff_eq_none] at htype
    rw [map'.mem_keys, Bool.not_eq_true, Option.isSome_eq_false_iff,
      Option.isNone_iff_eq_none] at htype'
    rw [htype, htype']

/-- A map of all graphs is determined by its nodes where its keys are. -/
theorem sameMaps_iff (maps : Graph → OrderedMap TypeId (OrderedSet Address))
    (hgraph : ∀ a, (h₁.graph? a).isSome = (h₂.graph? a).isSome)
    (hkeys : ∀ a gr₁ gr₂, h₁.graph? a = some gr₁ → h₂.graph? a = some gr₂ →
      ∀ type, type ∈ (maps gr₁).keys ↔ type ∈ (maps gr₂).keys) :
    (∀ a, (h₁.graph? a).map maps = (h₂.graph? a).map maps) ↔
      ∀ a type m, (∃ gr, h₁.graph? a = some gr ∧ m ∈ nodesOf (maps gr) type) ↔
        ∃ gr, h₂.graph? a = some gr ∧ m ∈ nodesOf (maps gr) type := by
  constructor
  · intro hsame a type m
    have hmap : ∀ h : Heap F, (∃ gr, h.graph? a = some gr ∧ m ∈ nodesOf (maps gr) type) ↔
        ∃ map, (h.graph? a).map maps = some map ∧ m ∈ nodesOf map type := by
      intro h
      constructor
      · rintro ⟨gr, hgr, hm⟩
        exact ⟨maps gr, by rw [hgr]; rfl, hm⟩
      · rintro ⟨map, hmap, hm⟩
        obtain ⟨gr, hgr, rfl⟩ := Option.map_eq_some_iff.mp hmap
        exact ⟨gr, hgr, hm⟩
    rw [hmap h₁, hmap h₂, hsame a]
  · intro hnodes a
    cases hgr₁ : h₁.graph? a with
    | none =>
      have hnone := hgraph a
      rw [hgr₁, Option.isSome_none, eq_comm, Option.isSome_eq_false_iff,
        Option.isNone_iff_eq_none] at hnone
      rw [hnone]
    | some gr₁ =>
      obtain ⟨gr₂, hgr₂⟩ := Option.isSome_iff_exists.mp ((hgraph a).symm.trans (by rw [hgr₁]; rfl))
      rw [hgr₂, Option.map_some, Option.map_some, Option.some.injEq]
      refine eq_of_nodesOf (hkeys a gr₁ gr₂ hgr₁ hgr₂) fun type m => ?_
      have hiff := hnodes a type m
      simpa [hgr₁, hgr₂] using hiff

theorem sameInputs_iff (hgraph : ∀ a, (h₁.graph? a).isSome = (h₂.graph? a).isSome)
    (hkeys : ∀ a type, InputType h₁ a type ↔ InputType h₂ a type) : SameInputs h₁ h₂ ↔
      ∀ a type m, DeclaredInput h₁ a type m ↔ DeclaredInput h₂ a type m := by
  refine sameMaps_iff Graph.inputs hgraph fun a gr₁ gr₂ hgr₁ hgr₂ type => ?_
  have hiff := hkeys a type
  simpa [InputType, hgr₁, hgr₂] using hiff

theorem sameOutputs_iff (hgraph : ∀ a, (h₁.graph? a).isSome = (h₂.graph? a).isSome)
    (hkeys : ∀ a type, OutputType h₁ a type ↔ OutputType h₂ a type) : SameOutputs h₁ h₂ ↔
      (∀ a type m, DeclaredOutput h₁ a type m ↔ DeclaredOutput h₂ a type m) ∧
        ∀ m, sinkOf h₁ m = sinkOf h₂ m := by
  refine and_congr_left fun _ => ?_
  refine sameMaps_iff Graph.outputs hgraph fun a gr₁ gr₂ hgr₁ hgr₂ type => ?_
  have hiff := hkeys a type
  simpa [OutputType, hgr₁, hgr₂] using hiff

/-- Two additions to the entries of the graph `g` leave the same entries exactly if they add the
same ones, but for those that are there. -/
theorem forall_adds_iff {old ok adds adds' : Address → TypeId → Address → Prop}
    (hadds : ∀ a type m, adds a type m → a = g) (hadds' : ∀ a type m, adds' a type m → a = g) :
    (∀ a type m, old a type m ∨ adds a type m ∧ ok a type m ↔
      old a type m ∨ adds' a type m ∧ ok a type m) ↔
      ∀ type m, ok g type m → old g type m ∨ (adds g type m ↔ adds' g type m) := by
  constructor
  · intro hsame type m hok
    have hiff := hsame g type m
    by_cases hold : old g type m
    · exact Or.inl hold
    · rw [or_iff_right hold, or_iff_right hold, and_iff_left hok, and_iff_left hok] at hiff
      exact Or.inr hiff
  · intro hmatch a type m
    by_cases ha : a = g
    · subst ha
      by_cases hok : ok a type m
      · rw [and_iff_left hok, and_iff_left hok]
        rcases hmatch type m hok with hold | hiff
        · exact iff_of_true (Or.inl hold) (Or.inl hold)
        · exact or_congr_right hiff
      · exact or_congr_right (iff_of_false (fun hand => hok hand.2) fun hand => hok hand.2)
    · exact or_congr_right (iff_of_false (fun hand => ha (hadds a type m hand.1))
        fun hand => ha (hadds' a type m hand.1))

/-! ## The inputs -/

/-- The types that the graph and the node both declare as input. -/
def commonInputs (h : Heap F) (g n : Address) : List TypeId :=
  (inputTypes h n).toList.filter fun type => type ∈ inputTypes h g

/-- `tu_add_input` for every common type. -/
def inputCalls (h : Heap F) (g n : Address) (depth : ℕ) : List (Action F) :=
  (commonInputs h g n).map fun type => ⟨.addInput (some g) (some n) type, depth⟩

/-- The insertions of these calls. -/
def commonInputsEntries (h : Heap F) (g n : Address) : List Insertion :=
  (commonInputs h g n).flatMap fun type => (flatIn h n type).map fun m => .input g type m

theorem mem_commonInputs {type : TypeId} :
    type ∈ commonInputs h g n ↔ type ∈ inputTypes h n ∧ type ∈ inputTypes h g := by
  rw [commonInputs, List.mem_filter, OrderedSet.mem_toList, decide_eq_true_iff]

/-- `tu_add_input` for a type that both declare. -/
theorem tuAddInput_common (hW : WellFormed h) (hne : g ≠ n) (hg : (h.graph? g).isSome)
    (hn : h n ≠ none) {type : TypeId} (htype : type ∈ commonInputs h g n) (depth : ℕ) :
    tuAddInput (depth + 2) h (some g) (some n) type =
      some (putAll h ((flatIn h n type).map fun m => .input g type m), true) := by
  obtain ⟨hnode, hgraph⟩ := mem_commonInputs.mp htype
  rw [tuAddInput_eq hne ((mem_inputTypes_graph hg).mp hgraph)
    (fun m hm => hW.hasInput_of_inputTypes hn hnode hm) depth, inputEntries]
  split
  · next hsub =>
    rw [List.singleton_append, putAll_cons,
      put_inputKey_eq_self ((mem_inputTypes_graph hsub).mp hnode)]
  · rfl

theorem commonInputs_putAll {l : List Insertion} (hg : (h.graph? g).isSome) (hn : h n ≠ none)
    (hl : ∀ i ∈ l, ∃ type m, i = .input g type m) :
    commonInputs (putAll h l) g n = commonInputs h g n := by
  have hsame : ∀ a, (h.graph? a).isSome →
      inputTypes (putAll h l) a = inputTypes h a := fun a ha => by
    refine OrderedSet.ext_of_mem fun type => ?_
    rw [mem_inputTypes_graph ha, mem_inputTypes_graph ((isSome_graph?_putAll l).trans ha),
      inputType_putAll]
    refine or_iff_left fun hand => ?_
    obtain ⟨type', m, heq⟩ := hl _ hand.1
    cases heq
  have hnode : inputTypes (putAll h l) n = inputTypes h n := by
    rcases isSome_exec?_or_graph? hn with hexec | hgraph
    · exact inputTypes_putAll hexec l
    · exact hsame n hgraph
  rw [commonInputs, hsame g hg, hnode, commonInputs]

/-- **The calls of `tu_add_input`** for the common types. -/
theorem run_inputCalls (hW : WellFormed h) (hne : g ≠ n) (hg : (h.graph? g).isSome)
    (hn : h n ≠ none) (depth : ℕ) : (system F).run h (inputCalls h g n (depth + 2)) =
      some (putAll h (commonInputsEntries h g n)) := by
  refine run_putAll (I := fun h' => WellFormed h' ∧
    ∃ l, (∀ i ∈ l, ∃ type m, i = .input g type m) ∧ h' = putAll h l) ?_ ?_ ⟨hW, [], by simp, rfl⟩
  · rintro h' ⟨hW', l, hl, rfl⟩ type htype
    have hflat : flatIn (putAll h l) n type = flatIn h n type := by
      refine flatIn_putAll fun i hi m => ?_
      obtain ⟨type', m', rfl⟩ := hl i hi
      intro heq
      exact hne (Insertion.input.inj heq).1
    show (tuAddInput (depth + 2) (putAll h l) (some g) (some n) type).map Prod.fst = _
    rw [tuAddInput_common hW' hne ((isSome_graph?_putAll l).trans hg) (putAll_ne_none hn l)
      (by rw [commonInputs_putAll hg hn hl]; exact htype) depth, hflat]
    rfl
  · rintro h' ⟨hW', l, hl, rfl⟩ type htype
    refine ⟨?_, _, fun i hi => ?_, (putAll_append h l _).symm⟩
    · exact hW'.putAll _
    · rcases List.mem_append.mp hi with hi | hi
      · exact hl i hi
      · obtain ⟨m, -, rfl⟩ := List.mem_map.mp hi
        exact ⟨type, m, rfl⟩

theorem input_mem_commonInputsEntries {type : TypeId} {m : Address} :
    .input g type m ∈ commonInputsEntries h g n ↔
      type ∈ commonInputs h g n ∧ m ∈ flatIn h n type := by
  simp only [commonInputsEntries, List.mem_flatMap, List.mem_map]
  constructor
  · rintro ⟨type', htype, m', hm, heq⟩
    obtain ⟨-, rfl, rfl⟩ := Insertion.input.inj heq
    exact ⟨htype, hm⟩
  · rintro ⟨htype, hm⟩
    exact ⟨type, htype, m, hm, rfl⟩

theorem eq_input_of_mem_common {i : Insertion} (hi : i ∈ commonInputsEntries h g n) :
    ∃ type m, i = .input g type m := by
  obtain ⟨type, -, hi⟩ := List.mem_flatMap.mp hi
  obtain ⟨m, -, rfl⟩ := List.mem_map.mp hi
  exact ⟨type, m, rfl⟩

/-- The inputs that `tu_add_inputs` registers of a graph. -/
theorem input_mem_allInputsEntries {sub : Graph} (hsub : h.graph? n = some sub)
    (hg : (h.graph? g).isSome) {type : TypeId} {m : Address} (hm : HasInput h type m) :
    .input g type m ∈ allInputsEntries h g n ↔
      ∃ type', ¬ InputType h g type' ∧ DeclaredInput h n type' m := by
  rw [allInputsEntries, hsub]
  simp only [List.mem_flatMap]
  constructor
  · rintro ⟨type', htype', hmem⟩
    split at hmem
    · cases hmem
    · next hnot =>
      obtain ⟨m', hm', hmem⟩ := List.mem_flatMap.mp hmem
      obtain ⟨type'', -, heq⟩ := List.mem_map.mp hmem
      obtain ⟨-, rfl, rfl⟩ := Insertion.input.inj heq
      exact ⟨type', fun hin => hnot ((mem_inputTypes_graph hg).mpr hin), sub, hsub, hm'⟩
  · rintro ⟨type', hnot, sub', hsub', hm'⟩
    obtain rfl := Option.some.inj (hsub.symm.trans hsub')
    obtain ⟨nodes, hfind, -⟩ := mem_nodesOf.mp hm'
    refine ⟨type', OrderedMap.mem_keys_of_find? hfind, ?_⟩
    rw [if_neg fun hin => hnot ((mem_inputTypes_graph hg).mp hin)]
    refine List.mem_flatMap.mpr ⟨m, hm', List.mem_map.mpr ⟨type, ?_, rfl⟩⟩
    exact (mem_inputTypes_exec hm.isSome_exec?).mpr hm

/-- The nodes that the nested graph declares for the types that the outer one declares are those
that it declares for other types, as far as they are not registered already. -/
def InputsMatch (h : Heap F) (g n : Address) : Prop :=
  (h.graph? n).isSome → ∀ type m, InputType h g type → HasInput h type m →
    DeclaredInput h g type m ∨
      ((∃ type', ¬ InputType h g type' ∧ DeclaredInput h n type' m) ↔ DeclaredInput h n type m)

/-- Registrations of inputs of one graph leave the declared types alone. -/
theorem inputType_putAll_inputs {l : List Insertion} (hl : ∀ i ∈ l, ∃ type m, i = .input g type m)
    (a : Address) (type : TypeId) : InputType (putAll h l) a type ↔ InputType h a type := by
  rw [inputType_putAll]
  refine or_iff_left fun hand => ?_
  obtain ⟨type', m, heq⟩ := hl _ hand.1
  cases heq

/-- Two lists of registrations of inputs. -/
theorem sameInputs_putAll_iff {l l' : List Insertion}
    (hl : ∀ i ∈ l, ∃ type m, i = .input g type m) (hl' : ∀ i ∈ l', ∃ type m, i = .input g type m) :
    SameInputs (putAll h l) (putAll h l') ↔ ∀ type m, InputType h g type → HasInput h type m →
      DeclaredInput h g type m ∨ (.input g type m ∈ l ↔ .input g type m ∈ l') := by
  have hkey : ∀ {l : List Insertion}, (∀ i ∈ l, ∃ type m, i = .input g type m) →
      ∀ a type, .inputKey a type ∉ l := by
    intro l hl a type hmem
    obtain ⟨type', m, heq⟩ := hl _ hmem
    cases heq
  rw [sameInputs_iff (fun a => by rw [isSome_graph?_putAll, isSome_graph?_putAll])
    fun a type => (inputType_putAll_inputs hl a type).trans
      (inputType_putAll_inputs hl' a type).symm]
  simp only [declaredInput_putAll (hkey hl _ _), declaredInput_putAll (hkey hl' _ _)]
  have hmine : ∀ {l : List Insertion}, (∀ i ∈ l, ∃ type m, i = .input g type m) →
      ∀ a type m, .input a type m ∈ l → a = g := by
    intro l hl a type m hmem
    obtain ⟨type', m', heq⟩ := hl _ hmem
    exact (Insertion.input.inj heq).1
  rw [forall_adds_iff (hmine hl) (hmine hl')]
  simp only [and_imp]

/-- **When `tu_add_inputs` agrees with `tu_add_input`.** -/
theorem sameInputs_allInputs_iff (hg : (h.graph? g).isSome) (hn : h n ≠ none) :
    SameInputs (putAll h (allInputsEntries h g n)) (putAll h (commonInputsEntries h g n)) ↔
      InputsMatch h g n := by
  rw [sameInputs_putAll_iff (fun _ => eq_input_of_mem) fun _ => eq_input_of_mem_common]
  rcases isSome_exec?_or_graph? hn with hexec | hgraph
  · -- an executable node is registered for the common types by both
    have hnone := graph?_eq_none_of_isSome hexec
    refine iff_of_true (fun type m htype hm => Or.inr ?_) fun hgraph => ?_
    · rw [input_mem_commonInputsEntries, mem_commonInputs, mem_inputTypes_graph hg, flatIn, hnone,
        allInputsEntries, hnone]
      simp only [inputsEntries, List.mem_map, Insertion.input.injEq, true_and, List.mem_singleton,
        OrderedSet.mem_toList]
      constructor
      · rintro ⟨type', htype', rfl, rfl⟩
        exact ⟨⟨htype', htype⟩, rfl⟩
      · rintro ⟨⟨htype', -⟩, rfl⟩
        exact ⟨type, htype', rfl, rfl⟩
    · rw [hnone] at hgraph
      cases hgraph
  · obtain ⟨sub, hsub⟩ := Option.isSome_iff_exists.mp hgraph
    have hcommon : ∀ type m, InputType h g type →
        (.input g type m ∈ commonInputsEntries h g n ↔ DeclaredInput h n type m) := by
      intro type m htype
      rw [input_mem_commonInputsEntries, mem_commonInputs, mem_inputTypes_graph hg,
        flatIn_graph hsub, inputTypes_graph hsub]
      constructor
      · rintro ⟨-, hm⟩
        exact ⟨sub, hsub, hm⟩
      · rintro ⟨sub', hsub', hm⟩
        obtain rfl := Option.some.inj (hsub.symm.trans hsub')
        obtain ⟨nodes, hfind, -⟩ := mem_nodesOf.mp hm
        exact ⟨⟨OrderedMap.mem_keys_of_find? hfind, htype⟩, hm⟩
    constructor
    · intro hmatch _ type m htype hm
      rw [← input_mem_allInputsEntries hsub hg hm, ← hcommon type m htype]
      exact hmatch type m htype hm
    · intro hmatch type m htype hm
      rw [input_mem_allInputsEntries hsub hg hm, hcommon type m htype]
      exact hmatch hgraph type m htype hm

/-! ## The outputs -/

/-- The types that the graph and the node both declare as output. -/
def commonOutputs (h : Heap F) (g n : Address) : List TypeId :=
  (outputTypes h n).toList.filter fun type => type ∈ outputTypes h g

/-- `tu_add_output` for every common type. -/
def outputCalls (h : Heap F) (g n : Address) (depth : ℕ) : List (Action F) :=
  (commonOutputs h g n).map fun type => ⟨.addOutput (some g) (some n) type, depth⟩

/-- The insertions of these calls. -/
def commonOutputsEntries (h : Heap F) (g n : Address) : List Insertion :=
  (commonOutputs h g n).flatMap fun type => (flatOut h n type).map fun m => .output g type m

theorem mem_commonOutputs {type : TypeId} :
    type ∈ commonOutputs h g n ↔ type ∈ outputTypes h n ∧ type ∈ outputTypes h g := by
  rw [commonOutputs, List.mem_filter, OrderedSet.mem_toList, decide_eq_true_iff]

/-- `tu_add_output` for a type that both declare. -/
theorem tuAddOutput_common (hW : WellFormed h) (hg : (h.graph? g).isSome) (hn : h n ≠ none)
    {type : TypeId} (htype : type ∈ commonOutputs h g n) (depth : ℕ) :
    tuAddOutput (depth + 2) h (some g) (some n) type =
      some (putAll h ((flatOut h n type).map fun m => .output g type m), true) := by
  obtain ⟨hnode, hgraph⟩ := mem_commonOutputs.mp htype
  rw [tuAddOutput_eq ((mem_outputTypes_graph hg).mp hgraph) (hW.isSome_flatOut hn) depth,
    outputEntries]
  split
  · next hsub =>
    rw [List.singleton_append, putAll_cons,
      put_outputKey_eq_self ((mem_outputTypes_graph hsub).mp hnode)]
  · rfl

theorem outputType_putAll_outputs {l : List Insertion}
    (hl : ∀ i ∈ l, ∃ type m, i = .output g type m) (a : Address) (type : TypeId) :
    OutputType (putAll h l) a type ↔ OutputType h a type := by
  rw [outputType_putAll]
  refine or_iff_left fun hand => ?_
  obtain ⟨type', m, heq⟩ := hl _ hand.1
  cases heq

theorem commonOutputs_putAll {l : List Insertion} (hg : (h.graph? g).isSome) (hn : h n ≠ none)
    (hl : ∀ i ∈ l, ∃ type m, i = .output g type m) :
    commonOutputs (putAll h l) g n = commonOutputs h g n := by
  have hsame : ∀ a, (h.graph? a).isSome →
      outputTypes (putAll h l) a = outputTypes h a := fun a ha => by
    refine OrderedSet.ext_of_mem fun type => ?_
    rw [mem_outputTypes_graph ha, mem_outputTypes_graph ((isSome_graph?_putAll l).trans ha),
      outputType_putAll_outputs hl]
  have hnode : outputTypes (putAll h l) n = outputTypes h n := by
    rcases isSome_exec?_or_graph? hn with hexec | hgraph
    · exact outputTypes_putAll hexec l
    · exact hsame n hgraph
  rw [commonOutputs, hsame g hg, hnode, commonOutputs]

/-- **The calls of `tu_add_output`** for the common types. -/
theorem run_outputCalls (hW : WellFormed h) (hne : g ≠ n) (hg : (h.graph? g).isSome)
    (hn : h n ≠ none) (depth : ℕ) : (system F).run h (outputCalls h g n (depth + 2)) =
      some (putAll h (commonOutputsEntries h g n)) := by
  refine run_putAll (I := fun h' => WellFormed h' ∧
    ∃ l, (∀ i ∈ l, ∃ type m, i = .output g type m) ∧ h' = putAll h l) ?_ ?_ ⟨hW, [], by simp, rfl⟩
  · rintro h' ⟨hW', l, hl, rfl⟩ type htype
    have hflat : flatOut (putAll h l) n type = flatOut h n type := by
      refine flatOut_putAll fun i hi m => ?_
      obtain ⟨type', m', rfl⟩ := hl i hi
      intro heq
      exact hne (Insertion.output.inj heq).1
    show (tuAddOutput (depth + 2) (putAll h l) (some g) (some n) type).map Prod.fst = _
    rw [tuAddOutput_common hW' ((isSome_graph?_putAll l).trans hg) (putAll_ne_none hn l)
      (by rw [commonOutputs_putAll hg hn hl]; exact htype) depth, hflat]
    rfl
  · rintro h' ⟨hW', l, hl, rfl⟩ type htype
    refine ⟨?_, _, fun i hi => ?_, (putAll_append h l _).symm⟩
    · exact hW'.putAll _
    · rcases List.mem_append.mp hi with hi | hi
      · exact hl i hi
      · obtain ⟨m, -, rfl⟩ := List.mem_map.mp hi
        exact ⟨type, m, rfl⟩

theorem output_mem_commonOutputsEntries {type : TypeId} {m : Address} :
    .output g type m ∈ commonOutputsEntries h g n ↔
      type ∈ commonOutputs h g n ∧ m ∈ flatOut h n type := by
  simp only [commonOutputsEntries, List.mem_flatMap, List.mem_map]
  constructor
  · rintro ⟨type', htype, m', hm, heq⟩
    obtain ⟨-, rfl, rfl⟩ := Insertion.output.inj heq
    exact ⟨htype, hm⟩
  · rintro ⟨htype, hm⟩
    exact ⟨type, htype, m, hm, rfl⟩

theorem eq_output_of_mem_common {i : Insertion} (hi : i ∈ commonOutputsEntries h g n) :
    ∃ type m, i = .output g type m := by
  obtain ⟨type, -, hi⟩ := List.mem_flatMap.mp hi
  obtain ⟨m, -, rfl⟩ := List.mem_map.mp hi
  exact ⟨type, m, rfl⟩

/-- The outputs that `tu_add_outputs` registers of a graph. -/
theorem output_mem_allOutputsEntries {sub : Graph} (hsub : h.graph? n = some sub)
    (hg : (h.graph? g).isSome) {type : TypeId} {m : Address} (hm : HasOutput h type m) :
    .output g type m ∈ allOutputsEntries h g n ↔
      ∃ type', ¬ OutputType h g type' ∧ DeclaredOutput h n type' m := by
  rw [allOutputsEntries, hsub]
  simp only [List.mem_flatMap]
  constructor
  · rintro ⟨type', htype', hmem⟩
    split at hmem
    · cases hmem
    · next hnot =>
      obtain ⟨m', hm', hmem⟩ := List.mem_flatMap.mp hmem
      obtain ⟨type'', -, heq⟩ := List.mem_map.mp hmem
      obtain ⟨-, rfl, rfl⟩ := Insertion.output.inj heq
      exact ⟨type', fun hin => hnot ((mem_outputTypes_graph hg).mpr hin), sub, hsub, hm'⟩
  · rintro ⟨type', hnot, sub', hsub', hm'⟩
    obtain rfl := Option.some.inj (hsub.symm.trans hsub')
    obtain ⟨nodes, hfind, -⟩ := mem_nodesOf.mp hm'
    refine ⟨type', OrderedMap.mem_keys_of_find? hfind, ?_⟩
    rw [if_neg fun hin => hnot ((mem_outputTypes_graph hg).mp hin)]
    refine List.mem_flatMap.mpr ⟨m, hm', List.mem_map.mpr ⟨type, ?_, rfl⟩⟩
    exact (mem_outputTypes_exec hm.isSome_exec?).mpr hm

/-- As for the inputs; and a node that one of the two functions makes a result node is made one by
the other, or is one already. -/
structure OutputsMatch (h : Heap F) (g n : Address) : Prop where
  outputs : (h.graph? n).isSome → ∀ type m, OutputType h g type → HasOutput h type m →
    DeclaredOutput h g type m ∨
      ((∃ type', ¬ OutputType h g type' ∧ DeclaredOutput h n type' m) ↔ DeclaredOutput h n type m)
  sinks : (h.graph? n).isSome → ∀ m, sinkOf h m = some g ∨
    ((∃ type, OutputType h g type ∧ HasOutput h type m ∧
        ∃ type', ¬ OutputType h g type' ∧ DeclaredOutput h n type' m) ↔
      ∃ type, OutputType h g type ∧ DeclaredOutput h n type m)

/-- Two lists of registrations of outputs. -/
theorem sameOutputs_putAll_iff {l l' : List Insertion}
    (hl : ∀ i ∈ l, ∃ type m, i = .output g type m)
    (hl' : ∀ i ∈ l', ∃ type m, i = .output g type m) :
    SameOutputs (putAll h l) (putAll h l') ↔
      (∀ type m, OutputType h g type → HasOutput h type m →
        DeclaredOutput h g type m ∨ (.output g type m ∈ l ↔ .output g type m ∈ l')) ∧
      ∀ m, sinkOf h m = some g ∨
        ((∃ type, .output g type m ∈ l ∧ OutputType h g type ∧ HasOutput h type m) ↔
          ∃ type, .output g type m ∈ l' ∧ OutputType h g type ∧ HasOutput h type m) := by
  have hkey : ∀ {l : List Insertion}, (∀ i ∈ l, ∃ type m, i = .output g type m) →
      ∀ a type, .outputKey a type ∉ l := by
    intro l hl a type hmem
    obtain ⟨type', m, heq⟩ := hl _ hmem
    cases heq
  rw [sameOutputs_iff (fun a => by rw [isSome_graph?_putAll, isSome_graph?_putAll])
    fun a type => (outputType_putAll_outputs hl a type).trans
      (outputType_putAll_outputs hl' a type).symm]
  refine and_congr ?_ (forall_congr' fun m => ?_)
  · simp only [declaredOutput_putAll (hkey hl _ _), declaredOutput_putAll (hkey hl' _ _)]
    have hmine : ∀ {l : List Insertion}, (∀ i ∈ l, ∃ type m, i = .output g type m) →
        ∀ a type m, .output a type m ∈ l → a = g := by
      intro l hl a type m hmem
      obtain ⟨type', m', heq⟩ := hl _ hmem
      exact (Insertion.output.inj heq).1
    rw [forall_adds_iff (hmine hl) (hmine hl')]
    simp only [and_imp]
  · -- a sink is overwritten where the list has the node, and stays otherwise
    have hsink := sinkOf_putAll (h := h) hl m
    have hsink' := sinkOf_putAll (h := h) hl' m
    constructor
    · intro hsame
      have hg := hsink g
      have hg' := hsink' g
      rw [hsame, hg'] at hg
      by_cases hold : sinkOf h m = some g
      · exact Or.inl hold
      · refine Or.inr ?_
        simpa [hold] using hg.symm
    · intro hmatch
      refine Option.ext fun g' => ?_
      rw [hsink g', hsink' g']
      rcases hmatch with hold | hiff
      · rw [hold]
        by_cases hg' : g' = g
        · subst hg'
          grind
        · grind
      · rw [hiff]

/-- **When `tu_add_outputs` agrees with `tu_add_output`.** -/
theorem sameOutputs_allOutputs_iff (hW : WellFormed h) (hg : (h.graph? g).isSome)
    (hn : h n ≠ none) :
    SameOutputs (putAll h (allOutputsEntries h g n)) (putAll h (commonOutputsEntries h g n)) ↔
      OutputsMatch h g n := by
  rw [sameOutputs_putAll_iff (fun _ => eq_output_of_mem) fun _ => eq_output_of_mem_common]
  rcases isSome_exec?_or_graph? hn with hexec | hgraph
  · have hnone := graph?_eq_none_of_isSome hexec
    have hsame : ∀ type m, OutputType h g type → (.output g type m ∈ allOutputsEntries h g n ↔
        .output g type m ∈ commonOutputsEntries h g n) := by
      intro type m htype
      rw [output_mem_commonOutputsEntries, mem_commonOutputs, mem_outputTypes_graph hg, flatOut,
        hnone, allOutputsEntries, hnone]
      simp only [outputsEntries, List.mem_map, Insertion.output.injEq, true_and,
        List.mem_singleton, OrderedSet.mem_toList]
      constructor
      · rintro ⟨type', htype', rfl, rfl⟩
        exact ⟨⟨htype', htype⟩, rfl⟩
      · rintro ⟨⟨htype', -⟩, rfl⟩
        exact ⟨type, htype', rfl, rfl⟩
    refine iff_of_true ⟨fun type m htype hm => Or.inr (hsame type m htype), fun m => Or.inr ?_⟩ ?_
    · exact exists_congr fun type => and_congr_left fun hand => hsame type m hand.1
    · constructor <;> intro hgraph <;> rw [hnone] at hgraph <;> cases hgraph
  · obtain ⟨sub, hsub⟩ := Option.isSome_iff_exists.mp hgraph
    have hcommon : ∀ type m, OutputType h g type →
        (.output g type m ∈ commonOutputsEntries h g n ↔ DeclaredOutput h n type m) := by
      intro type m htype
      rw [output_mem_commonOutputsEntries, mem_commonOutputs, mem_outputTypes_graph hg,
        flatOut_graph hsub, outputTypes_graph hsub]
      constructor
      · rintro ⟨-, hm⟩
        exact ⟨sub, hsub, hm⟩
      · rintro ⟨sub', hsub', hm⟩
        obtain rfl := Option.some.inj (hsub.symm.trans hsub')
        obtain ⟨nodes, hfind, -⟩ := mem_nodesOf.mp hm
        exact ⟨⟨OrderedMap.mem_keys_of_find? hfind, htype⟩, hm⟩
    have hplural : ∀ m, (∃ type, .output g type m ∈ allOutputsEntries h g n ∧
        OutputType h g type ∧ HasOutput h type m) ↔ ∃ type, OutputType h g type ∧
          HasOutput h type m ∧ ∃ type', ¬ OutputType h g type' ∧ DeclaredOutput h n type' m := by
      intro m
      refine exists_congr fun type => ?_
      constructor
      · rintro ⟨hmem, htype, hm⟩
        exact ⟨htype, hm, (output_mem_allOutputsEntries hsub hg hm).mp hmem⟩
      · rintro ⟨htype, hm, hmem⟩
        exact ⟨(output_mem_allOutputsEntries hsub hg hm).mpr hmem, htype, hm⟩
    have hsingular : ∀ m, (∃ type, .output g type m ∈ commonOutputsEntries h g n ∧
        OutputType h g type ∧ HasOutput h type m) ↔
          ∃ type, OutputType h g type ∧ DeclaredOutput h n type m := by
      intro m
      refine exists_congr fun type => ?_
      constructor
      · rintro ⟨hmem, htype, -⟩
        exact ⟨htype, (hcommon type m htype).mp hmem⟩
      · rintro ⟨htype, hm⟩
        obtain ⟨sub', hsub', hm'⟩ := id hm
        exact ⟨(hcommon type m htype).mpr hm, htype, hW.outputs n sub' hsub' type m hm'⟩
    simp only [hplural, hsingular]
    constructor
    · rintro ⟨hmatch, hsinks⟩
      refine ⟨fun _ type m htype hm => ?_, fun _ => hsinks⟩
      rw [← output_mem_allOutputsEntries hsub hg hm, ← hcommon type m htype]
      exact hmatch type m htype hm
    · rintro ⟨hmatch, hsinks⟩
      refine ⟨fun type m htype hm => ?_, hsinks hgraph⟩
      rw [output_mem_allOutputsEntries hsub hg hm, hcommon type m htype]
      exact hmatch hgraph type m htype hm

/-! ## Both -/

/-- **When the plural registrations agree with the singular ones.** -/
theorem plural_agrees_iff (hr : (system F).Reachable h) (hne : n ≠ g) (hg : (h.graph? g).isSome)
    (hn : h n ≠ none) {depth : ℕ} (hdepth : 2 ≤ depth) : ∃ h₁ h₂ h₃ h₄,
      (system F).step h ⟨.addInputs (some g) (some n), depth⟩ = some h₁ ∧
      (system F).run h (inputCalls h g n depth) = some h₂ ∧
      (system F).step h ⟨.addOutputs (some g) (some n), depth⟩ = some h₃ ∧
      (system F).run h (outputCalls h g n depth) = some h₄ ∧
      (SameInputs h₁ h₂ ↔ InputsMatch h g n) ∧ (SameOutputs h₃ h₄ ↔ OutputsMatch h g n) := by
  have hW := wellFormed_of_reaches hr
  obtain ⟨depth, rfl⟩ := Nat.exists_eq_add_of_le' hdepth
  have hinputs : (system F).step h ⟨.addInputs (some g) (some n), depth + 2⟩ =
      some (putAll h (allInputsEntries h g n)) := by
    show (tuAddInputs (depth + 2) h (some g) (some n)).map Prod.fst = _
    rw [tuAddInputs_eq hW hne.symm hg hn depth]
    rfl
  have houtputs : (system F).step h ⟨.addOutputs (some g) (some n), depth + 2⟩ =
      some (putAll h (allOutputsEntries h g n)) := by
    show (tuAddOutputs (depth + 2) h (some g) (some n)).map Prod.fst = _
    rw [tuAddOutputs_eq hW hg hn depth]
    rfl
  exact ⟨_, _, _, _, hinputs, run_inputCalls hW hne.symm hg hn depth, houtputs,
    run_outputCalls hW hne.symm hg hn depth, sameInputs_allInputs_iff hg hn,
    sameOutputs_allOutputs_iff hW hg hn⟩

/-- Two graphs with the type 1, and a task that is an input and an output of the second one. -/
def innerGraphCalls : List (Action Unit) :=
  [⟨.graphCreate 0 (.ofList [1]) (.ofList [1]), 0⟩, ⟨.graphCreate 1 (.ofList [1]) (.ofList [1]), 0⟩,
    ⟨.task 2 (some 1) (.ofList [1]) (.ofList [1]) 0 1, 0⟩, ⟨.addInput (some 1) (some 2) 1, 1⟩,
    ⟨.addOutput (some 1) (some 2) 1, 1⟩]

def innerGraphHeap : Heap Unit := (system Unit).replay .empty innerGraphCalls

theorem reachable_innerGraphHeap : (system Unit).Reachable innerGraphHeap :=
  .replay (.start rfl) innerGraphCalls (by decide)

theorem plural_agrees_nested : ∃ h₁ h₂ h₃ h₄,
      (system Unit).step innerGraphHeap ⟨.addInputs (some 0) (some 2), 2⟩ = some h₁ ∧
      (system Unit).run innerGraphHeap (inputCalls innerGraphHeap 0 2 2) = some h₂ ∧
      (system Unit).step innerGraphHeap ⟨.addOutputs (some 0) (some 2), 2⟩ = some h₃ ∧
      (system Unit).run innerGraphHeap (outputCalls innerGraphHeap 0 2 2) = some h₄ ∧
      (SameInputs h₁ h₂ ↔ InputsMatch innerGraphHeap 0 2) ∧
        (SameOutputs h₃ h₄ ↔ OutputsMatch innerGraphHeap 0 2) :=
  plural_agrees_iff reachable_innerGraphHeap (by decide) (by decide)
    (Option.isSome_iff_ne_none.mp (by decide)) le_rfl

/-- **The plural registrations leave a nested graph out**: the task becomes an input and an output
of the outer graph by the singular calls only. -/
theorem not_plural_agrees : (system Unit).Reachable innerGraphHeap ∧ ∃ h₁ h₂ h₃ h₄,
      (system Unit).step innerGraphHeap ⟨.addInputs (some 0) (some 1), 2⟩ = some h₁ ∧
      (system Unit).run innerGraphHeap (inputCalls innerGraphHeap 0 1 2) = some h₂ ∧
      (system Unit).step innerGraphHeap ⟨.addOutputs (some 0) (some 1), 2⟩ = some h₃ ∧
      (system Unit).run innerGraphHeap (outputCalls innerGraphHeap 0 1 2) = some h₄ ∧
      ¬ SameInputs h₁ h₂ ∧ ¬ SameOutputs h₃ h₄ := by
  let inputs (h : Heap Unit) : Option (OrderedSet Address) :=
    ((h.graph? 0).map Graph.inputs).bind (·.find? 1)
  let outputs (h : Heap Unit) : Option (OrderedSet Address) :=
    ((h.graph? 0).map Graph.outputs).bind (·.find? 1)
  have h₁in : ((system Unit).step innerGraphHeap ⟨.addInputs (some 0) (some 1), 2⟩).bind inputs =
      some .empty := by decide
  have h₂in : ((system Unit).run innerGraphHeap (inputCalls innerGraphHeap 0 1 2)).bind inputs =
      some (.ofList [2]) := by decide
  have h₃out : ((system Unit).step innerGraphHeap ⟨.addOutputs (some 0) (some 1), 2⟩).bind outputs =
      some .empty := by decide
  have h₄out : ((system Unit).run innerGraphHeap (outputCalls innerGraphHeap 0 1 2)).bind outputs =
      some (.ofList [2]) := by decide
  obtain ⟨h₁, hstep₁, h₁in⟩ := Option.bind_eq_some_iff.mp h₁in
  obtain ⟨h₂, hrun₂, h₂in⟩ := Option.bind_eq_some_iff.mp h₂in
  obtain ⟨h₃, hstep₃, h₃out⟩ := Option.bind_eq_some_iff.mp h₃out
  obtain ⟨h₄, hrun₄, h₄out⟩ := Option.bind_eq_some_iff.mp h₄out
  refine ⟨reachable_innerGraphHeap, h₁, h₂, h₃, h₄, hstep₁, hrun₂, hstep₃, hrun₄, ?_, ?_⟩
  · intro hsame
    have heq : inputs h₁ = inputs h₂ := congrArg (Option.bind · (·.find? 1)) (hsame 0)
    rw [h₁in, h₂in] at heq
    exact absurd heq (by decide)
  · rintro ⟨hsame, -⟩
    have heq : outputs h₃ = outputs h₄ := congrArg (Option.bind · (·.find? 1)) (hsame 0)
    rw [h₃out, h₄out] at heq
    exact absurd heq (by decide)

end Builder
end Dfg
end ThreadUtils
