import ThreadUtils.Dfg.Builder.Insertions

/-!
# The calls as lists of insertions

The nodes that are declared as inputs or outputs of a graph are executable and have the type, so a
call that goes through graphs ends after three levels, and a loop in it that succeeds for its first
node succeeds for all of them.  Each function of the builder that registers nodes or draws edges
makes a list of insertions, given here, or refuses and leaves the heap alone.

## The nodes a call goes through

`flatOut` and `flatIn` are what a sender and a receiver stand for: itself if it is executable, and
the declared nodes of the type if it is a graph.  They are read off the heap before the call.  The
loops read the heap as it is when they come to a node; but an edge changes neither, so the two are
the same (`flatIn_put`, `flatOut_put`).  This is where a loop over a map that its own body could
change is shown to do no such thing.

## The depth

The functions are recursive in the nesting of the graphs, and the model bounds the recursion by a
depth.  That the bound is no part of the result is `Call.run_mono`: a call that ends within a depth
does the same within a larger one.

* `tuEdge_eq`, `tuEdges_eq`, `tuAddInput_eq`, `tuAddInputs_eq`, `tuAddOutput_eq`,
  `tuAddOutputs_eq` --- the list of a call.
* `Call.run_mono` --- a call that ends within a depth does the same within a larger one.
-/

namespace ThreadUtils
namespace Dfg
namespace Builder

variable {F : Type*} {h h' : Heap F} {β : Type*}

/-! ## Loops -/

/-- A loop of calls that each make a list of insertions. -/
theorem forEach_putAll {call : Heap F → β → Outcome F} (entries : β → List Insertion)
    {I : Heap F → Prop} {bs : List β}
    (hcall : ∀ h, I h → ∀ b ∈ bs, call h b = some (putAll h (entries b), true))
    (hput : ∀ h, I h → ∀ b ∈ bs, I (putAll h (entries b))) (hI : I h) :
    forEach call h bs = some (putAll h (bs.flatMap entries), true) := by
  induction bs generalizing h with
  | nil => rfl
  | cons b bs ih =>
    rw [forEach, hcall h hI b List.mem_cons_self]
    dsimp only
    rw [ih (fun h hI b hb => hcall h hI b (List.mem_cons_of_mem _ hb))
      (fun h hI b hb => hput h hI b (List.mem_cons_of_mem _ hb)) (hput h hI b List.mem_cons_self),
      List.flatMap_cons, putAll_append]

/-- A loop whose first call is refused. -/
theorem forEach_eq_false {call : Heap F → β → Outcome F} {bs : List β} (hne : bs ≠ [])
    (hcall : ∀ b ∈ bs, call h b = some (h, false)) : forEach call h bs = some (h, false) := by
  cases bs with
  | nil => exact absurd rfl hne
  | cons b bs => rw [forEach, hcall b List.mem_cons_self]

/-- A loop of calls that know more calls. -/
theorem forEach_mono {call call' : Heap F → β → Outcome F} {bs : List β} {r : Heap F × Bool}
    (hcall : ∀ h b r, call h b = some r → call' h b = some r) (hrun : forEach call h bs = some r) :
    forEach call' h bs = some r := by
  induction bs generalizing h with
  | nil => exact hrun
  | cons b bs ih =>
    rw [forEach] at hrun ⊢
    split at hrun
    · next h₁ hb =>
      rw [hcall h b _ hb]
      exact ih hrun
    · next h₁ hb =>
      rw [hcall h b _ hb]
      exact hrun
    · cases hrun

/-! ## The depth -/

theorem tuAddInput_succ {depth : ℕ} {graph node : Option Address} {type : TypeId}
    {r : Heap F × Bool} (hrun : tuAddInput depth h graph node type = some r) :
    tuAddInput (depth + 1) h graph node type = some r := by
  induction depth generalizing h graph node r with
  | zero => cases hrun
  | succ depth ih =>
    cases graph with
    | none => exact hrun
    | some g =>
      cases node with
      | none => exact hrun
      | some n =>
        rw [tuAddInput] at hrun ⊢
        split at hrun
        · cases hrun
        · rw [tuAddInputGraph] at hrun ⊢
          split at hrun
          · next hsame =>
            rw [if_pos hsame]
            exact hrun
          · next hne =>
            obtain ⟨sub, hsub, hrun⟩ := Option.bind_eq_some_iff.mp hrun
            rw [if_neg hne, hsub, Option.bind_some]
            exact forEach_mono (fun h m r hcall => ih hcall) hrun
        · exact hrun

theorem tuAddInputs_succ {depth : ℕ} {graph node : Option Address} {r : Heap F × Bool}
    (hrun : tuAddInputs depth h graph node = some r) :
    tuAddInputs (depth + 1) h graph node = some r := by
  induction depth generalizing h graph node r with
  | zero => cases hrun
  | succ depth ih =>
    cases graph with
    | none => exact hrun
    | some g =>
      cases node with
      | none => exact hrun
      | some n =>
        rw [tuAddInputs] at hrun ⊢
        split at hrun
        · cases hrun
        · rw [tuAddInputsGraph] at hrun ⊢
          split at hrun
          · next hsame =>
            rw [if_pos hsame]
            exact hrun
          · next hne =>
            obtain ⟨sub, hsub, hrun⟩ := Option.bind_eq_some_iff.mp hrun
            rw [if_neg hne, hsub, Option.bind_some]
            refine forEach_mono (fun h type r hcall => ?_) hrun
            obtain ⟨gr, hgr, hcall⟩ := Option.bind_eq_some_iff.mp hcall
            rw [hgr, Option.bind_some]
            split at hcall
            · next hdeclared =>
              rw [if_pos hdeclared]
              exact hcall
            · next hnot =>
              rw [if_neg hnot]
              exact forEach_mono (fun h m r hcall => ih hcall) hcall
        · exact hrun

theorem tuAddOutput_succ {depth : ℕ} {graph node : Option Address} {type : TypeId}
    {r : Heap F × Bool} (hrun : tuAddOutput depth h graph node type = some r) :
    tuAddOutput (depth + 1) h graph node type = some r := by
  induction depth generalizing h graph node r with
  | zero => cases hrun
  | succ depth ih =>
    cases graph with
    | none => exact hrun
    | some g =>
      cases node with
      | none => exact hrun
      | some n =>
        rw [tuAddOutput] at hrun ⊢
        split at hrun
        · cases hrun
        · obtain ⟨sub, hsub, hrun⟩ := Option.bind_eq_some_iff.mp hrun
          rw [tuAddOutputGraph, hsub, Option.bind_some]
          exact forEach_mono (fun h m r hcall => ih hcall) hrun
        · exact hrun

theorem tuAddOutputs_succ {depth : ℕ} {graph node : Option Address} {r : Heap F × Bool}
    (hrun : tuAddOutputs depth h graph node = some r) :
    tuAddOutputs (depth + 1) h graph node = some r := by
  induction depth generalizing h graph node r with
  | zero => cases hrun
  | succ depth ih =>
    cases graph with
    | none => exact hrun
    | some g =>
      cases node with
      | none => exact hrun
      | some n =>
        rw [tuAddOutputs] at hrun ⊢
        split at hrun
        · cases hrun
        · obtain ⟨sub, hsub, hrun⟩ := Option.bind_eq_some_iff.mp hrun
          rw [tuAddOutputsGraph, hsub, Option.bind_some]
          refine forEach_mono (fun h type r hcall => ?_) hrun
          obtain ⟨gr, hgr, hcall⟩ := Option.bind_eq_some_iff.mp hcall
          rw [hgr, Option.bind_some]
          split at hcall
          · next hdeclared =>
            rw [if_pos hdeclared]
            exact hcall
          · next hnot =>
            rw [if_neg hnot]
            exact forEach_mono (fun h m r hcall => ih hcall) hcall
        · exact hrun

theorem tuEdge_succ {depth : ℕ} {sender receiver : Option Address} {type : TypeId}
    {r : Heap F × Bool} (hrun : tuEdge depth h sender receiver type = some r) :
    tuEdge (depth + 1) h sender receiver type = some r := by
  induction depth generalizing h sender receiver r with
  | zero => cases hrun
  | succ depth ih =>
    cases sender with
    | none => exact hrun
    | some n =>
      cases receiver with
      | none => exact hrun
      | some m =>
        rw [tuEdge] at hrun ⊢
        split at hrun
        · exact forEach_mono (fun h m r hcall => ih hcall) hrun
        · exact forEach_mono (fun h m r hcall => ih hcall) hrun
        · exact hrun
        · cases hrun

theorem tuEdges_succ {depth : ℕ} {sender receiver : Option Address} {r : Heap F × Bool}
    (hrun : tuEdges depth h sender receiver = some r) :
    tuEdges (depth + 1) h sender receiver = some r := by
  induction depth generalizing h sender receiver r with
  | zero => cases hrun
  | succ depth ih =>
    cases sender with
    | none => exact hrun
    | some n =>
      cases receiver with
      | none => exact hrun
      | some m =>
        rw [tuEdges] at hrun ⊢
        split at hrun
        · exact forEach_mono (fun h m r hcall => ih hcall) hrun
        · exact forEach_mono (fun h m r hcall => ih hcall) hrun
        · exact hrun
        · cases hrun

/-- More depth makes no difference. -/
theorem of_succ {A : Type*} (call : ℕ → Option A) {r : A}
    (hsucc : ∀ depth, call depth = some r → call (depth + 1) = some r) {depth depth' : ℕ}
    (hle : depth ≤ depth') (hrun : call depth = some r) : call depth' = some r := by
  induction hle with
  | refl => exact hrun
  | step _ ih => exact hsucc _ ih

theorem tuAddInput_of_le {graph node : Option Address} {type : TypeId} {r : Heap F × Bool}
    {depth depth' : ℕ} (hle : depth ≤ depth')
    (hrun : tuAddInput depth h graph node type = some r) :
    tuAddInput depth' h graph node type = some r :=
  of_succ (fun depth => tuAddInput depth h graph node type) (fun _ => tuAddInput_succ) hle hrun

theorem tuAddInputs_of_le {graph node : Option Address} {r : Heap F × Bool} {depth depth' : ℕ}
    (hle : depth ≤ depth') (hrun : tuAddInputs depth h graph node = some r) :
    tuAddInputs depth' h graph node = some r :=
  of_succ (fun depth => tuAddInputs depth h graph node) (fun _ => tuAddInputs_succ) hle hrun

theorem tuAddOutput_of_le {graph node : Option Address} {type : TypeId} {r : Heap F × Bool}
    {depth depth' : ℕ} (hle : depth ≤ depth')
    (hrun : tuAddOutput depth h graph node type = some r) :
    tuAddOutput depth' h graph node type = some r :=
  of_succ (fun depth => tuAddOutput depth h graph node type) (fun _ => tuAddOutput_succ) hle hrun

theorem tuAddOutputs_of_le {graph node : Option Address} {r : Heap F × Bool} {depth depth' : ℕ}
    (hle : depth ≤ depth') (hrun : tuAddOutputs depth h graph node = some r) :
    tuAddOutputs depth' h graph node = some r :=
  of_succ (fun depth => tuAddOutputs depth h graph node) (fun _ => tuAddOutputs_succ) hle hrun

theorem tuEdge_of_le {sender receiver : Option Address} {type : TypeId} {r : Heap F × Bool}
    {depth depth' : ℕ} (hle : depth ≤ depth')
    (hrun : tuEdge depth h sender receiver type = some r) :
    tuEdge depth' h sender receiver type = some r :=
  of_succ (fun depth => tuEdge depth h sender receiver type) (fun _ => tuEdge_succ) hle hrun

theorem tuEdges_of_le {sender receiver : Option Address} {r : Heap F × Bool} {depth depth' : ℕ}
    (hle : depth ≤ depth') (hrun : tuEdges depth h sender receiver = some r) :
    tuEdges depth' h sender receiver = some r :=
  of_succ (fun depth => tuEdges depth h sender receiver) (fun _ => tuEdges_succ) hle hrun

/-- **A call that ends within a depth** does the same within a larger one. -/
theorem Call.run_mono {call : Call F} {depth depth' : ℕ} (hle : depth ≤ depth')
    (hrun : call.run depth h = some h') : call.run depth' h = some h' := by
  have hmap : ∀ {o o' : Outcome F}, (∀ r, o = some r → o' = some r) →
      o.map Prod.fst = some h' → o'.map Prod.fst = some h' := by
    intro o o' hmore heq
    obtain ⟨r, hr, hfst⟩ := Option.map_eq_some_iff.mp heq
    rw [hmore r hr, Option.map_some, hfst]
  cases call with
  | addInput graph node type => exact hmap (fun _ => tuAddInput_of_le hle) hrun
  | addInputs graph node => exact hmap (fun _ => tuAddInputs_of_le hle) hrun
  | addOutput graph node type => exact hmap (fun _ => tuAddOutput_of_le hle) hrun
  | addOutputs graph node => exact hmap (fun _ => tuAddOutputs_of_le hle) hrun
  | edge sender receiver type => exact hmap (fun _ => tuEdge_of_le hle) hrun
  | edges sender receiver => exact hmap (fun _ => tuEdges_of_le hle) hrun
  | _ => exact hrun

/-! ## The nodes a call goes through -/

/-- The executable nodes that a sender stands for. -/
def flatOut (h : Heap F) (n : Address) (type : TypeId) : List Address :=
  match h.graph? n with
  | some gr => nodesOf gr.outputs type
  | none => [n]

/-- The executable nodes that a receiver stands for. -/
def flatIn (h : Heap F) (n : Address) (type : TypeId) : List Address :=
  match h.graph? n with
  | some gr => nodesOf gr.inputs type
  | none => [n]

/-- The declared input types of a node or of a graph. -/
def inputTypes (h : Heap F) (n : Address) : OrderedSet TypeId :=
  match h n with
  | some (.exec e) => e.inputs.keys
  | some (.graph gr) => gr.inputs.keys
  | none => .empty

/-- The declared output types of a node or of a graph. -/
def outputTypes (h : Heap F) (n : Address) : OrderedSet TypeId :=
  match h n with
  | some (.exec e) => e.outputs.keys
  | some (.graph gr) => gr.outputs.keys
  | none => .empty

theorem flatOut_graph {n : Address} {gr : Graph} (hgr : h.graph? n = some gr) (type : TypeId) :
    flatOut h n type = nodesOf gr.outputs type := by
  rw [flatOut, hgr]

theorem flatIn_graph {n : Address} {gr : Graph} (hgr : h.graph? n = some gr) (type : TypeId) :
    flatIn h n type = nodesOf gr.inputs type := by
  rw [flatIn, hgr]

theorem inputTypes_graph {n : Address} {gr : Graph} (hgr : h.graph? n = some gr) :
    inputTypes h n = gr.inputs.keys := by
  rw [inputTypes, Heap.graph?_eq_some.mp hgr]

theorem inputTypes_exec {n : Address} {e : ExecNode F} (he : h.exec? n = some e) :
    inputTypes h n = e.inputs.keys := by
  rw [inputTypes, Heap.exec?_eq_some.mp he]

theorem outputTypes_graph {n : Address} {gr : Graph} (hgr : h.graph? n = some gr) :
    outputTypes h n = gr.outputs.keys := by
  rw [outputTypes, Heap.graph?_eq_some.mp hgr]

theorem outputTypes_exec {n : Address} {e : ExecNode F} (he : h.exec? n = some e) :
    outputTypes h n = e.outputs.keys := by
  rw [outputTypes, Heap.exec?_eq_some.mp he]

theorem mem_inputTypes_graph {g : Address} {type : TypeId} (hg : (h.graph? g).isSome) :
    type ∈ inputTypes h g ↔ InputType h g type := by
  obtain ⟨gr, hgr⟩ := Option.isSome_iff_exists.mp hg
  rw [inputTypes_graph hgr]
  constructor
  · exact fun htype => ⟨gr, hgr, htype⟩
  · rintro ⟨gr', hgr', htype⟩
    obtain rfl := Option.some.inj (hgr.symm.trans hgr')
    exact htype

theorem mem_outputTypes_graph {g : Address} {type : TypeId} (hg : (h.graph? g).isSome) :
    type ∈ outputTypes h g ↔ OutputType h g type := by
  obtain ⟨gr, hgr⟩ := Option.isSome_iff_exists.mp hg
  rw [outputTypes_graph hgr]
  constructor
  · exact fun htype => ⟨gr, hgr, htype⟩
  · rintro ⟨gr', hgr', htype⟩
    obtain rfl := Option.some.inj (hgr.symm.trans hgr')
    exact htype

theorem mem_inputTypes_exec {n : Address} {type : TypeId} (hn : (h.exec? n).isSome) :
    type ∈ inputTypes h n ↔ HasInput h type n := by
  obtain ⟨e, he⟩ := Option.isSome_iff_exists.mp hn
  rw [inputTypes_exec he]
  constructor
  · exact fun htype => ⟨e, he, htype⟩
  · rintro ⟨e', he', htype⟩
    obtain rfl := Option.some.inj (he.symm.trans he')
    exact htype

theorem mem_outputTypes_exec {n : Address} {type : TypeId} (hn : (h.exec? n).isSome) :
    type ∈ outputTypes h n ↔ HasOutput h type n := by
  obtain ⟨e, he⟩ := Option.isSome_iff_exists.mp hn
  rw [outputTypes_exec he]
  constructor
  · exact fun htype => ⟨e, he, htype⟩
  · rintro ⟨e', he', htype⟩
    obtain rfl := Option.some.inj (he.symm.trans he')
    exact htype

theorem HasInput.isSome_exec? {type : TypeId} {n : Address} (hn : HasInput h type n) :
    (h.exec? n).isSome := by
  obtain ⟨e, he, -⟩ := hn
  exact Option.isSome_iff_exists.mpr ⟨e, he⟩

theorem HasOutput.isSome_exec? {type : TypeId} {n : Address} (hn : HasOutput h type n) :
    (h.exec? n).isSome := by
  obtain ⟨e, he, -⟩ := hn
  exact Option.isSome_iff_exists.mpr ⟨e, he⟩

theorem graph?_eq_none_of_isSome {n : Address} (hn : (h.exec? n).isSome) :
    h.graph? n = none := by
  obtain ⟨e, he⟩ := Option.isSome_iff_exists.mp hn
  exact Heap.graph?_of_exec? he

/-- The nodes of a set are determined by the members, as their order is. -/
theorem nodesOf_ext {map map' : OrderedMap TypeId (OrderedSet Address)} {type : TypeId}
    (heq : ∀ n, n ∈ nodesOf map type ↔ n ∈ nodesOf map' type) :
    nodesOf map type = nodesOf map' type := by
  have hsorted : ∀ m : OrderedMap TypeId (OrderedSet Address),
      (nodesOf m type).Pairwise (· < ·) := by
    intro m
    unfold nodesOf
    cases m.find? type with
    | none => exact .nil
    | some nodes => exact nodes.sorted
  exact congrArg OrderedSet.toList
    (OrderedSet.ext_of_mem (s := ⟨_, hsorted map⟩) (t := ⟨_, hsorted map'⟩) heq)

/-- A receiver stands for the same nodes until one is registered. -/
theorem flatIn_put {i : Insertion} {n : Address} {type : TypeId}
    (hi : ∀ m, i ≠ .input n type m) : flatIn (put h i) n type = flatIn h n type := by
  rw [flatIn, flatIn]
  cases hgr : h.graph? n with
  | none => rw [graph?_put_eq_none hgr]
  | some gr =>
    obtain ⟨gr', hgr', hput⟩ := graph?_put hgr i
    rw [hgr']
    exact nodesOf_ext fun m => (hput.inputs type m).trans (or_iff_left fun hand => hi m hand.1)

/-- A sender stands for the same nodes until one is registered. -/
theorem flatOut_put {i : Insertion} {n : Address} {type : TypeId}
    (hi : ∀ m, i ≠ .output n type m) : flatOut (put h i) n type = flatOut h n type := by
  rw [flatOut, flatOut]
  cases hgr : h.graph? n with
  | none => rw [graph?_put_eq_none hgr]
  | some gr =>
    obtain ⟨gr', hgr', hput⟩ := graph?_put hgr i
    rw [hgr']
    exact nodesOf_ext fun m => (hput.outputs type m).trans (or_iff_left fun hand => hi m hand.1)

theorem isSome_exec?_put {n : Address} (i : Insertion) :
    ((put h i).exec? n).isSome = (h.exec? n).isSome := by
  cases he : h.exec? n with
  | none => rw [exec?_put_eq_none he]
  | some e =>
    obtain ⟨e', he', -⟩ := exec?_put he i
    rw [he']
    rfl

theorem isSome_exec?_putAll {n : Address} (l : List Insertion) :
    ((putAll h l).exec? n).isSome = (h.exec? n).isSome := by
  induction l generalizing h with
  | nil => rfl
  | cons i l ih => exact ih.trans (isSome_exec?_put i)

/-- The types of a node are fixed. -/
theorem inputTypes_putAll {n : Address} (hn : (h.exec? n).isSome) (l : List Insertion) :
    inputTypes (putAll h l) n = inputTypes h n := by
  refine OrderedSet.ext_of_mem fun type => ?_
  rw [mem_inputTypes_exec hn, mem_inputTypes_exec (by rw [isSome_exec?_putAll]; exact hn),
    hasInput_putAll]

theorem outputTypes_putAll {n : Address} (hn : (h.exec? n).isSome) (l : List Insertion) :
    outputTypes (putAll h l) n = outputTypes h n := by
  refine OrderedSet.ext_of_mem fun type => ?_
  rw [mem_outputTypes_exec hn, mem_outputTypes_exec (by rw [isSome_exec?_putAll]; exact hn),
    hasOutput_putAll]

/-- An object is a node or a graph. -/
theorem isSome_exec?_or_graph? {n : Address} (hn : h n ≠ none) :
    (h.exec? n).isSome ∨ (h.graph? n).isSome := by
  obtain ⟨o, ho⟩ := Option.ne_none_iff_exists'.mp hn
  cases o with
  | exec e => exact Or.inl (Option.isSome_iff_exists.mpr ⟨e, Heap.exec?_eq_some.mpr ho⟩)
  | graph gr => exact Or.inr (Option.isSome_iff_exists.mpr ⟨gr, Heap.graph?_eq_some.mpr ho⟩)

/-- `inputs[type]` for a declared type. -/
theorem put_inputKey_eq_self {g : Address} {type : TypeId} (htype : InputType h g type) :
    put h (.inputKey g type) = h := by
  obtain ⟨gr, hgr, htype⟩ := htype
  rw [put, hgr]
  dsimp only
  rw [OrderedMap.insert_eq_self _ htype, Heap.setGraph_eq_self hgr]

/-- `outputs[type]` for a declared type. -/
theorem put_outputKey_eq_self {g : Address} {type : TypeId} (htype : OutputType h g type) :
    put h (.outputKey g type) = h := by
  obtain ⟨gr, hgr, htype⟩ := htype
  rw [put, hgr]
  dsimp only
  rw [OrderedMap.insert_eq_self _ htype, Heap.setGraph_eq_self hgr]

/-- A graph with nodes for a type declares it. -/
theorem inputType_of_flatIn {g : Address} {type : TypeId} (hg : (h.graph? g).isSome)
    (hne : flatIn h g type ≠ []) : InputType h g type := by
  obtain ⟨gr, hgr⟩ := Option.isSome_iff_exists.mp hg
  obtain ⟨n, hn⟩ := List.exists_mem_of_ne_nil _ hne
  rw [flatIn_graph hgr] at hn
  obtain ⟨nodes, hfind, -⟩ := mem_nodesOf.mp hn
  exact ⟨gr, hgr, OrderedMap.mem_keys_of_find? hfind⟩

theorem outputType_of_flatOut {g : Address} {type : TypeId} (hg : (h.graph? g).isSome)
    (hne : flatOut h g type ≠ []) : OutputType h g type := by
  obtain ⟨gr, hgr⟩ := Option.isSome_iff_exists.mp hg
  obtain ⟨n, hn⟩ := List.exists_mem_of_ne_nil _ hne
  rw [flatOut_graph hgr] at hn
  obtain ⟨nodes, hfind, -⟩ := mem_nodesOf.mp hn
  exact ⟨gr, hgr, OrderedMap.mem_keys_of_find? hfind⟩

theorem WellFormed.hasInput_flatIn (hW : WellFormed h) {n m : Address} {type : TypeId}
    (hn : (h.graph? n).isSome) (hm : m ∈ flatIn h n type) : HasInput h type m := by
  obtain ⟨gr, hgr⟩ := Option.isSome_iff_exists.mp hn
  rw [flatIn_graph hgr] at hm
  exact hW.inputs n gr hgr type m hm

theorem WellFormed.hasOutput_flatOut (hW : WellFormed h) {n m : Address} {type : TypeId}
    (hn : (h.graph? n).isSome) (hm : m ∈ flatOut h n type) : HasOutput h type m := by
  obtain ⟨gr, hgr⟩ := Option.isSome_iff_exists.mp hn
  rw [flatOut_graph hgr] at hm
  exact hW.outputs n gr hgr type m hm

end Builder
end Dfg
end ThreadUtils
