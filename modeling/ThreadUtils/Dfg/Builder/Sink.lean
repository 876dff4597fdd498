import ThreadUtils.Dfg.Builder.Registration

/-!
# The sink of a result

A node has one sink pointer, for all of its output types, and `tu_result` asks the graph that
the node was created in whether it outputs the type.  It never looks at the set of the nodes
that were declared as outputs for the type.

## Three answers to one question

Whether a result of the node goes to the sink of a graph is written down in three places: in the set
`outputs[type]` of the graph, in the sink of the node, and in the keys of the graph the node
was created in.  The first is what the user has declared.  The code reads the second and the
third.  They agree when a node that has the sink is declared for those of its types that its own
graph outputs, when a node that has another sink is not declared, and when its own graph outputs no
type that the node lacks (`DeclaredForAll`).  The last is needed since `tu_result` does not ask the
node whether it has the type.

A result may also go to the queues of the successors; these are no sinks, so they are told
apart by the type of the target and do not enter the comparison.

* `sinkExact_iff` --- when the two agree.
* `not_sinkExact_halfDeclared` --- a node that is declared for one of two types.
-/

namespace ThreadUtils
namespace Dfg
namespace Builder

variable {F : Type*} {h : Heap F}

/-- A queue that `tu_result` pushes to. -/
inductive Target where
  /-- `sink.result_queue` of the graph. -/
  | sink (g : Address)
  /-- The queue of an input. -/
  | input (q : NodeQueue Address)
  deriving DecidableEq

/-- The queues that `tu_result` of the node pushes a pointer, which is not null, to; the order of
the queues of an output is not fixed.  `node->graph` is only read when there is a sink. -/
def tuResult (h : Heap F) (n : Address) (type : TypeId) : Option (Multiset Target) :=
  (h.exec? n).bind fun e =>
    let sinked : Option (Multiset Target) :=
      match e.sink with
      | none => some 0
      | some g => (e.graph.bind h.graph?).map fun own =>
          if own.outputs.contains type then {.sink g} else 0
    let pushed : Multiset Target :=
      match e.outputs.find? type with
      | none => 0
      | some output => output.queues.val.map .input
    sinked.map (· + pushed)

/-- `n` is in `graph->outputs[type]`. -/
def DeclaredOutput (h : Heap F) (g : Address) (type : TypeId) (n : Address) : Prop :=
  ∃ gr, h.graph? g = some gr ∧ n ∈ nodesOf gr.outputs type

/-- `node->graph->outputs.contains(type)`. -/
def OwnerOutputs (h : Heap F) (n : Address) (type : TypeId) : Prop :=
  ∃ e o own, h.exec? n = some e ∧ e.graph = some o ∧ h.graph? o = some own ∧
    type ∈ own.outputs.keys

/-- The graph that `exec_node->sink` belongs to. -/
def sinkOf (h : Heap F) (n : Address) : Option Address :=
  (h.exec? n).bind ExecNode.sink

/-- A result goes to the sink of `g`, once, exactly when the node was declared an output of `g`
for its type, and nowhere when the node has no output for it. -/
structure SinkExact (h : Heap F) (g n : Address) : Prop where
  own : ∀ type, HasOutput h type n → ∃ targets, tuResult h n type = some targets ∧
    targets.count (.sink g) ≤ 1 ∧ (.sink g ∈ targets ↔ DeclaredOutput h g type n)
  foreign : ∀ type, ¬ HasOutput h type n → tuResult h n type = some 0

/-- The output sets, the sink and the types of the own graph fit together. -/
structure DeclaredForAll (h : Heap F) (g n : Address) : Prop where
  /-- A node with the sink of `g` is declared for those of its types that its graph outputs. -/
  sink : sinkOf h n = some g → ∀ type, HasOutput h type n →
    (DeclaredOutput h g type n ↔ OwnerOutputs h n type)
  /-- A node with another sink, or none, is not declared. -/
  noSink : sinkOf h n ≠ some g → ∀ type, ¬ DeclaredOutput h g type n
  /-- The graph of a node with a sink outputs no other types than the node. -/
  foreign : sinkOf h n ≠ none → ∀ type, OwnerOutputs h n type → HasOutput h type n

/-- The graph of a node. -/
theorem NodeOf.owner {g n : Address} (hn : NodeOf h g n) (hW : WellFormed h) :
    ∃ e o own, h.exec? n = some e ∧ e.graph = some o ∧ h.graph? o = some own := by
  induction hn with
  | @own g n gr e hgr hmem he =>
    rcases hW.nodes g gr hgr n hmem with ⟨e', he', hgraph⟩ | ⟨sub, hsub⟩
    · exact ⟨e', g, gr, he', hgraph, hgr⟩
    · rw [Heap.graph?_of_exec? he] at hsub
      cases hsub
  | nested _ _ _ _ ih => exact ih

theorem sink_notMem_input (queues : Finset (NodeQueue Address)) (g : Address) :
    Target.sink g ∉ queues.val.map Target.input := by
  simp

/-- **Where a result goes.** -/
theorem tuResult_eq {n o : Address} {e : ExecNode F} {own : Graph} (he : h.exec? n = some e)
    (hgraph : e.graph = some o) (hown : h.graph? o = some own) (type : TypeId) :
    ∃ queues : Finset (NodeQueue Address),
      (type ∉ e.outputs.keys → queues = ∅) ∧
      tuResult h n type = some
        ((match e.sink with
          | none => 0
          | some g => if type ∈ own.outputs.keys then {Target.sink g} else 0) +
          queues.val.map .input) := by
  have hsink : (match e.sink with
      | none => some 0
      | some g => (e.graph.bind h.graph?).map fun own =>
          if own.outputs.contains type then {Target.sink g} else (0 : Multiset Target)) =
      some (match e.sink with
        | none => 0
        | some g => if type ∈ own.outputs.keys then {Target.sink g} else 0) := by
    rw [hgraph, Option.bind_some, hown]
    cases e.sink with
    | none => rfl
    | some g => simp only [Option.map_some, OrderedMap.contains_iff]
  rw [tuResult, he, Option.bind_some]
  dsimp only
  rw [hsink]
  cases houtput : e.outputs.find? type with
  | none => exact ⟨∅, fun _ => rfl, rfl⟩
  | some output =>
    exact ⟨output.queues, fun hno => absurd (OrderedMap.mem_keys_of_find? houtput) hno, rfl⟩

/-- **When results reach the sink exactly as declared.** -/
theorem sinkExact_iff {ok : Heap F → Action F → Prop} (hr : (system F).Reaches ok h)
    (g n : Address) (hn : NodeOf h g n) : SinkExact h g n ↔ DeclaredForAll h g n := by
  have hW := wellFormed_of_reaches hr
  obtain ⟨e, o, own, he, hgraph, hown⟩ := hn.owner hW
  have howner : ∀ type, OwnerOutputs h n type ↔ type ∈ own.outputs.keys := by
    intro type
    constructor
    · rintro ⟨e', o', own', he', hgraph', hown', htype⟩
      obtain rfl := Option.some.inj (he.symm.trans he')
      obtain rfl := Option.some.inj (hgraph.symm.trans hgraph')
      obtain rfl := Option.some.inj (hown.symm.trans hown')
      exact htype
    · exact fun htype => ⟨e, o, own, he, hgraph, hown, htype⟩
  have hhas : ∀ type, HasOutput h type n ↔ type ∈ e.outputs.keys := by
    intro type
    constructor
    · rintro ⟨e', he', htype⟩
      obtain rfl := Option.some.inj (he.symm.trans he')
      exact htype
    · exact fun htype => ⟨e, he, htype⟩
  have hdeclared : ∀ type, DeclaredOutput h g type n → HasOutput h type n := by
    rintro type ⟨gr, hgr, hmem⟩
    exact hW.outputs g gr hgr type n hmem
  have hsinkOf : sinkOf h n = e.sink := by
    rw [sinkOf, he]
    rfl
  -- what a result of any type brings to the sink of `g`
  have hmem : ∀ type, ∃ targets, tuResult h n type = some targets ∧
      targets.count (.sink g) ≤ 1 ∧
      (.sink g ∈ targets ↔ e.sink = some g ∧ type ∈ own.outputs.keys) := by
    intro type
    obtain ⟨queues, -, heq⟩ := tuResult_eq he hgraph hown type
    refine ⟨_, heq, ?_, ?_⟩
    · rw [Multiset.count_add, Multiset.count_eq_zero_of_notMem (sink_notMem_input queues g)]
      cases e.sink with
      | none => exact Nat.zero_le 1
      | some g' =>
        dsimp only
        split
        · exact (Multiset.nodup_iff_count_le_one.mp (Multiset.nodup_singleton _)) _
        · exact Nat.zero_le 1
    · rw [Multiset.mem_add, or_iff_left (sink_notMem_input queues g)]
      cases e.sink with
      | none => simp
      | some g' =>
        dsimp only
        split
        · next hkey => simp [hkey, eq_comm]
        · next hkey => simp [hkey]
  constructor
  · intro hexact
    refine ⟨fun hsink type htype => ?_, fun hsink type hdecl => ?_, fun hsink type htype => ?_⟩
    · obtain ⟨targets, heq, -, hiff⟩ := hexact.own type htype
      obtain ⟨targets', heq', -, hiff'⟩ := hmem type
      obtain rfl := Option.some.inj (heq.symm.trans heq')
      rw [← hiff, hiff', howner, ← hsinkOf]
      exact and_iff_right hsink
    · obtain ⟨targets, heq, -, hiff⟩ := hexact.own type (hdeclared type hdecl)
      obtain ⟨targets', heq', -, hiff'⟩ := hmem type
      obtain rfl := Option.some.inj (heq.symm.trans heq')
      exact hsink (hsinkOf.trans (hiff'.mp (hiff.mpr hdecl)).1)
    · by_contra hno
      obtain ⟨queues, -, heq⟩ := tuResult_eq he hgraph hown type
      have hzero := Option.some.inj (heq.symm.trans (hexact.foreign type hno))
      obtain ⟨g', hg'⟩ := Option.ne_none_iff_exists'.mp hsink
      rw [hsinkOf] at hg'
      rw [hg'] at hzero
      dsimp only at hzero
      rw [if_pos ((howner type).mp htype)] at hzero
      exact absurd hzero (by simp)
  · intro hcond
    refine ⟨fun type htype => ?_, fun type hno => ?_⟩
    · obtain ⟨targets, heq, hcount, hiff⟩ := hmem type
      refine ⟨targets, heq, hcount, hiff.trans ?_⟩
      rw [← hsinkOf, ← howner]
      constructor
      · rintro ⟨hsink, hkey⟩
        exact (hcond.sink hsink type htype).mpr hkey
      · intro hdecl
        have hsink : sinkOf h n = some g := by
          by_contra hne
          exact hcond.noSink hne type hdecl
        exact ⟨hsink, (hcond.sink hsink type htype).mp hdecl⟩
    · obtain ⟨queues, hqueues, heq⟩ := tuResult_eq he hgraph hown type
      have hno' : type ∉ e.outputs.keys := fun hkey => hno ((hhas type).mpr hkey)
      rw [heq, hqueues hno']
      cases hsink : e.sink with
      | none => rfl
      | some g' =>
        have hkey : type ∉ own.outputs.keys := fun hkey =>
          hno (hcond.foreign (by rw [hsinkOf, hsink]; exact Option.some_ne_none g') type
            ((howner type).mpr hkey))
        dsimp only
        rw [if_neg hkey]
        rfl

/-- The outputs of a graph are declared with its own nodes and its own nested graphs. -/
def ownOutputs (h : Heap F) (a : Action F) : Bool :=
  match a.call with
  | .addOutput (some g) (some n) _ | .addOutputs (some g) (some n) =>
      (h.graph? g).any fun gr => decide (n ∈ gr.nodes)
  | _ => true

/-- A graph and its task output the types `1` and `2`. -/
def twoOutputs : List (Action Unit) :=
  [⟨.graphCreate 0 .empty (.ofList [1, 2]), 1⟩,
    ⟨.task 1 (some 0) .empty (.ofList [1, 2]) 0 1, 1⟩]

/-- The task is declared for both types. -/
def allDeclared : Heap Unit :=
  (system Unit).replayWithin (fun h a => ownOutputs h a = true) .empty
    (twoOutputs ++ [⟨.addOutputs (some 0) (some 1), 1⟩])

theorem sinkExact_allDeclared : SinkExact allDeclared 0 1 := by
  have hr : (system Unit).Reaches (fun h a => ownOutputs h a = true) allDeclared :=
    TransitionSystem.Reaches.replayWithin (.start rfl) _ (by decide)
  have hnode : NodeOf allDeclared 0 1 :=
    .own rfl List.mem_cons_self rfl
  refine (sinkExact_iff hr 0 1 hnode).mpr ⟨fun _ type htype => ?_, fun hsink => ?_, ?_⟩
  · obtain ⟨e, he, htype⟩ := htype
    cases he
    have hcases : type = 1 ∨ type = 2 := by simpa using OrderedSet.mem_ofList.mp htype
    refine iff_of_true ⟨_, rfl, ?_⟩ ⟨_, 0, _, rfl, rfl, rfl, ?_⟩
    · rcases hcases with rfl | rfl <;> decide
    · rcases hcases with rfl | rfl <;> decide
  · exact absurd rfl hsink
  · rintro - type ⟨e, o, own, he, ho, hown, htype⟩
    cases he
    cases ho
    cases hown
    have hcases : type = 1 ∨ type = 2 := by simpa using OrderedSet.mem_ofList.mp htype
    refine ⟨_, rfl, ?_⟩
    rcases hcases with rfl | rfl <;> decide

/-- The task is declared for the type `1` only. -/
def halfDeclared : Heap Unit :=
  (system Unit).replayWithin (fun h a => ownOutputs h a = true) .empty
    (twoOutputs ++ [⟨.addOutput (some 0) (some 1) 1, 1⟩])

/-- **A result of the type `2` reaches the sink** all the same. -/
theorem not_sinkExact_halfDeclared :
    (system Unit).Reaches (fun h a => ownOutputs h a = true) halfDeclared ∧
      NodeOf halfDeclared 0 1 ∧ ¬ SinkExact halfDeclared 0 1 := by
  refine ⟨TransitionSystem.Reaches.replayWithin (.start rfl) _ (by decide),
    .own rfl List.mem_cons_self rfl, fun hexact => ?_⟩
  obtain ⟨targets, heq, -, hiff⟩ := hexact.own 2 ⟨_, rfl, by decide⟩
  have htargets : tuResult halfDeclared 1 2 = some {.sink 0} := by decide
  obtain rfl := Option.some.inj (heq.symm.trans htargets)
  obtain ⟨gr, hgr, hmem⟩ := hiff.mp (Multiset.mem_singleton_self _)
  cases hgr
  exact absurd hmem (by decide)

end Builder
end Dfg
end ThreadUtils
