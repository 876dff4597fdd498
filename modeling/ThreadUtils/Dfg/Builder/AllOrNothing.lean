import ThreadUtils.Dfg.Builder.BoundaryCalls
import ThreadUtils.Dfg.Builder.EdgeCalls

/-!
# All or nothing

`tu_add_input`, `tu_add_output` and `tu_edge` return false out of a loop.  The nodes of a graph for
a type all have the type, so it is the first node of the loop that is refused, and nothing was
written before it: `operator[]` inserts a key only where there is no node to loop over.

## What could go wrong

A loop that writes and may then return false is all or nothing only if its tests have the same
outcome at each round.  For `tu_edge` the tests are on the two nodes.  The sending nodes come out of
`outputs[type]` and the receiving ones out of `inputs[type]`, so they have the type; where an
argument is itself a node there is one round only.  For `tu_add_input` there is also the test on the
graph that the nodes are added to, and that is the same for all nodes.  So the property rests on the
invariant of the heap, that the sets of a graph are correct; it is not a property of the functions
on any heap.

* `allOrNothing` --- a call that returns false leaves the heap alone, and an edge that returns true
  connects every node the sender stands for to every node the receiver stands for.
-/

namespace ThreadUtils
namespace Dfg
namespace Builder

variable {F : Type*} {h h' : Heap F}

/-- The calls for one type do what they were asked for, or nothing. -/
structure AllOrNothing (h : Heap F) (depth : ℕ) : Prop where
  addInput : ∀ g n type h', (h.graph? g).isSome → h n ≠ none →
    tuAddInput depth h (some g) (some n) type = some (h', false) → h' = h
  addOutput : ∀ g n type h', (h.graph? g).isSome → h n ≠ none →
    tuAddOutput depth h (some g) (some n) type = some (h', false) → h' = h
  edge_refused : ∀ sender receiver type h', h sender ≠ none → h receiver ≠ none →
    tuEdge depth h (some sender) (some receiver) type = some (h', false) → h' = h
  edge : ∀ sender receiver type h', h sender ≠ none → h receiver ≠ none →
    tuEdge depth h (some sender) (some receiver) type = some (h', true) → ∀ type' n m,
      Connected h' type' n m ↔ Connected h type' n m ∨
        type' = type ∧ n ∈ flatOut h sender type ∧ m ∈ flatIn h receiver type
  /-- The calls return within three levels. -/
  returns : 3 ≤ depth → ∀ g n type, h n ≠ none →
    ((h.graph? g).isSome → (tuAddInput depth h (some g) (some n) type).isSome ∧
      (tuAddOutput depth h (some g) (some n) type).isSome) ∧
    (h g ≠ none → (tuEdge depth h (some g) (some n) type).isSome)

theorem eq_of_tuAddInput_false (hW : WellFormed h) {g n : Address} {type : TypeId} {depth : ℕ}
    (hg : (h.graph? g).isSome) (hn : h n ≠ none)
    (hrun : tuAddInput (depth + 2) h (some g) (some n) type = some (h', false)) : h' = h := by
  by_cases hall : g ≠ n ∧ InputType h g type ∧ ∀ m ∈ flatIn h n type, HasInput h type m
  · obtain ⟨hne, hdeclared, hin⟩ := hall
    rw [tuAddInput_eq hne hdeclared hin depth] at hrun
    cases hrun
  · rcases tuAddInput_refused hW hg hn hall depth with hrefused | ⟨hkey, -⟩
    · rw [hrefused] at hrun
      cases hrun
      rfl
    · rw [hkey] at hrun
      cases hrun

theorem eq_of_tuAddOutput_false (hW : WellFormed h) {g n : Address} {type : TypeId} {depth : ℕ}
    (hg : (h.graph? g).isSome) (hn : h n ≠ none)
    (hrun : tuAddOutput (depth + 2) h (some g) (some n) type = some (h', false)) : h' = h := by
  by_cases hdeclared : OutputType h g type
  · rw [tuAddOutput_eq hdeclared (hW.isSome_flatOut hn) depth] at hrun
    cases hrun
  · rcases tuAddOutput_refused hW hg hn hdeclared depth with hrefused | ⟨hkey, -⟩
    · rw [hrefused] at hrun
      cases hrun
      rfl
    · rw [hkey] at hrun
      cases hrun

theorem eq_of_tuEdge_false (hW : WellFormed h) {sender receiver : Address} {type : TypeId}
    {depth : ℕ} (hsender : h sender ≠ none) (hreceiver : h receiver ≠ none)
    (hrun : tuEdge (depth + 3) h (some sender) (some receiver) type = some (h', false)) :
    h' = h := by
  by_cases hall : (∀ n ∈ flatOut h sender type, HasOutput h type n) ∧
      ∀ m ∈ flatIn h receiver type, HasInput h type m
  · rw [tuEdge_eq hall.1 hall.2 hreceiver depth] at hrun
    cases hrun
  · rcases tuEdge_refused hW hsender hreceiver hall depth with hrefused | ⟨-, i, hkey, -⟩
    · rw [hrefused] at hrun
      cases hrun
      rfl
    · rw [hkey] at hrun
      cases hrun

/-- **The edges of `tu_edge`.** -/
theorem connected_of_tuEdge_true (hW : WellFormed h) {sender receiver : Address} {type : TypeId}
    {depth : ℕ} (hsender : h sender ≠ none) (hreceiver : h receiver ≠ none)
    (hrun : tuEdge (depth + 3) h (some sender) (some receiver) type = some (h', true))
    (type' : TypeId) (n m : Address) : Connected h' type' n m ↔ Connected h type' n m ∨
      type' = type ∧ n ∈ flatOut h sender type ∧ m ∈ flatIn h receiver type := by
  by_cases hall : (∀ n ∈ flatOut h sender type, HasOutput h type n) ∧
      ∀ m ∈ flatIn h receiver type, HasInput h type m
  · rw [tuEdge_eq hall.1 hall.2 hreceiver depth] at hrun
    obtain ⟨rfl, -⟩ := Prod.mk.inj (Option.some.inj hrun)
    rw [connected_putAll, edge_mem_edgeEntries]
    refine or_congr_right ⟨?_, ?_⟩
    · rintro ⟨⟨hn, hm, rfl⟩, -⟩
      exact ⟨rfl, hn, hm⟩
    · rintro ⟨rfl, hn, hm⟩
      exact ⟨⟨hn, hm, rfl⟩, hall.1 n hn, hall.2 m hm⟩
  · rcases tuEdge_refused hW hsender hreceiver hall depth with hrefused | ⟨hnil, i, hkey, hi⟩
    · rw [hrefused] at hrun
      cases hrun
    · -- nothing to connect
      rw [hkey] at hrun
      obtain ⟨rfl, -⟩ := Prod.mk.inj (Option.some.inj hrun)
      rw [connected_put]
      refine or_congr_right (iff_of_false ?_ ?_)
      · rintro ⟨rfl, -⟩
        rcases hi with ⟨heq, -⟩ | ⟨heq, -⟩ <;> cases heq
      · rintro ⟨-, hn, hm⟩
        rcases hnil with hnil | hnil
        · rw [hnil] at hn
          cases hn
        · rw [hnil] at hm
          cases hm

theorem returns_of_le (hW : WellFormed h) {depth : ℕ} (hdepth : 3 ≤ depth) (g n : Address)
    (type : TypeId) (hn : h n ≠ none) :
    ((h.graph? g).isSome → (tuAddInput depth h (some g) (some n) type).isSome ∧
      (tuAddOutput depth h (some g) (some n) type).isSome) ∧
    (h g ≠ none → (tuEdge depth h (some g) (some n) type).isSome) := by
  obtain ⟨depth, rfl⟩ := Nat.exists_eq_add_of_le' hdepth
  refine ⟨fun hg => ⟨?_, ?_⟩, fun hg => ?_⟩
  · by_cases hall : g ≠ n ∧ InputType h g type ∧ ∀ m ∈ flatIn h n type, HasInput h type m
    · rw [tuAddInput_eq hall.1 hall.2.1 hall.2.2 (depth + 1)]
      rfl
    · rcases tuAddInput_refused hW hg hn hall (depth + 1) with hrun | ⟨hrun, -⟩ <;>
        · rw [hrun]
          rfl
  · by_cases hdeclared : OutputType h g type
    · rw [tuAddOutput_eq hdeclared (hW.isSome_flatOut hn) (depth + 1)]
      rfl
    · rcases tuAddOutput_refused hW hg hn hdeclared (depth + 1) with hrun | ⟨hrun, -⟩ <;>
        · rw [hrun]
          rfl
  · by_cases hall : (∀ n ∈ flatOut h g type, HasOutput h type n) ∧
        ∀ m ∈ flatIn h n type, HasInput h type m
    · rw [tuEdge_eq hall.1 hall.2 hn depth]
      rfl
    · rcases tuEdge_refused hW hg hn hall depth with hrun | ⟨-, i, hrun, -⟩ <;>
        · rw [hrun]
          rfl

/-- **The calls for one type are all or nothing**, whatever the depth. -/
theorem allOrNothing (hr : (system F).Reachable h) (depth : ℕ) : AllOrNothing h depth := by
  have hW := wellFormed_of_reaches hr
  constructor
  · intro g n type h' hg hn hrun
    exact eq_of_tuAddInput_false hW hg hn
      (tuAddInput_of_le (Nat.le_add_right depth 2) hrun)
  · intro g n type h' hg hn hrun
    exact eq_of_tuAddOutput_false hW hg hn
      (tuAddOutput_of_le (Nat.le_add_right depth 2) hrun)
  · intro sender receiver type h' hsender hreceiver hrun
    exact eq_of_tuEdge_false hW hsender hreceiver
      (tuEdge_of_le (Nat.le_add_right depth 3) hrun)
  · intro sender receiver type h' hsender hreceiver hrun
    exact connected_of_tuEdge_true hW hsender hreceiver
      (tuEdge_of_le (Nat.le_add_right depth 3) hrun)
  · exact fun hdepth => returns_of_le hW hdepth

/-- A graph with two tasks for the type 7, and a task that takes no type. -/
def twoTasksCalls : List (Action Unit) :=
  [⟨.graphCreate 0 (.ofList [7]) .empty, 0⟩,
    ⟨.task 1 (some 0) (.ofList [7]) (.ofList [7]) 0 1, 0⟩,
    ⟨.task 2 (some 0) (.ofList [7]) .empty 0 1, 0⟩, ⟨.task 3 none .empty (.ofList [7]) 0 1, 0⟩,
    ⟨.addInput (some 0) (some 1) 7, 1⟩, ⟨.addInput (some 0) (some 2) 7, 1⟩]

theorem allOrNothing_twoTasks : AllOrNothing ((system Unit).replay .empty twoTasksCalls) 3 :=
  allOrNothing (.replay (.start rfl) twoTasksCalls (by decide)) 3

end Builder
end Dfg
end ThreadUtils
