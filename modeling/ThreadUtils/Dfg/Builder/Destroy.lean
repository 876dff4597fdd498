import ThreadUtils.Dfg.Builder.WellFormed

/-!
# Graphs are destroyed from the outside in

`tu_graph_destroy` deletes the tasks and states of a graph and the graph, and leaves the graphs
nested in it to their creator.  To tell the two apart it reads the kind of every node.  A nested
graph that was destroyed before is read all the same, so the order matters.

A pointer to no object is no outcome here, so a sequence of calls with an outcome reads no memory
that was freed and frees nothing twice.

## What is left

The user destroys the graphs one after the other, in some order.  `Left` says what the heap is after
the graphs `gs` were destroyed: what was deleted with one of them is gone, and all the rest is what
it was.  A task or a state belongs to the one graph it was created in, so it is deleted with that
one and with no other; a graph is deleted by its own call only (`deletedWith_graph`).  So a call for
another graph can only fail at a nested graph that is gone, or at the graph itself.

From this the theorem is an induction on the sequence, and its condition one on the order: a
graph that is nested in several ones goes after all of them.
-/

namespace ThreadUtils
namespace Dfg
namespace Builder

variable {F : Type*} {h h₀ : Heap F}

/-- `delete`. -/
def Heap.delete (h : Heap F) (n : Address) : Heap F :=
  Function.update h n none

/-- The loop of `tu_graph_destroy`. -/
def destroyNodes : Heap F → List Address → Option (Heap F)
  | h, [] => some h
  | h, n :: ns =>
      match h n with
      | none => none
      | some (.exec _) => destroyNodes (h.delete n) ns
      | some (.graph _) => destroyNodes h ns

/-- `tu_graph_destroy`. -/
def tuGraphDestroy (h : Heap F) (g : Address) : Option (Heap F) :=
  (h.graph? g).bind fun gr => (destroyNodes h gr.nodes).map (·.delete g)

/-- A sequence of calls of `tu_graph_destroy`. -/
def destroyAll : Heap F → List Address → Option (Heap F)
  | h, [] => some h
  | h, g :: gs => (tuGraphDestroy h g).bind (destroyAll · gs)

/-! ## The nodes of one graph -/

/-- A node that was freed is read. -/
theorem destroyNodes_eq_none {ns : List Address} {n : Address} (hn : n ∈ ns) (hfree : h n = none) :
    destroyNodes h ns = none := by
  induction ns generalizing h with
  | nil => cases hn
  | cons m ns ih =>
    rw [destroyNodes]
    split
    · rfl
    · next e hm =>
      have hmem : n ∈ ns := (List.mem_cons.mp hn).resolve_left fun heq => by
        rw [← heq, hfree] at hm
        cases hm
      refine ih hmem ?_
      rw [Heap.delete, Function.update_apply, hfree, ite_self]
    · next gr hm =>
      have hmem : n ∈ ns := (List.mem_cons.mp hn).resolve_left fun heq => by
        rw [← heq, hfree] at hm
        cases hm
      exact ih hmem hfree

/-- The tasks and states among the nodes are deleted. -/
theorem destroyNodes_eq_some {ns : List Address} (hall : ∀ n ∈ ns, h n ≠ none)
    (hcount : ∀ n e, h.exec? n = some e → ns.count n ≤ 1) : ∃ h', destroyNodes h ns = some h' ∧
      ∀ n, (n ∈ ns ∧ (h.exec? n).isSome → h' n = none) ∧
        (¬ (n ∈ ns ∧ (h.exec? n).isSome) → h' n = h n) := by
  induction ns generalizing h with
  | nil => exact ⟨h, rfl, fun n => ⟨fun hn => absurd hn.1 List.not_mem_nil, fun _ => rfl⟩⟩
  | cons m ns ih =>
    have htail : ∀ n e, h.exec? n = some e → ns.count n ≤ 1 := fun n e he =>
      (List.count_le_count_cons).trans (hcount n e he)
    cases hm : h m with
    | none => exact absurd hm (hall m List.mem_cons_self)
    | some o =>
      cases o with
      | graph gr =>
        obtain ⟨h', hrun, hspec⟩ := ih (fun n hn => hall n (List.mem_cons_of_mem m hn)) htail
        refine ⟨h', by rw [destroyNodes, hm]; exact hrun, fun n => ?_⟩
        have hiff : n ∈ m :: ns ∧ (h.exec? n).isSome ↔ n ∈ ns ∧ (h.exec? n).isSome := by
          refine and_congr_left fun hexec => ⟨fun hn => ?_, List.mem_cons_of_mem m⟩
          refine (List.mem_cons.mp hn).resolve_left fun heq => ?_
          rw [heq, Heap.exec?, hm] at hexec
          cases hexec
        rw [hiff]
        exact hspec n
      | exec e =>
        have hexec : h.exec? m = some e := Heap.exec?_eq_some.mpr hm
        -- the task is not among the nodes that follow
        have hnot : m ∉ ns := by
          have hone := hcount m e hexec
          rw [List.count_cons_self] at hone
          exact List.count_eq_zero.mp (by omega)
        have hsame : ∀ n, n ≠ m → (h.delete m) n = h n := fun n hn => Function.update_of_ne hn _ _
        have hall' : ∀ n ∈ ns, (h.delete m) n ≠ none := by
          intro n hn
          rw [hsame n fun heq => hnot (heq ▸ hn)]
          exact hall n (List.mem_cons_of_mem m hn)
        have htail' : ∀ n e', (h.delete m).exec? n = some e' → ns.count n ≤ 1 := by
          intro n e' he'
          by_cases hnm : n = m
          · rw [hnm, List.count_eq_zero.mpr hnot]
            exact Nat.zero_le 1
          · rw [Heap.exec?, hsame n hnm] at he'
            exact htail n e' he'
        obtain ⟨h', hrun, hspec⟩ := ih hall' htail'
        refine ⟨h', by rw [destroyNodes, hm]; exact hrun, fun n => ?_⟩
        by_cases hnm : n = m
        · subst hnm
          refine ⟨fun _ => ?_, fun hno => absurd ⟨List.mem_cons_self, by rw [hexec]; rfl⟩ hno⟩
          rw [(hspec n).2 fun hn => hnot hn.1]
          exact Function.update_self _ _ _
        · have hiff : n ∈ m :: ns ∧ (h.exec? n).isSome ↔
              n ∈ ns ∧ ((h.delete m).exec? n).isSome := by
            rw [Heap.exec?, Heap.exec?, hsame n hnm, List.mem_cons, or_iff_right hnm]
          rw [hiff, ← hsame n hnm]
          exact hspec n

/-! ## The graphs that were destroyed -/

/-- What is deleted with the graphs `gs`. -/
def DeletedWith (h : Heap F) (gs : List Address) (n : Address) : Prop :=
  n ∈ gs ∨ ∃ e g, h.exec? n = some e ∧ e.graph = some g ∧ g ∈ gs

/-- What is left in `h` of the heap `h₀` after the graphs `gs` were destroyed. -/
structure Left (h₀ : Heap F) (gs : List Address) (h : Heap F) : Prop where
  graphs : ∀ g ∈ gs, ∃ gr, h₀.graph? g = some gr
  freed : ∀ n, DeletedWith h₀ gs n → h n = none
  kept : ∀ n, ¬ DeletedWith h₀ gs n → h n = h₀ n

/-- The graph `inner` is nested in the graph `outer`. -/
def NestedIn (h : Heap F) (inner outer : Address) : Prop :=
  ∃ gr, h.graph? outer = some gr ∧ inner ∈ gr.nodes

theorem left_nil (h : Heap F) : Left h [] h := by
  refine ⟨fun _ hg => (List.not_mem_nil hg).elim, fun n hn => ?_, fun _ _ => rfl⟩
  rcases hn with hn | ⟨e, g, -, -, hg⟩
  · cases hn
  · cases hg

theorem deletedWith_cons {g n : Address} {gs : List Address} : DeletedWith h (g :: gs) n ↔
    DeletedWith h gs n ∨ n = g ∨ ∃ e, h.exec? n = some e ∧ e.graph = some g := by
  simp only [DeletedWith, List.mem_cons]
  constructor
  · rintro ((rfl | hn) | ⟨e, g', he, hg', rfl | hmem⟩)
    · exact Or.inr (Or.inl rfl)
    · exact Or.inl (Or.inl hn)
    · exact Or.inr (Or.inr ⟨e, he, hg'⟩)
    · exact Or.inl (Or.inr ⟨e, g', he, hg', hmem⟩)
  · rintro ((hn | ⟨e, g', he, hg', hmem⟩) | rfl | ⟨e, he, hg⟩)
    · exact Or.inl (Or.inr hn)
    · exact Or.inr ⟨e, g', he, hg', Or.inr hmem⟩
    · exact Or.inl (Or.inl rfl)
    · exact Or.inr ⟨e, g, he, hg, Or.inl rfl⟩

/-- A graph is deleted by its own call only. -/
theorem deletedWith_graph {g : Address} {gr : Graph} {gs : List Address}
    (hgr : h.graph? g = some gr) : DeletedWith h gs g ↔ g ∈ gs := by
  refine or_iff_left ?_
  rintro ⟨e, g', he, -⟩
  rw [Heap.exec?_of_graph? hgr] at he
  cases he

namespace Left

variable {gs : List Address} {g : Address} {gr : Graph}

/-- A graph is still there unless it was destroyed. -/
theorem graph?_iff (hL : Left h₀ gs h) :
    h.graph? g = some gr ↔ h₀.graph? g = some gr ∧ g ∉ gs := by
  by_cases hdeleted : DeletedWith h₀ gs g
  · rw [Heap.graph?_of_free (hL.freed g hdeleted)]
    refine iff_of_false (by simp) ?_
    rintro ⟨hgr, hg⟩
    exact hg ((deletedWith_graph hgr).mp hdeleted)
  · rw [Heap.graph?_eq_some, hL.kept g hdeleted, ← Heap.graph?_eq_some]
    exact (and_iff_left fun hg => hdeleted (Or.inl hg)).symm

/-- A task or a state of a graph that was not destroyed is still there. -/
theorem exec?_eq (hL : Left h₀ gs h) {n : Address} {e : ExecNode F} (he : h₀.exec? n = some e)
    (hgraph : e.graph = some g) (hg : g ∉ gs) : h.exec? n = some e := by
  have hkept : ¬ DeletedWith h₀ gs n := by
    rintro (hmem | ⟨e', g', he', hgraph', hmem⟩)
    · obtain ⟨gr, hgr⟩ := hL.graphs n hmem
      rw [Heap.exec?_of_graph? hgr] at he
      cases he
    · obtain rfl := Option.some.inj (he.symm.trans he')
      obtain rfl := Option.some.inj (hgraph.symm.trans hgraph')
      exact hg hmem
  rw [Heap.exec?_eq_some, hL.kept n hkept]
  exact Heap.exec?_eq_some.mp he

/-- **The call for a graph of which no nested graph was destroyed.** -/
theorem destroy (hL : Left h₀ gs h) (hW : WellFormed h₀) (hgr : h₀.graph? g = some gr)
    (hg : g ∉ gs) (hnested : ∀ inner ∈ gs, inner ∉ gr.nodes) :
    ∃ h', tuGraphDestroy h g = some h' ∧ Left h₀ (g :: gs) h' := by
  have hgr' : h.graph? g = some gr := hL.graph?_iff.mpr ⟨hgr, hg⟩
  have hall : ∀ n ∈ gr.nodes, h n ≠ none := by
    intro n hn hfree
    rcases hW.nodes g gr hgr n hn with ⟨e, he, hgraph⟩ | ⟨sub, hsub⟩
    · have he' := hL.exec?_eq he hgraph hg
      rw [Heap.exec?_of_free hfree] at he'
      cases he'
    · have hsub' := hL.graph?_iff.mpr ⟨hsub, fun hmem => hnested n hmem hn⟩
      rw [Heap.graph?_of_free hfree] at hsub'
      cases hsub'
  have hcount : ∀ n e, h.exec? n = some e → gr.nodes.count n ≤ 1 := by
    intro n e he
    by_cases hn : n ∈ gr.nodes
    · rcases hW.nodes g gr hgr n hn with ⟨e', he', -⟩ | ⟨sub, hsub⟩
      · exact hW.count_nodes g gr hgr n e' he'
      · rw [Heap.exec?_of_graph?
          (hL.graph?_iff.mpr ⟨hsub, fun hmem => hnested n hmem hn⟩)] at he
        cases he
    · rw [List.count_eq_zero.mpr hn]
      exact Nat.zero_le 1
  obtain ⟨h', hrun, hspec⟩ := destroyNodes_eq_some hall hcount
  -- the tasks and states of the graph are those created in it
  have hiff : ∀ n, n ∈ gr.nodes ∧ (h.exec? n).isSome ↔
      ∃ e, h₀.exec? n = some e ∧ e.graph = some g := by
    intro n
    constructor
    · rintro ⟨hn, hexec⟩
      rcases hW.nodes g gr hgr n hn with hnode | ⟨sub, hsub⟩
      · exact hnode
      · rw [Heap.exec?_of_graph?
          (hL.graph?_iff.mpr ⟨hsub, fun hmem => hnested n hmem hn⟩)] at hexec
        cases hexec
    · rintro ⟨e, he, hgraph⟩
      obtain ⟨gr', hgr₁, hn⟩ := hW.owner n e g he hgraph
      obtain rfl := Option.some.inj (hgr.symm.trans hgr₁)
      rw [hL.exec?_eq he hgraph hg]
      exact ⟨hn, rfl⟩
  refine ⟨h'.delete g, ?_, ?_, fun n hn => ?_, fun n hn => ?_⟩
  · rw [tuGraphDestroy, hgr', Option.bind_some, hrun, Option.map_some]
  · rintro g' hg'
    rcases List.mem_cons.mp hg' with rfl | hg'
    · exact ⟨gr, hgr⟩
    · exact hL.graphs g' hg'
  · rw [Heap.delete, Function.update_apply]
    split
    · rfl
    · next hne =>
      by_cases hnode : n ∈ gr.nodes ∧ (h.exec? n).isSome
      · exact (hspec n).1 hnode
      · rw [(hspec n).2 hnode]
        rcases deletedWith_cons.mp hn with hn | rfl | hown
        · exact hL.freed n hn
        · exact absurd rfl hne
        · exact absurd ((hiff n).mpr hown) hnode
  · rw [deletedWith_cons, not_or, not_or] at hn
    obtain ⟨hn, hne, hown⟩ := hn
    rw [Heap.delete, Function.update_of_ne hne, (hspec n).2 fun hnode => hown ((hiff n).mp hnode)]
    exact hL.kept n hn

/-- A call that reads no freed memory. -/
theorem of_destroy (hL : Left h₀ gs h) {h' : Heap F} (hrun : tuGraphDestroy h g = some h') :
    ∃ gr, h₀.graph? g = some gr ∧ g ∉ gs ∧ ∀ inner ∈ gs, inner ∉ gr.nodes := by
  obtain ⟨gr, hgr, hmap⟩ := Option.bind_eq_some_iff.mp hrun
  obtain ⟨hgr₀, hg⟩ := hL.graph?_iff.mp hgr
  refine ⟨gr, hgr₀, hg, fun inner hinner hmem => ?_⟩
  rw [destroyNodes_eq_none hmem (hL.freed inner (Or.inl hinner))] at hmap
  cases hmap

/-- The calls for the graphs `gs'`, after those for `gs`. -/
theorem destroyAll_iff (hL : Left h₀ gs h) (hW : WellFormed h₀) (gs' : List Address) :
    (∃ h', destroyAll h gs' = some h') ↔ gs'.Nodup ∧
      (∀ g ∈ gs', (∃ gr, h₀.graph? g = some gr) ∧ g ∉ gs ∧ ∀ inner ∈ gs, ¬ NestedIn h₀ inner g) ∧
      gs'.Pairwise fun first last => ¬ NestedIn h₀ first last := by
  induction gs' generalizing gs h with
  | nil => exact ⟨fun _ => ⟨.nil, fun _ hg => (List.not_mem_nil hg).elim, .nil⟩,
      fun _ => ⟨h, rfl⟩⟩
  | cons g gs' ih =>
    rw [List.nodup_cons, List.forall_mem_cons, List.pairwise_cons]
    constructor
    · rintro ⟨h', hrun⟩
      obtain ⟨h₁, hfirst, hrest⟩ := Option.bind_eq_some_iff.mp hrun
      obtain ⟨gr, hgr, hg, hnested⟩ := hL.of_destroy hfirst
      obtain ⟨h₁', hfirst', hL'⟩ := hL.destroy hW hgr hg hnested
      obtain rfl := Option.some.inj (hfirst.symm.trans hfirst')
      obtain ⟨hnodup, hall, hpair⟩ := (ih hL').mp ⟨h', hrest⟩
      have hnested' : ∀ inner ∈ gs, ¬ NestedIn h₀ inner g := by
        rintro inner hinner ⟨gr', hgr', hmem⟩
        obtain rfl := Option.some.inj (hgr.symm.trans hgr')
        exact hnested inner hinner hmem
      refine ⟨⟨fun hmem => (hall g hmem).2.1 List.mem_cons_self, hnodup⟩,
        ⟨⟨⟨gr, hgr⟩, hg, hnested'⟩, fun g' hg' => ?_⟩, fun g' hg' => ?_, hpair⟩
      · obtain ⟨hgraph, hnot, hinner⟩ := hall g' hg'
        exact ⟨hgraph, fun hmem => hnot (List.mem_cons_of_mem g hmem),
          fun inner hmem => hinner inner (List.mem_cons_of_mem g hmem)⟩
      · exact (hall g' hg').2.2 g List.mem_cons_self
    · rintro ⟨⟨hnot, hnodup⟩, ⟨⟨⟨gr, hgr⟩, hg, hnested⟩, hall⟩, hfirst, hpair⟩
      obtain ⟨h₁, hrun, hL'⟩ := hL.destroy hW hgr hg
        fun inner hinner hmem => hnested inner hinner ⟨gr, hgr, hmem⟩
      have hall' : ∀ g' ∈ gs', (∃ gr, h₀.graph? g' = some gr) ∧ g' ∉ g :: gs ∧
          ∀ inner ∈ g :: gs, ¬ NestedIn h₀ inner g' := by
        intro g' hg'
        obtain ⟨hgraph, hg'gs, hinner⟩ := hall g' hg'
        refine ⟨hgraph, fun hmem => ?_, fun inner hmem => ?_⟩
        · rcases List.mem_cons.mp hmem with rfl | hmem
          · exact hnot hg'
          · exact hg'gs hmem
        · rcases List.mem_cons.mp hmem with rfl | hmem
          · exact hfirst g' hg'
          · exact hinner inner hmem
      obtain ⟨h', hrest⟩ := (ih hL').mpr ⟨hnodup, hall', hpair⟩
      exact ⟨h', by rw [destroyAll, hrun, Option.bind_some, hrest]⟩

/-- What the calls leave. -/
theorem of_destroyAll (hL : Left h₀ gs h) (hW : WellFormed h₀) {gs' : List Address} {h' : Heap F}
    (hrun : destroyAll h gs' = some h') : Left h₀ (gs'.reverse ++ gs) h' := by
  induction gs' generalizing gs h with
  | nil =>
    obtain rfl := Option.some.inj hrun
    exact hL
  | cons g gs' ih =>
    obtain ⟨h₁, hfirst, hrest⟩ := Option.bind_eq_some_iff.mp hrun
    obtain ⟨gr, hgr, hg, hnested⟩ := hL.of_destroy hfirst
    obtain ⟨h₁', hfirst', hL'⟩ := hL.destroy hW hgr hg hnested
    obtain rfl := Option.some.inj (hfirst.symm.trans hfirst')
    have hall := ih hL' hrest
    rwa [List.reverse_cons, List.append_assoc, List.singleton_append]

end Left

/-- **The order of destruction.**  A sequence of calls of `tu_graph_destroy` reads no freed memory
and frees nothing twice if and only if it destroys every graph once at most, and no graph before one
that it is nested in.  It frees these graphs and the tasks and states that were created in them, and
nothing else. -/
theorem destroyAll_safe_iff (hr : (system F).Reachable h) (gs : List Address) :
    ((∃ h', destroyAll h gs = some h') ↔ gs.Nodup ∧ (∀ g ∈ gs, ∃ gr, h.graph? g = some gr) ∧
      gs.Pairwise fun first last => ¬ NestedIn h first last) ∧
    ∀ h', destroyAll h gs = some h' → ∀ n,
      (DeletedWith h gs n → h' n = none) ∧ (¬ DeletedWith h gs n → h' n = h n) := by
  have hW := wellFormed_of_reaches hr
  constructor
  · rw [(left_nil h).destroyAll_iff hW gs]
    refine and_congr_right fun _ => and_congr_left fun _ => forall₂_congr fun g _ => ?_
    exact and_iff_left ⟨List.not_mem_nil, fun _ hinner => (List.not_mem_nil hinner).elim⟩
  · intro h' hrun n
    have hL := (left_nil h).of_destroyAll hW hrun
    have hiff : DeletedWith h (gs.reverse ++ []) n ↔ DeletedWith h gs n := by
      simp only [DeletedWith, List.append_nil, List.mem_reverse]
    exact ⟨fun hn => hL.freed n (hiff.mpr hn), fun hn => hL.kept n fun hdel => hn (hiff.mp hdel)⟩

/-- A graph with a task and a graph nested in it, which has a task as well. -/
def nestedCalls : List (Action Unit) :=
  [⟨.graphCreate 0 .empty .empty, 0⟩, ⟨.graphCreate 1 .empty .empty, 0⟩,
    ⟨.task 2 (some 0) .empty .empty 0 1, 0⟩, ⟨.task 3 (some 1) .empty .empty 0 1, 0⟩,
    ⟨.subGraph 0 1, 0⟩]

def nestedGraphs : Heap Unit := (system Unit).replay .empty nestedCalls

theorem reachable_nestedGraphs : (system Unit).Reachable nestedGraphs :=
  TransitionSystem.Reachable.replay (.start rfl) nestedCalls (by decide)

/-- The outer graph goes first. -/
theorem destroyAll_safe_iff_nested : (∃ h', destroyAll nestedGraphs [0, 1] = some h') ∧
    ¬ ∃ h', destroyAll nestedGraphs [1, 0] = some h' := by
  refine ⟨⟨_, rfl⟩, fun hrun => ?_⟩
  have hpair := ((destroyAll_safe_iff reachable_nestedGraphs [1, 0]).1.mp hrun).2.2
  refine List.rel_of_pairwise_cons hpair List.mem_cons_self ⟨_, rfl, ?_⟩
  exact List.mem_cons_of_mem 2 List.mem_cons_self

end Builder
end Dfg
end ThreadUtils
