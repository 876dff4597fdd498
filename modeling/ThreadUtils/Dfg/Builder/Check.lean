import ThreadUtils.Dfg.Builder.Registration

/-!
# The check of a graph

`tu_graph_check` looks at all nodes of a graph and of the graphs nested in it.  When it returns
true, every input of these nodes has a function.  What it says about outputs without successors
is only a warning, and left out.

The check goes on after a failure and collects the answers, so its loop is not the one of the other
functions, and true means that all checks have returned true.  It descends into the nested graphs;
where graphs are nested in a circle it does not return, which is why it has a depth and what follows
is stated of a check that returned.
-/

namespace ThreadUtils
namespace Dfg
namespace Builder

variable {F : Type*} {h : Heap F}

/-- The check of the inputs of a node. -/
def ExecNode.inputsSet (e : ExecNode F) : Bool :=
  e.inputs.keys.toList.all fun type => (e.inputs.find? type).any fun input => input.exec.isSome

/-- The loop of `tu_graph_check`, with the recursive call.  It goes on after a failure. -/
def checkNodes (check : Address → Option Bool) (h : Heap F) (ok : Bool) :
    List Address → Option Bool
  | [] => some ok
  | n :: ns =>
      match h n with
      | none => none
      | some (.exec e) => checkNodes check h (ok && e.inputsSet) ns
      | some (.graph _) => (check n).bind fun ok' => checkNodes check h (ok && ok') ns

/-- `tu_graph_check`, with at most `depth` nested calls. -/
def tuGraphCheck : ℕ → Heap F → Address → Option Bool
  | 0, _, _ => none
  | depth + 1, h, graph =>
      (h.graph? graph).bind fun gr => checkNodes (tuGraphCheck depth h) h true gr.nodes

/-- The loop returns true when the checks of all nodes do. -/
theorem of_checkNodes {check : Address → Option Bool} {ok : Bool} {ns : List Address}
    (hrun : checkNodes check h ok ns = some true) :
    ok = true ∧ ∀ n ∈ ns, (∀ e, h.exec? n = some e → e.inputsSet = true) ∧
      ∀ sub, h.graph? n = some sub → check n = some true := by
  induction ns generalizing ok with
  | nil => exact ⟨Option.some.inj hrun, fun n hn => absurd hn List.not_mem_nil⟩
  | cons m ns ih =>
    unfold checkNodes at hrun
    split at hrun
    · cases hrun
    · next e he =>
      obtain ⟨hok, hrest⟩ := ih hrun
      rw [Bool.and_eq_true] at hok
      refine ⟨hok.1, fun n hn => ?_⟩
      rcases List.mem_cons.mp hn with rfl | hn
      · refine ⟨fun e' he' => ?_, fun sub hsub => ?_⟩
        · obtain rfl := Option.some.inj (he'.symm.trans (Heap.exec?_eq_some.mpr he))
          exact hok.2
        · rw [Heap.graph?_of_exec? (Heap.exec?_eq_some.mpr he)] at hsub
          cases hsub
      · exact hrest n hn
    · next gr hgr =>
      obtain ⟨ok', hcall, hloop⟩ := Option.bind_eq_some_iff.mp hrun
      obtain ⟨hok, hrest⟩ := ih hloop
      rw [Bool.and_eq_true] at hok
      refine ⟨hok.1, fun n hn => ?_⟩
      rcases List.mem_cons.mp hn with rfl | hn
      · refine ⟨fun e he => ?_, fun sub hsub => by rw [hcall, hok.2]⟩
        rw [Heap.exec?_of_graph? (Heap.graph?_eq_some.mpr hgr)] at he
        cases he
      · exact hrest n hn

/-- The function that `tu_exec` has set for an input. -/
def HasExec (h : Heap F) (n : Address) (type : TypeId) : Prop :=
  ∃ e f, h.exec? n = some e ∧ e.inputs.find? type = some ⟨some f⟩

theorem hasExec_of_inputsSet {n : Address} {e : ExecNode F} {type : TypeId}
    (he : h.exec? n = some e) (hset : e.inputsSet = true) (htype : type ∈ e.inputs.keys) :
    HasExec h n type := by
  have hany := List.all_eq_true.mp hset type htype
  obtain ⟨⟨exec⟩, hinput, hsome⟩ := (Option.any_eq_true _ _).mp hany
  obtain ⟨f, rfl⟩ := Option.isSome_iff_exists.mp hsome
  exact ⟨e, f, he, hinput⟩

/-- **A checked graph** has a function for each input of its nodes, and of the nodes of the
graphs that are nested in it. -/
theorem hasExec_of_tuGraphCheck {g n : Address} {depth : ℕ}
    (hcheck : tuGraphCheck depth h g = some true) (hn : NodeOf h g n) {type : TypeId}
    (htype : HasInput h type n) : HasExec h n type := by
  obtain ⟨e, he, hkey⟩ := htype
  induction hn generalizing depth with
  | own hgr hmem _ =>
    cases depth with
    | zero => cases hcheck
    | succ depth =>
      rw [tuGraphCheck, hgr] at hcheck
      obtain ⟨hset, -⟩ := (of_checkNodes hcheck).2 _ hmem
      exact hasExec_of_inputsSet he (hset e he) hkey
  | nested hgr hmem hsub _ ih =>
    cases depth with
    | zero => cases hcheck
    | succ depth =>
      rw [tuGraphCheck, hgr] at hcheck
      obtain ⟨-, hcall⟩ := (of_checkNodes hcheck).2 _ hmem
      exact ih (hcall _ hsub) he

end Builder
end Dfg
end ThreadUtils
