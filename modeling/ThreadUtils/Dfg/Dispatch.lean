import ThreadUtils.Dfg.Typing

/-!
# What a worker executes

A worker visits the nodes of its own group only.  What it pops from a queue of a node has the
type of the queue, so that the node has an input for it, as `worker_node_exec` asserts before it
calls the function of the input.
-/

namespace ThreadUtils
namespace Dfg

variable {G N W C V : Type*}

/-- The visit of a worker that passes over the nodes. -/
def WorkerPc.visit? : WorkerPc N V → Option (Visit N)
  | .load v | .fetchAdd v | .dequeue v _ _ | .fetched v _ _ | .exec v _ _ _ | .decrement v => some v
  | _ => none

/-- A visit is to a node of the group. -/
def WorkerPc.AtHome (dfg : Runner G N W) (g : G) (pc : WorkerPc N V) : Prop :=
  ∀ v, pc.visit? = some v → v.node ∈ dfg.nodes g

/-- The node has an input for the datum that it is given. -/
def WorkerPc.Accepted (graph : Graph G N) : WorkerPc N V → Prop
  | .fetched v _ data | .exec v _ data _ => data.type ∈ (graph.node v.node).inputs
  | _ => True

/-- What a worker may execute. -/
structure WorkerPc.Dispatched (dfg : Runner G N W) (g : G) (pc : WorkerPc N V) : Prop where
  atHome : pc.AtHome dfg g
  accepted : pc.Accepted dfg.graph

variable {dfg : Runner G N W} {s s' : State G N W C V} {g : G}

/-- Outside of a visit nothing is executed. -/
theorem WorkerPc.Dispatched.of_visit {pc : WorkerPc N V} (h : pc.visit? = none) :
    pc.Dispatched dfg g := by
  refine ⟨fun v hv => ?_, ?_⟩
  · rw [h] at hv
    cases hv
  · cases pc with
    | fetched v i data => cases h
    | exec v i data e => cases h
    | _ => trivial

theorem dispatched_enter (dfg : Runner G N W) (g : G) (k p : ℕ) :
    (dfg.enter g k p : WorkerPc N V).Dispatched dfg g := by
  unfold Runner.enter
  split
  · next n hn =>
    refine ⟨fun v hv => ?_, trivial⟩
    obtain rfl := Option.some.inj hv
    exact List.mem_of_getElem? hn
  · exact .of_visit rfl

theorem dispatched_next (dfg : Runner G N W) (g : G) (v : Visit N) :
    (dfg.next g v : WorkerPc N V).Dispatched dfg g := by
  unfold Runner.next
  split
  · split
    · exact .of_visit rfl
    · exact dispatched_enter dfg g 0 0
  · exact dispatched_enter dfg g _ _

/-- A move at the same node. -/
theorem WorkerPc.AtHome.stay {pc pc' : WorkerPc N V} (h : pc.AtHome dfg g)
    (hvisit : ∀ v, pc'.visit? = some v → ∃ v', pc.visit? = some v' ∧ v.node = v'.node) :
    pc'.AtHome dfg g := by
  intro v hv
  obtain ⟨v', hv', heq⟩ := hvisit v hv
  rw [heq]
  exact h v' hv'

theorem dispatched_afterExec {v : Visit N} (hv : v.node ∈ dfg.nodes g) (i : ℕ) :
    (dfg.afterExec g v i : WorkerPc N V).Dispatched dfg g := by
  have hvisit : ∀ v' : Visit N, some { v with processCount := v.processCount + 1 } = some v' →
      v'.node ∈ dfg.nodes g := by
    intro v' hv'
    obtain rfl := Option.some.inj hv'
    exact hv
  unfold Runner.afterExec
  split
  · exact ⟨hvisit, trivial⟩
  · split
    · exact ⟨hvisit, trivial⟩
    · exact ⟨hvisit, trivial⟩

theorem LocalMove.dispatched {w : W} {pc pc' : WorkerPc N V} (h : LocalMove dfg s w pc pc')
    (hpc : pc.Dispatched dfg (dfg.group w)) : pc'.Dispatched dfg (dfg.group w) := by
  cases h with
  | terminate hterm => exact .of_visit rfl
  | start hterm => exact dispatched_enter dfg _ 0 0
  | skip v hge => exact dispatched_next dfg _ v
  | returned v i data => exact dispatched_afterExec (hpc.atHome v rfl) i
  | null v i data result todo hnull | unsunk v i data result todo hne hk
  | pushed v i data result nodes todo | released v i data todo =>
    exact ⟨hpc.atHome.stay fun v' hv' => ⟨v', hv', rfl⟩, hpc.accepted⟩
  | _ => exact ⟨hpc.atHome.stay fun v' hv' => ⟨v', hv', rfl⟩, trivial⟩

variable [DecidableEq G] [DecidableEq N] [DecidableEq W] [DecidableEq C] [DecidableEq V]

theorem Effect.dispatched {a : Action W C V} (h : Effect dfg s a s') (hT : Typed dfg.graph s)
    (hD : ∀ w, (s.worker w).Dispatched dfg (dfg.group w)) :
    ∀ w, (s'.worker w).Dispatched dfg (dfg.group w) := by
  have hgoto : ∀ (w : W) (pc : WorkerPc N V), pc.Dispatched dfg (dfg.group w) →
      ∀ w', (Function.update s.worker w pc w').Dispatched dfg (dfg.group w') := fun w pc hpc =>
    forall_update (P := fun w pc => WorkerPc.Dispatched dfg (dfg.group w) pc) hD hpc
  -- the worker stays at the node that it visits
  have hstay : ∀ (w : W) (pc : WorkerPc N V), pc.visit? = (s.worker w).visit? →
      pc.Accepted dfg.graph →
      ∀ w', (Function.update s.worker w pc w').Dispatched dfg (dfg.group w') := by
    intro w pc hvisit haccepted
    refine hgoto w pc ⟨fun v hv => ?_, haccepted⟩
    exact (hD w).atHome v (hvisit ▸ hv)
  have haccepted : ∀ (w : W) v i data e, s.worker w = .exec v i data e →
      data.type ∈ (dfg.graph.node v.node).inputs := by
    intro w v i data e hpc
    have hw := (hD w).accepted
    rw [hpc] at hw
    exact hw
  cases h with
  | move w results pc hmove => exact hgoto w pc (hmove.dispatched (hD w))
  | acquire w results hpc hsem => exact hgoto w _ (.of_visit rfl)
  | enter w results v hpc hlt => exact hstay w _ (by rw [hpc]; rfl) trivial
  | refuse w results v hpc hge => exact hstay w _ (by rw [hpc]; rfl) trivial
  | leave w results v hpc => exact hgoto w _ (dispatched_next dfg _ v)
  | pop w results v i type types data rest hpc hq =>
    obtain ⟨htype, hinput⟩ := hT.queue (v.node, type) data (by rw [hq]; exact List.mem_cons_self)
    refine hstay w _ (by rw [hpc]; rfl) ?_
    show data.type ∈ _
    rw [htype]
    exact hinput
  | exec w results v i data hpc =>
    have hw := (hD w).accepted
    rw [hpc] at hw
    exact hstay w _ (by rw [hpc]; rfl) hw
  | sink w results v i data result todo k hpc hne hk =>
    exact hstay w _ (by rw [hpc]; rfl) (haccepted w v i data _ hpc)
  | notify w results v i data result todo hpc =>
    exact hstay w _ (by rw [hpc]; rfl) (haccepted w v i data _ hpc)
  | push w results v i data result q queues nodes todo hpc =>
    exact hstay w _ (by rw [hpc]; rfl) (haccepted w v i data _ hpc)
  | release w results v i data n nodes todo hpc =>
    exact hstay w _ (by rw [hpc]; rfl) (haccepted w v i data _ hpc)
  | _ => exact hD

/-- **A worker executes nodes of its group**, with data that they have an input for. -/
theorem dispatched_of_reaches {ok : State G N W C V → Action W C V → Prop}
    (hs : (system dfg C V).Reaches ok s) (w : W) :
    (s.worker w).Dispatched dfg (dfg.group w) := by
  refine hs.invariant (I := fun s => ∀ w, (s.worker w).Dispatched dfg (dfg.group w)) ?_
    (fun s a s' hr hD _ h => (effect_of_step h).dispatched (typed_of_reaches hr) hD) w
  rintro s rfl w
  exact .of_visit rfl

end Dfg
end ThreadUtils
