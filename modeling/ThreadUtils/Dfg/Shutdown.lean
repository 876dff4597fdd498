import Mathlib.Data.Finset.Prod
import ThreadUtils.Dfg.Dispatch
import ThreadUtils.Transition.Fairness
import ThreadUtils.Transition.Permits

/-!
# Shutdown of the graph runner

`tu_dfg_term` shuts down one group of workers after the other: it stores `can_terminate`,
releases a permit for each worker and joins the workers.  As in the other runners a worker
takes one more permit at most, so that the permits suffice.

## The assertion

A worker that was woken up and whose flag is not set passes over the nodes of its group, and
`worker_process_queues` asserts that there is one.  A permit comes with a datum for a node of the
group, or with the shutdown, when the flags are stored already.  So the semaphore holds a permit
only where one or the other is the case (`Positions.sem`), and no worker runs into the assertion.

## The variant

A worker between two permits passes over the nodes of its group.  A pass ends, and another
one only follows when data were processed.  So when no more results go to nodes, the data
that are left (`State.workLeft`) and the position of a worker in its pass (`Runner.rank`)
bound its steps.

The rank has to know of the pass that is to come.  A worker in the middle of a pass that has
processed something goes back to the first node at its end, so the nodes that it still passes over
are the rest of this list and the whole list once more (`Runner.scanRest`); a datum that it takes
makes this longer, and is paid for by the data that are left.  Workers of other groups may go on
with their own nodes, and their steps are not counted (`Descends`).

* `positions_of_reaches` --- the assertion on the node index never fails.
* `Effect.shutDown` --- every step keeps the permits.
* `isSome_workerStep` --- a worker of the group that has not exited can make a step.
* `Effect.descends` --- the variant.
* `shutsDown_of_released` --- all joins return, in every fair run without new data.
-/

namespace ThreadUtils
namespace Dfg

variable {G N W C V : Type*}

/-! ## The permits -/

/-- The worker will call `sem.acquire()` again, once its flag is set. -/
def WorkerPc.owesPermit : WorkerPc N V → Bool
  | .checkTerminate | .exited => false
  | _ => true

/-- The group was shut down: its flags are stored and there is a permit for each of its
workers that has yet to return from an acquire. -/
structure ShutDown (dfg : Runner G N W) (g : G) (s : State G N W C V) : Prop where
  canTerminate : ∀ w, dfg.group w = g → s.canTerminate w = true
  permits : owing WorkerPc.owesPermit (dfg.workers g) s.worker ≤ s.sem g

/-- What `tu_dfg_term` has stored on its way. -/
def ClientPc.Stored (dfg : Runner G N W) (canTerminate : W → Bool) : ClientPc G N W V → Prop
  | .termStore rest g _ => ∀ w, dfg.group w = g → w ∈ rest ∨ canTerminate w = true
  | .termRelease g _ => ∀ w, dfg.group w = g → canTerminate w = true
  | _ => True

/-- No assertion has failed, and a visit is to a node of the group. -/
def WorkerPc.InRange (dfg : Runner G N W) (g : G) (pc : WorkerPc N V) : Prop :=
  pc ≠ .abort ∧ ∀ v, pc.visit? = some v → v.nodeIdx < (dfg.nodes g).length

/-- No worker runs into the assertion on `node_idx`. -/
structure Positions (dfg : Runner G N W) (s : State G N W C V) : Prop where
  inRange : ∀ w, (s.worker w).InRange dfg (dfg.group w)
  /-- A worker that goes on has a node to visit. -/
  checkTerminate : ∀ w, s.worker w = .checkTerminate →
    dfg.nodes (dfg.group w) ≠ [] ∨ s.canTerminate w = true
  sem : ∀ g, 0 < s.sem g → dfg.nodes g ≠ [] ∨ ∀ w, dfg.group w = g → s.canTerminate w = true

variable {dfg : Runner G N W} {s s' : State G N W C V} {g : G}

theorem ClientPc.Stored.mono {canTerminate canTerminate' : W → Bool} {pc : ClientPc G N W V}
    (h : pc.Stored dfg canTerminate)
    (hmono : ∀ w, canTerminate w = true → canTerminate' w = true) :
    pc.Stored dfg canTerminate' := by
  cases pc with
  | termStore rest g groups => exact fun w hw => (h w hw).imp_right (hmono w)
  | termRelease g groups => exact fun w hw => hmono w (h w hw)
  | _ => trivial

theorem stored_pushNext (data : GraphData V) (rest : List N) (canTerminate : W → Bool) :
    (pushNext data rest : ClientPc G N W V).Stored dfg canTerminate := by
  cases rest <;> trivial

theorem stored_termNext (groups : List G) (canTerminate : W → Bool) :
    (dfg.termNext groups : ClientPc G N W V).Stored dfg canTerminate := by
  cases groups with
  | nil => trivial
  | cons g groups => exact fun w hw => Or.inl ((dfg.mem_workers g w).mpr hw)

theorem ne_checkTerminate_enter (dfg : Runner G N W) (g : G) (k p : ℕ) :
    (dfg.enter g k p : WorkerPc N V) ≠ .checkTerminate := by
  unfold Runner.enter
  split <;> simp

theorem ne_checkTerminate_next (dfg : Runner G N W) (g : G) (v : Visit N) :
    (dfg.next g v : WorkerPc N V) ≠ .checkTerminate := by
  unfold Runner.next
  split
  · split
    · simp
    · exact ne_checkTerminate_enter dfg g 0 0
  · exact ne_checkTerminate_enter dfg g _ _

theorem inRange_enter {k : ℕ} (p : ℕ) (hk : k < (dfg.nodes g).length) :
    (dfg.enter g k p : WorkerPc N V).InRange dfg g := by
  rw [Runner.enter, List.getElem?_eq_getElem hk]
  refine ⟨by simp, fun v hv => ?_⟩
  obtain rfl := Option.some.inj hv
  exact hk

theorem inRange_next {v : Visit N} (hv : v.nodeIdx < (dfg.nodes g).length) :
    (dfg.next g v : WorkerPc N V).InRange dfg g := by
  unfold Runner.next
  split
  · split
    · exact ⟨by simp, fun v hv => (by cases hv)⟩
    · exact inRange_enter 0 (by omega)
  · exact inRange_enter _ (by omega)

theorem visit_afterExec (dfg : Runner G N W) (g : G) (v : Visit N) (i : ℕ) :
    (dfg.afterExec g v i : WorkerPc N V) ≠ .abort ∧
      (dfg.afterExec g v i : WorkerPc N V).visit? =
        some { v with processCount := v.processCount + 1 } := by
  unfold Runner.afterExec
  split
  · exact ⟨by simp [Runner.beginDequeue], rfl⟩
  · split
    · exact ⟨by simp [Runner.beginDequeue], rfl⟩
    · exact ⟨by simp, rfl⟩

/-- A move at the same node. -/
theorem WorkerPc.InRange.stay {pc pc' : WorkerPc N V} (h : pc.InRange dfg g) (hpc' : pc' ≠ .abort)
    (hvisit : ∀ v, pc'.visit? = some v →
      ∃ v', pc.visit? = some v' ∧ v.nodeIdx = v'.nodeIdx) : pc'.InRange dfg g := by
  refine ⟨hpc', fun v hv => ?_⟩
  obtain ⟨v', hv', heq⟩ := hvisit v hv
  rw [heq]
  exact h.2 v' hv'

theorem LocalMove.inRange {w : W} {pc pc' : WorkerPc N V} (h : LocalMove dfg s w pc pc')
    (hpc : pc.InRange dfg (dfg.group w))
    (hcheck : pc = .checkTerminate → dfg.nodes (dfg.group w) ≠ [] ∨ s.canTerminate w = true) :
    pc'.InRange dfg (dfg.group w) := by
  cases h with
  | terminate hterm => exact ⟨by simp, fun v hv => (by cases hv)⟩
  | start hterm =>
    have hne := (hcheck rfl).resolve_right hterm
    exact inRange_enter 0 (List.length_pos_iff.mpr hne)
  | skip v hge => exact inRange_next (hpc.2 v rfl)
  | returned v i data =>
    obtain ⟨hne, hvisit⟩ := visit_afterExec (V := V) dfg (dfg.group w) v i
    refine hpc.stay hne fun v' hv' => ⟨v, rfl, ?_⟩
    rw [hvisit] at hv'
    rw [← Option.some.inj hv']
  | _ => exact hpc.stay (by simp) fun v' hv' => ⟨_, rfl, by rw [← Option.some.inj hv']⟩

theorem LocalMove.ne_checkTerminate {w : W} {pc pc' : WorkerPc N V}
    (h : LocalMove dfg s w pc pc') : pc' ≠ .checkTerminate := by
  cases h with
  | start hterm => exact ne_checkTerminate_enter dfg _ 0 0
  | skip v hge => exact ne_checkTerminate_next dfg _ v
  | returned v i data =>
    intro heq
    have hvisit := (visit_afterExec (V := V) dfg (dfg.group w) v i).2
    rw [heq] at hvisit
    cases hvisit
  | _ => simp

theorem LocalMove.owesPermit {w : W} {pc pc' : WorkerPc N V} (h : LocalMove dfg s w pc pc')
    (hflag : s.canTerminate w = true) (howes : pc'.owesPermit = true) : pc.owesPermit = true := by
  cases h with
  | terminate hterm => cases howes
  | start hterm => exact absurd hflag hterm
  | _ => rfl

variable [DecidableEq G] [DecidableEq N] [DecidableEq W] [DecidableEq C] [DecidableEq V]

theorem Effect.canTerminate_mono {a : Action W C V} (h : Effect dfg s a s') {w : W}
    (hw : s.canTerminate w = true) : s'.canTerminate w = true := by
  cases h with
  | termStore c v rest g groups hpc =>
    show Function.update s.canTerminate v true w = true
    by_cases hwv : w = v
    · rw [hwv, Function.update_self]
    · rwa [Function.update_of_ne hwv]
  | _ => exact hw

/-- `can_terminate` is stored in the order of the calls. -/
theorem Effect.stored {a : Action W C V} (h : Effect dfg s a s')
    (hS : ∀ c, (s.client c).Stored dfg s.canTerminate) :
    ∀ c, (s'.client c).Stored dfg s'.canTerminate := by
  have hupdate : ∀ c (p : ClientPc G N W V), p.Stored dfg s.canTerminate →
      ∀ d, (Function.update s.client c p d).Stored dfg s.canTerminate := fun c p hp =>
    forall_update (P := fun _ (q : ClientPc G N W V) => q.Stored dfg s.canTerminate) hS hp
  cases h with
  | receive c data hpc => exact hupdate c _ (stored_pushNext _ _ _)
  | enqueue c data n rest hpc => exact hupdate c (.release data n rest) trivial
  | clientRelease c data n rest hpc => exact hupdate c _ (stored_pushNext _ _ _)
  | take c result rest hpc hq => exact hupdate c (.waitReturn result) trivial
  | termRelease c g groups hpc => exact hupdate c (.termJoin (dfg.workers g) groups) trivial
  | notify w results v i data result todo hpc =>
    intro c
    show (if s.client c = .blocked then .relock else s.client c : ClientPc G N W V).Stored dfg _
    split
    · trivial
    · exact hS c
  | termStore c w rest g groups hpc =>
    have heff : Effect dfg s (.client c) { s.clientGoto c (.termStore rest g groups) with
        canTerminate := Function.update s.canTerminate w true } :=
      .termStore c w rest g groups hpc
    have hstored := hS c
    rw [hpc] at hstored
    refine forall_update (P := fun _ (q : ClientPc G N W V) =>
      q.Stored dfg (Function.update s.canTerminate w true))
      (fun d => (hS d).mono fun v hv => heff.canTerminate_mono hv) fun v hv => ?_
    by_cases hvw : v = w
    · rw [hvw, Function.update_self]
      exact Or.inr rfl
    · rw [Function.update_of_ne hvw]
      exact (hstored v hv).imp_left fun hmem => (List.mem_cons.mp hmem).resolve_left hvw
  | client c a pc m hmove =>
    refine hupdate c pc ?_
    have hstored := hS c
    cases hmove with
    | term hc => exact stored_termNext _ _
    | joined groups hc => exact stored_termNext _ _
    | stored g groups hc =>
      rw [hc] at hstored
      exact fun w hw => (hstored w hw).resolve_left List.not_mem_nil
    | _ => trivial
  | _ => exact hS

theorem stored_of_reaches {ok : State G N W C V → Action W C V → Prop}
    (hs : (system dfg C V).Reaches ok s) : ∀ c, (s.client c).Stored dfg s.canTerminate := by
  refine hs.invariant (I := fun s => ∀ c, (s.client c).Stored dfg s.canTerminate) ?_
    fun s a s' _ hS _ h => (effect_of_step h).stored hS
  rintro s rfl c
  trivial

/-! ## The assertion on the node index -/

omit [DecidableEq G] [DecidableEq N] [DecidableEq C] [DecidableEq V] in
/-- A worker makes a step. -/
theorem Positions.worker (hP : Positions dfg s) {w : W} {pc : WorkerPc N V}
    (hworker : s'.worker = Function.update s.worker w pc)
    (hflags : s'.canTerminate = s.canTerminate)
    (hpc : pc.InRange dfg (dfg.group w))
    (hcheck : pc = .checkTerminate → dfg.nodes (dfg.group w) ≠ [] ∨ s.canTerminate w = true)
    (hsem : ∀ g, 0 < s'.sem g → 0 < s.sem g ∨ dfg.nodes g ≠ []) : Positions dfg s' := by
  refine ⟨?_, ?_, fun g hg => ?_⟩
  · rw [hworker]
    exact forall_update (P := fun v pc => WorkerPc.InRange dfg (dfg.group v) pc) hP.inRange hpc
  · rw [hworker, hflags]
    exact forall_update (P := fun v (pc : WorkerPc N V) => pc = .checkTerminate →
      dfg.nodes (dfg.group v) ≠ [] ∨ s.canTerminate v = true) hP.checkTerminate hcheck
  · rw [hflags]
    exact (hsem g hg).elim (hP.sem g) Or.inl

omit [DecidableEq G] [DecidableEq N] [DecidableEq W] [DecidableEq C] [DecidableEq V] in
/-- A client makes a step. -/
theorem Positions.client (hP : Positions dfg s) (hworker : s'.worker = s.worker)
    (hflags : ∀ w, s.canTerminate w = true → s'.canTerminate w = true)
    (hsem : ∀ g, 0 < s'.sem g → 0 < s.sem g ∨ dfg.nodes g ≠ [] ∨
      ∀ w, dfg.group w = g → s.canTerminate w = true) : Positions dfg s' := by
  refine ⟨?_, ?_, fun g hg => ?_⟩
  · rw [hworker]
    exact hP.inRange
  · rw [hworker]
    exact fun w hw => (hP.checkTerminate w hw).imp_right (hflags w)
  · have hall : dfg.nodes g ≠ [] ∨ ∀ w, dfg.group w = g → s.canTerminate w = true :=
      (hsem g hg).elim (hP.sem g) id
    exact hall.imp_right fun hall w hw => hflags w (hall w hw)

theorem Effect.positions {a : Action W C V} (h : Effect dfg s a s') (hP : Positions dfg s)
    (hS : ∀ c, (s.client c).Stored dfg s.canTerminate)
    (hnodes : ∀ n, dfg.nodes (dfg.graph.node n).group ≠ []) : Positions dfg s' := by
  have hrelease : ∀ n g, 0 < Function.update s.sem (dfg.graph.node n).group
      (s.sem (dfg.graph.node n).group + 1) g → 0 < s.sem g ∨ dfg.nodes g ≠ [] := by
    intro n g hg
    by_cases hgn : g = (dfg.graph.node n).group
    · rw [hgn]
      exact Or.inr (hnodes n)
    · rw [Function.update_of_ne hgn] at hg
      exact Or.inl hg
  -- a step of a worker at the node of its visit
  have hstay : ∀ (t : State G N W C V) (w : W) (v v' : Visit N) (pc : WorkerPc N V),
      t.worker = Function.update s.worker w pc → t.canTerminate = s.canTerminate →
      (s.worker w).visit? = some v → pc ≠ .abort → pc.visit? = some v' →
      v'.nodeIdx = v.nodeIdx → (∀ g, 0 < t.sem g → 0 < s.sem g ∨ dfg.nodes g ≠ []) →
      Positions dfg t := by
    intro t w v v' pc hworker hflags hold hne hnew hidx hsem
    refine hP.worker hworker hflags ((hP.inRange w).stay hne fun u hu => ⟨v, hold, ?_⟩)
      (fun hcheck => ?_) hsem
    · rw [← hidx, Option.some.inj (hu.symm.trans hnew)]
    · rw [hcheck] at hnew
      cases hnew
  cases h with
  | move w results pc hmove =>
    exact hP.worker (w := w) rfl rfl (hmove.inRange (hP.inRange w) (hP.checkTerminate w))
      (fun heq => absurd heq hmove.ne_checkTerminate) fun _ => Or.inl
  | acquire w results hpc hsem =>
    have hpc : (WorkerPc.checkTerminate : WorkerPc N V).InRange dfg (dfg.group w) :=
      ⟨by simp, nofun⟩
    refine hP.worker (w := w) rfl rfl hpc
      (fun _ => (hP.sem _ hsem).imp_right fun hall => hall w rfl) fun g hg => ?_
    have hg : 0 < Function.update s.sem (dfg.group w) (s.sem (dfg.group w) - 1) g := hg
    by_cases hgw : g = dfg.group w
    · rw [hgw]
      exact Or.inl hsem
    · rw [Function.update_of_ne hgw] at hg
      exact Or.inl hg
  | enter w results v hpc hlt =>
    exact hstay _ w v v (dfg.beginDequeue v 0) rfl rfl (by rw [hpc]; rfl) nofun rfl rfl
      fun _ => Or.inl
  | refuse w results v hpc hge =>
    exact hstay _ w v v (.decrement v) rfl rfl (by rw [hpc]; rfl) nofun rfl rfl fun _ => Or.inl
  | leave w results v hpc =>
    have hrange := hP.inRange w
    rw [hpc] at hrange
    exact hP.worker (w := w) rfl rfl (inRange_next (hrange.2 v rfl))
      (fun heq => absurd heq (ne_checkTerminate_next dfg _ v)) fun _ => Or.inl
  | pop w results v i type types data rest hpc hq =>
    exact hstay _ w v v (.fetched v i data) rfl rfl (by rw [hpc]; rfl) nofun rfl rfl
      fun _ => Or.inl
  | exec w results v i data hpc =>
    exact hstay _ w v v (.exec v i data (.run results)) rfl rfl (by rw [hpc]; rfl) nofun rfl rfl
      fun _ => Or.inl
  | sink w results v i data result todo k hpc hne hk =>
    exact hstay _ w v v (.exec v i data (.notify result todo)) rfl rfl (by rw [hpc]; rfl) nofun
      rfl rfl fun _ => Or.inl
  | notify w results v i data result todo hpc =>
    exact hstay _ w v v (.exec v i data (dfg.graph.afterSink v.node result todo)) rfl rfl
      (by rw [hpc]; rfl) nofun rfl rfl fun _ => Or.inl
  | push w results v i data result q queues nodes todo hpc =>
    exact hstay _ w v v (.exec v i data (.push result queues nodes todo)) rfl rfl
      (by rw [hpc]; rfl) nofun rfl rfl fun _ => Or.inl
  | release w results v i data n nodes todo hpc =>
    exact hstay _ w v v (.exec v i data (.release nodes todo)) rfl rfl (by rw [hpc]; rfl) nofun
      rfl rfl (hrelease n)
  | clientRelease c data n rest hpc =>
    exact hP.client rfl (fun _ => id) fun g hg => (hrelease n g hg).imp_right Or.inl
  | termStore c w rest g groups hpc =>
    have heff : Effect dfg s (.client c) { s.clientGoto c (.termStore rest g groups) with
        canTerminate := Function.update s.canTerminate w true } :=
      .termStore c w rest g groups hpc
    exact hP.client rfl (fun v hv => heff.canTerminate_mono hv) fun _ => Or.inl
  | termRelease c g groups hpc =>
    have hstored := hS c
    rw [hpc] at hstored
    refine hP.client rfl (fun _ => id) fun g' hg' => ?_
    have hg' : 0 < Function.update s.sem g (s.sem g + (dfg.workers g).length) g' := hg'
    by_cases hgg : g' = g
    · rw [hgg]
      exact Or.inr (Or.inr hstored)
    · rw [Function.update_of_ne hgg] at hg'
      exact Or.inl hg'
  | receive | enqueue | take | client => exact hP.client rfl (fun _ => id) fun _ => Or.inl

theorem positions_of_reaches {ok : State G N W C V → Action W C V → Prop}
    (hnodes : ∀ n, dfg.nodes (dfg.graph.node n).group ≠ [])
    (hs : (system dfg C V).Reaches ok s) : Positions dfg s := by
  induction hs with
  | start hinit =>
    obtain rfl := hinit
    exact ⟨fun _ => ⟨by simp [initial], nofun⟩, fun _ hw => (by cases hw),
      fun _ hg => absurd hg (lt_irrefl 0)⟩
  | next hs _ hstep hP =>
    exact (effect_of_step hstep).positions hP (stored_of_reaches hs) hnodes

/-! ## The permits suffice -/

/-- **Every step keeps the permits.** -/
theorem Effect.shutDown {a : Action W C V} (h : Effect dfg s a s') (hD : ShutDown dfg g s) :
    ShutDown dfg g s' := by
  refine ⟨fun w hw => h.canTerminate_mono (hD.canTerminate w hw), ?_⟩
  have hmove : ∀ w pc, (dfg.group w = g → pc.owesPermit = true → (s.worker w).owesPermit = true) →
      owing WorkerPc.owesPermit (dfg.workers g) (Function.update s.worker w pc) ≤ s.sem g :=
    fun w pc howes =>
      (owing_update_le fun hw => howes ((dfg.mem_workers g w).mp hw)).trans hD.permits
  have hrelease : ∀ n, s.sem g ≤ Function.update s.sem (dfg.graph.node n).group
      (s.sem (dfg.graph.node n).group + 1) g := fun n => le_update_add _ _ _ g
  cases h with
  | move w results pc hlocal =>
    exact hmove w pc fun hw => hlocal.owesPermit (hD.canTerminate w hw)
  | acquire w results hpc hsem =>
    by_cases hw : dfg.group w = g
    · subst hw
      have hlt : owing WorkerPc.owesPermit (dfg.workers (dfg.group w))
          (Function.update s.worker w .checkTerminate) <
            owing WorkerPc.owesPermit (dfg.workers (dfg.group w)) s.worker :=
        owing_update_lt ((dfg.mem_workers _ _).mpr rfl) (by rw [hpc]; rfl) rfl
      have hpermits := hD.permits
      show owing WorkerPc.owesPermit _ (Function.update s.worker w .checkTerminate) ≤
        Function.update s.sem (dfg.group w) (s.sem (dfg.group w) - 1) (dfg.group w)
      rw [Function.update_self]
      omega
    · refine (hmove w .checkTerminate fun heq => absurd heq hw).trans ?_
      show s.sem g ≤ Function.update s.sem (dfg.group w) _ g
      rw [Function.update_of_ne (Ne.symm hw)]
  | release w results v i data n nodes todo hpc =>
    exact (hmove w _ fun _ _ => by rw [hpc]; rfl).trans (hrelease n)
  | clientRelease c data n rest hpc => exact hD.permits.trans (hrelease n)
  | termRelease c g' groups hpc => exact hD.permits.trans (le_update_add _ _ _ g)
  | enter w results v hpc | refuse w results v hpc | leave w results v hpc
  | pop w results v i type types data rest hpc | exec w results v i data hpc
  | sink w results v i data result todo k hpc | notify w results v i data result todo hpc
  | push w results v i data result q queues nodes todo hpc =>
    exact hmove w _ fun _ _ => by rw [hpc]; rfl
  | receive | enqueue | take | termStore | client => exact hD.permits

omit [DecidableEq C] in
/-- A worker of the group that has not exited makes a step. -/
theorem isSome_workerStep (hD : ShutDown dfg g s) {w : W} (hg : dfg.group w = g)
    (hw : s.worker w ≠ .exited) (hassert : s.worker w ≠ .abort) (results : List (GraphData V)) :
    (s.workerStep dfg w results).isSome := by
  subst hg
  unfold State.workerStep
  cases hpc : s.worker w with
  | acquire =>
    have hpos : 0 < s.sem (dfg.group w) :=
      (owing_pos ((dfg.mem_workers _ w).mpr rfl) (by rw [hpc]; rfl)).trans_le hD.permits
    simp [hpos]
  | dequeue v i types =>
    cases types with
    | nil => rfl
    | cons type types =>
      dsimp only
      split <;> rfl
  | exited => exact absurd hpc hw
  | abort => exact absurd hpc hassert
  | _ => rfl

/-! ## The work that is left -/

/-- The accesses that the rest of an execution makes: a call of `tu_result` writes to the sink
and to each queue of the output. -/
def Graph.resultSteps (graph : Graph G N) (n : N) (result : GraphData V) : ℕ :=
  match (graph.node n).outputs result.type with
  | some output => output.queues.length + output.nodes.length + 5
  | none => 5

def ExecPc.steps (graph : Graph G N) (n : N) : ExecPc N V → ℕ
  | .run todo => (todo.map (graph.resultSteps n)).sum + 1
  | .notify result todo => (todo.map (graph.resultSteps n)).sum + graph.resultSteps n result
  | .push _ queues nodes todo =>
      (todo.map (graph.resultSteps n)).sum + queues.length + nodes.length + 3
  | .release nodes todo => (todo.map (graph.resultSteps n)).sum + nodes.length + 2

omit [DecidableEq G] [DecidableEq N] [DecidableEq V] in
theorem steps_afterSink (graph : Graph G N) (n : N) (result : GraphData V)
    (todo : List (GraphData V)) : (graph.afterSink n result todo).steps graph n <
      (todo.map (graph.resultSteps n)).sum + graph.resultSteps n result := by
  rw [Graph.afterSink, Graph.resultSteps]
  cases hout : (graph.node n).outputs result.type with
  | some output =>
    dsimp only [ExecPc.steps]
    omega
  | none =>
    dsimp only [ExecPc.steps]
    omega

section Rank

variable [Fintype N]

/-- The loop over the inputs of a node makes at most that many iterations. -/
def Graph.inputCount (graph : Graph G N) : ℕ :=
  ∑ n, (graph.node n).inputs.length

/-- The nodes that a worker passes over after its visit `v`, when it processes nothing more:
the rest of this pass, and another one if this pass has processed data. -/
def Runner.scanRest (dfg : Runner G N W) (g : G) (v : Visit N) : ℕ :=
  ((dfg.nodes g).length - (v.nodeIdx + 1)) * (dfg.graph.inputCount + 4) +
    if v.processCount = 0 then 0 else (dfg.nodes g).length * (dfg.graph.inputCount + 4)

/-- A bound on the steps of a worker that finds no more data. -/
def Runner.rank (dfg : Runner G N W) (g : G) : WorkerPc N V → ℕ
  | .exited | .abort => 0
  | .checkTerminate => 1
  | .acquire => 2
  | .fetched _ _ _ => 3
  | .decrement v => dfg.scanRest g v + 3
  | .dequeue v _ types => dfg.scanRest g v + types.length + 4
  | .fetchAdd v => dfg.scanRest g v + dfg.graph.inputCount + 5
  | .load v => dfg.scanRest g v + dfg.graph.inputCount + 6
  | .exec v _ _ e =>
      dfg.scanRest g { v with processCount := v.processCount + 1 } + dfg.graph.inputCount +
        e.steps dfg.graph v.node + 5

omit [DecidableEq G] [DecidableEq N] in
theorem inputs_length_le (graph : Graph G N) (n : N) :
    (graph.node n).inputs.length ≤ graph.inputCount :=
  le_sum_apply (fun n => (graph.node n).inputs.length) n

omit [DecidableEq G] [DecidableEq N] [DecidableEq W] [DecidableEq V] in
theorem rank_next (dfg : Runner G N W) (g : G) (v : Visit N) :
    dfg.rank g (dfg.next g v : WorkerPc N V) ≤ dfg.scanRest g v + 2 := by
  have henter : ∀ k p, k < (dfg.nodes g).length →
      dfg.rank g (dfg.enter g k p : WorkerPc N V) =
        ((dfg.nodes g).length - k) * (dfg.graph.inputCount + 4) +
          (if p = 0 then 0 else (dfg.nodes g).length * (dfg.graph.inputCount + 4)) + 2 := by
    intro k p hk
    obtain ⟨j, hj⟩ : ∃ j, (dfg.nodes g).length = k + 1 + j := ⟨_, (Nat.add_sub_of_le hk).symm⟩
    rw [Runner.enter, List.getElem?_eq_getElem hk]
    dsimp only [Runner.rank, Runner.scanRest]
    rw [hj, show k + 1 + j - (k + 1) = j by omega, show k + 1 + j - k = j + 1 by omega,
      Nat.add_mul j 1]
    omega
  have habort : ∀ k p, ¬ k < (dfg.nodes g).length →
      dfg.rank g (dfg.enter g k p : WorkerPc N V) = 0 := by
    intro k p hk
    rw [Runner.enter, List.getElem?_eq_none (not_lt.mp hk)]
    rfl
  unfold Runner.next
  split
  · next hlast =>
    split
    · exact Nat.le_add_left _ _
    · next hp =>
      by_cases hpos : 0 < (dfg.nodes g).length
      · rw [henter 0 0 hpos, Runner.scanRest, if_neg hp, if_pos rfl]
        exact Nat.add_le_add_right (Nat.le_add_left _ _) 2
      · rw [habort 0 0 hpos]
        exact Nat.zero_le _
  · next hlast =>
    rw [henter _ _ (not_le.mp hlast), Runner.scanRest]

omit [DecidableEq G] [DecidableEq N] [DecidableEq W] [DecidableEq V] in
theorem rank_afterExec (dfg : Runner G N W) (g g' : G) (v : Visit N) (i : ℕ) :
    dfg.rank g (dfg.afterExec g' v i : WorkerPc N V) ≤
      dfg.scanRest g { v with processCount := v.processCount + 1 } + dfg.graph.inputCount + 4 := by
  have hinputs := inputs_length_le dfg.graph v.node
  unfold Runner.afterExec
  split
  · dsimp only [Runner.beginDequeue, Runner.rank]
    omega
  · split
    · dsimp only [Runner.beginDequeue, Runner.rank]
      omega
    · dsimp only [Runner.rank]
      omega

omit [DecidableEq G] [DecidableEq N] [DecidableEq W] [DecidableEq C] [DecidableEq V] in
theorem LocalMove.rank_lt {w : W} {pc pc' : WorkerPc N V} (h : LocalMove dfg s w pc pc')
    (hflag : s.canTerminate w = true) :
    dfg.rank (dfg.group w) pc' < dfg.rank (dfg.group w) pc := by
  cases h with
  | terminate hterm => exact Nat.lt_succ_self 0
  | start hterm => exact absurd hflag hterm
  | below v hlt =>
    dsimp only [Runner.rank]
    omega
  | skip v hge =>
    refine (rank_next dfg (dfg.group w) v).trans_lt ?_
    dsimp only [Runner.rank]
    omega
  | miss v i type types hq =>
    dsimp only [Runner.rank, List.length_cons]
    omega
  | drained v i =>
    dsimp only [Runner.rank, List.length_nil]
    omega
  | returned v i data =>
    refine (rank_afterExec dfg (dfg.group w) (dfg.group w) v i).trans_lt ?_
    dsimp only [Runner.rank, ExecPc.steps]
    omega
  | null v i data result todo hnull =>
    have hpos : 5 ≤ dfg.graph.resultSteps v.node result := by
      unfold Graph.resultSteps
      split <;> omega
    dsimp only [Runner.rank, ExecPc.steps]
    rw [List.map_cons, List.sum_cons]
    omega
  | unsunk v i data result todo hne hk =>
    have hafter := steps_afterSink dfg.graph v.node result todo
    show _ + _ + (dfg.graph.afterSink v.node result todo).steps dfg.graph v.node + 5 <
      _ + _ + (((result :: todo).map (dfg.graph.resultSteps v.node)).sum + 1) + 5
    rw [List.map_cons, List.sum_cons]
    omega
  | pushed v i data result nodes todo =>
    dsimp only [Runner.rank, ExecPc.steps, List.length_nil]
    omega
  | released v i data todo =>
    dsimp only [Runner.rank, ExecPc.steps, List.length_nil]
    omega

variable [Fintype W]

/-- The queues of the inputs of the nodes. -/
def Graph.slots (graph : Graph G N) : Finset (NodeQueue N) :=
  Finset.univ.biUnion fun n => (graph.node n).inputs.toFinset.image fun type => (n, type)

omit [DecidableEq G] in
theorem mem_slots {graph : Graph G N} {n : N} {type : TypeId}
    (h : type ∈ (graph.node n).inputs) : (n, type) ∈ graph.slots :=
  Finset.mem_biUnion.mpr ⟨n, Finset.mem_univ n,
    Finset.mem_image_of_mem _ (List.mem_toFinset.mpr h)⟩

/-- The datum that was taken and whose execution has not begun. -/
def WorkerPc.taken : WorkerPc N V → ℕ
  | .fetched _ _ _ => 1
  | _ => 0

/-- The data that are left. -/
def State.workLeft (dfg : Runner G N W) (s : State G N W C V) : ℕ :=
  ∑ q ∈ dfg.graph.slots, (s.queue q).length + ∑ w, (s.worker w).taken

/-- The ranks of the workers of the group. -/
def State.ranks (dfg : Runner G N W) (g : G) (s : State G N W C V) : ℕ :=
  ∑ w, if dfg.group w = g then dfg.rank g (s.worker w) else 0

/-- A step takes a datum, leads a worker of the group on, or is not one of its workers. -/
def Descends (dfg : Runner G N W) (g : G) (s : State G N W C V) (a : Action W C V)
    (s' : State G N W C V) : Prop :=
  s'.workLeft dfg < s.workLeft dfg ∨ s'.workLeft dfg ≤ s.workLeft dfg ∧
    (s'.ranks dfg g < s.ranks dfg g ∨ s'.ranks dfg g = s.ranks dfg g ∧
      ∀ w results, a = .worker w results → dfg.group w ≠ g)

omit [DecidableEq N] [DecidableEq C] [DecidableEq V] in
theorem ranks_of_worker {w : W} (pc : WorkerPc N V) (results : List (GraphData V))
    (hworker : s'.worker = Function.update s.worker w pc)
    (hrank : dfg.group w = g → dfg.rank g pc < dfg.rank g (s.worker w)) :
    s'.ranks dfg g < s.ranks dfg g ∨ s'.ranks dfg g = s.ranks dfg g ∧
      ∀ v (results' : List (GraphData V)),
        (Action.worker w results : Action W C V) = .worker v results' → dfg.group v ≠ g := by
  have hsum := sum_update_exchange_index
    (fun v (pc : WorkerPc N V) => if dfg.group v = g then dfg.rank g pc else 0) s.worker w pc
  rw [State.ranks, State.ranks, hworker]
  by_cases hg : dfg.group w = g
  · have hlt := hrank hg
    rw [if_pos hg, if_pos hg] at hsum
    exact Or.inl (by omega)
  · rw [if_neg hg, if_neg hg] at hsum
    refine Or.inr ⟨by omega, fun v results' ha => ?_⟩
    injection ha with hwv
    rwa [← hwv]

omit [DecidableEq C] [DecidableEq V] in
/-- A step of a worker that takes no datum. -/
theorem descends_of_worker {w : W} (pc : WorkerPc N V) (results : List (GraphData V))
    (hworker : s'.worker = Function.update s.worker w pc) (hqueue : s'.queue = s.queue)
    (htaken : pc.taken ≤ (s.worker w).taken)
    (hrank : dfg.group w = g → dfg.rank g pc < dfg.rank g (s.worker w)) :
    Descends dfg g s (.worker w results) s' := by
  refine Or.inr ⟨?_, ranks_of_worker pc results hworker hrank⟩
  have hsum := sum_update_exchange WorkerPc.taken s.worker w pc
  rw [State.workLeft, State.workLeft, hqueue, hworker]
  omega

omit [DecidableEq W] [DecidableEq C] [DecidableEq V] in
/-- A step that moves no worker and pushes nothing. -/
theorem descends_of_client {a : Action W C V} (hworker : s'.worker = s.worker)
    (hqueue : s'.queue = s.queue) (ha : ∀ w results, a ≠ .worker w results) :
    Descends dfg g s a s' := by
  refine Or.inr ⟨?_, Or.inr ⟨?_, fun w results heq => absurd heq (ha w results)⟩⟩
  · rw [State.workLeft, State.workLeft, hqueue, hworker]
  · rw [State.ranks, State.ranks, hworker]

omit [DecidableEq G] [DecidableEq N] [DecidableEq W] [DecidableEq C] [DecidableEq V] [Fintype N]
  [Fintype W] in
theorem LocalMove.taken {w : W} {pc pc' : WorkerPc N V} (h : LocalMove dfg s w pc pc') :
    pc'.taken = 0 := by
  have henter : ∀ g k p, (dfg.enter g k p : WorkerPc N V).taken = 0 := by
    intro g k p
    unfold Runner.enter
    split <;> rfl
  cases h with
  | start hterm => exact henter _ 0 0
  | skip v hge =>
    unfold Runner.next
    split
    · split
      · rfl
      · exact henter _ 0 0
    · exact henter _ _ _
  | returned v i data =>
    unfold Runner.afterExec
    split
    · rfl
    · split <;> rfl
  | _ => rfl

omit [DecidableEq G] [DecidableEq W] [DecidableEq C] [DecidableEq V] [Fintype N] [Fintype W] in
/-- The push of a datum is recorded. -/
theorem pushed_ne (q : NodeQueue N) (data : GraphData V) : (s.push q data).pushed ≠ s.pushed := by
  intro heq
  have hlen := congrArg List.length (congrFun heq q)
  have hlen : (Function.update s.pushed q (s.pushed q ++ [data]) q).length = (s.pushed q).length :=
    hlen
  rw [Function.update_self, List.length_append, List.length_singleton] at hlen
  omega

/-- **While nothing is pushed, the workers of a group that was shut down run out of work.** -/
theorem Effect.descends {a : Action W C V} (h : Effect dfg s a s') (hD : ShutDown dfg g s)
    (hT : Typed dfg.graph s) (hpushed : s'.pushed = s.pushed) : Descends dfg g s a s' := by
  cases h with
  | move w results pc hmove =>
    refine descends_of_worker pc results rfl rfl (hmove.taken ▸ Nat.zero_le _) ?_
    rintro rfl
    exact hmove.rank_lt (hD.canTerminate w rfl)
  | acquire w results hpc hsem =>
    refine descends_of_worker .checkTerminate results rfl rfl (Nat.zero_le _) fun _ => ?_
    rw [hpc]
    exact Nat.lt_succ_self 1
  | enter w results v hpc hlt =>
    refine descends_of_worker (dfg.beginDequeue v 0) results rfl rfl (Nat.zero_le _)
      fun _ => ?_
    have hinputs := inputs_length_le dfg.graph v.node
    rw [hpc]
    dsimp only [Runner.beginDequeue, Runner.rank]
    omega
  | refuse w results v hpc hge =>
    refine descends_of_worker (.decrement v) results rfl rfl (Nat.zero_le _) fun _ => ?_
    rw [hpc]
    dsimp only [Runner.rank]
    omega
  | leave w results v hpc =>
    have htaken : (dfg.next (dfg.group w) v : WorkerPc N V).taken = 0 := by
      have hmove : LocalMove dfg
          { s with threadCount := fun n => (dfg.graph.node n).maxThreadCount } w (.load v)
          (dfg.next (dfg.group w) v) := .skip v (lt_irrefl _)
      exact hmove.taken
    refine descends_of_worker (dfg.next (dfg.group w) v) results rfl rfl
      (htaken ▸ Nat.zero_le _) fun hg => ?_
    rw [hpc]
    subst hg
    refine (rank_next dfg (dfg.group w) v).trans_lt ?_
    dsimp only [Runner.rank]
    omega
  | pop w results v i type types data rest hpc hq =>
    have hfits := hT.queue (v.node, type) data (by rw [hq]; exact List.mem_cons_self)
    have hsum := sum_update_exchange WorkerPc.taken s.worker w (.fetched v i data)
    have hlt : ∑ q ∈ dfg.graph.slots,
        (Function.update s.queue (v.node, type) rest q).length <
          ∑ q ∈ dfg.graph.slots, (s.queue q).length := by
      refine Finset.sum_lt_sum (fun q _ => ?_) ⟨(v.node, type), mem_slots hfits.2, ?_⟩
      · by_cases hqe : q = (v.node, type)
        · rw [hqe, Function.update_self, hq]
          exact Nat.le_succ _
        · rw [Function.update_of_ne hqe]
      · rw [Function.update_self, hq]
        exact Nat.lt_succ_self _
    refine Or.inr ⟨?_, ranks_of_worker (.fetched v i data) results rfl fun _ => ?_⟩
    · show ∑ q ∈ dfg.graph.slots, (Function.update s.queue (v.node, type) rest q).length +
        ∑ u, (Function.update s.worker w (.fetched v i data) u).taken ≤ s.workLeft dfg
      rw [hpc] at hsum
      dsimp only [WorkerPc.taken] at hsum
      unfold State.workLeft
      dsimp only [WorkerPc.taken]
      omega
    · rw [hpc]
      dsimp only [Runner.rank, List.length_cons]
      omega
  | exec w results v i data hpc =>
    refine Or.inl ?_
    have hsum := sum_update_exchange WorkerPc.taken s.worker w (.exec v i data (.run results))
    rw [hpc] at hsum
    show ∑ q ∈ dfg.graph.slots, (s.queue q).length +
      ∑ u, (Function.update s.worker w (.exec v i data (.run results)) u).taken < s.workLeft dfg
    unfold State.workLeft
    have htaken : (WorkerPc.fetched v i data : WorkerPc N V).taken = 1 := rfl
    have hexec : (WorkerPc.exec v i data (.run results) : WorkerPc N V).taken = 0 := rfl
    omega
  | sink w results v i data result todo k hpc hne hk =>
    refine descends_of_worker (.exec v i data (.notify result todo)) results rfl rfl
      (Nat.zero_le _) fun _ => ?_
    rw [hpc]
    dsimp only [Runner.rank, ExecPc.steps]
    rw [List.map_cons, List.sum_cons]
    omega
  | notify w results v i data result todo hpc =>
    refine descends_of_worker (.exec v i data (dfg.graph.afterSink v.node result todo)) results
      rfl rfl (Nat.zero_le _) fun _ => ?_
    rw [hpc]
    have hafter := steps_afterSink dfg.graph v.node result todo
    show _ + _ + (dfg.graph.afterSink v.node result todo).steps dfg.graph v.node + 5 <
      _ + _ + ((todo.map (dfg.graph.resultSteps v.node)).sum +
        dfg.graph.resultSteps v.node result) + 5
    omega
  | push w results v i data result q queues nodes todo hpc =>
    exact absurd hpushed (pushed_ne q result)
  | release w results v i data n nodes todo hpc =>
    refine descends_of_worker (.exec v i data (.release nodes todo)) results rfl rfl
      (Nat.zero_le _) fun _ => ?_
    rw [hpc]
    dsimp only [Runner.rank, ExecPc.steps, List.length_cons]
    omega
  | enqueue c data n rest hpc => exact absurd hpushed (pushed_ne (n, data.type) data)
  | receive | clientRelease | take | termStore | termRelease =>
    exact descends_of_client rfl rfl fun _ _ => nofun
  | client c a pc m hmove =>
    refine descends_of_client rfl rfl fun w results heq => ?_
    subst heq
    cases hmove

/-! ## The result -/

/-- The state after `tu_dfg_term` has released the permits of a group, in a call of the
client `c` that goes on with `groups`. -/
def Released (dfg : Runner G N W) (c : C) (g : G) (groups : List G) (s₁ : State G N W C V) :
    Prop :=
  ∃ s₀, (system dfg C V).Reachable s₀ ∧ s₀.client c = .termRelease g groups ∧
    step dfg s₀ (.client c) = some s₁

/-- What shutting down a group has to achieve.  A failed assertion ends the program. -/
structure ShutsDown (dfg : Runner G N W) (c : C) (g : G) (groups : List G)
    (s₁ : State G N W C V) : Prop where
  /-- There are always as many permits as workers that have yet to return from an acquire. -/
  permits : ∀ trace s, (system dfg C V).Path (fun _ _ => True) s₁ trace s →
    owing WorkerPc.owesPermit (dfg.workers g) s.worker ≤ s.sem g
  /-- No worker is blocked. -/
  not_blocked : ∀ trace s, (system dfg C V).Path (fun _ _ => True) s₁ trace s →
    ∀ w ∈ dfg.workers g, s.worker w ≠ .exited → s.worker w ≠ .abort →
      ∀ results, (step dfg s (.worker w results)).isSome
  /-- No assertion fails, when every group that is notified of data has nodes. -/
  not_abort : (∀ n, dfg.nodes (dfg.graph.node n).group ≠ []) → ∀ trace s,
    (system dfg C V).Path (fun _ _ => True) s₁ trace s → ∀ w, s.worker w ≠ .abort
  /-- When the threads move, and nothing is pushed to a queue any more, all joins return. -/
  joins_return : ∀ r : (system dfg C V).Run, r.state 0 = s₁ →
    (∀ n w, (r.state n).worker w ≠ .abort) →
    (∀ w ∈ dfg.workers g, r.Fair fun _ a => ∃ results, a = .worker w results) →
    r.Fair (fun _ a => a = .client c) →
    (∃ n, ∀ m, n ≤ m → (r.state m).pushed = (r.state n).pushed) →
    (∃ m, ∀ w ∈ dfg.workers g, (r.state m).worker w = .exited) ∧
      ∃ m, (r.state m).client c = .termJoin [] groups

omit [Fintype N] [Fintype W] in
/-- Nobody else moves a client that joins workers. -/
theorem client_of_termJoin {c : C} {l : List W} {groups : List G} {a : Action W C V}
    (h : step dfg s a = some s') (hpc : s.client c = .termJoin l groups) (ha : a ≠ .client c) :
    s'.client c = .termJoin l groups := by
  have hne : ∀ d (p : ClientPc G N W V), d ≠ c →
      Function.update s.client d p c = .termJoin l groups := by
    intro d p hd
    rw [Function.update_of_ne (Ne.symm hd), hpc]
  have hmoved : ∀ d, a = .client d → d ≠ c := by
    rintro d rfl rfl
    exact ha rfl
  have hidle : ∀ d, s.client d = .idle → d ≠ c := by
    rintro d hd rfl
    exact absurd (hpc.symm.trans hd) (by simp)
  cases effect_of_step h with
  | notify w results v i data result todo hw =>
    show (if s.client c = .blocked then .relock else s.client c : ClientPc G N W V) = _
    rw [hpc]
    simp
  | receive d data hd => exact hne d _ (hidle d hd)
  | enqueue d | clientRelease d | take d | termStore d | termRelease d =>
    exact hne d _ (hmoved d rfl)
  | client d _ pc m hmove =>
    refine hne d pc ?_
    cases hmove with
    | call hd | term hd => exact hidle d hd
    | wake hd =>
      rintro rfl
      exact absurd (hpc.symm.trans hd) (by simp)
    | _ => exact hmoved d rfl
  | _ => exact hpc

/-- **Shutdown.** -/
theorem shutsDown_of_released {c : C} {groups : List G} {s₁ : State G N W C V}
    (h : Released dfg c g groups s₁) : ShutsDown dfg c g groups s₁ := by
  obtain ⟨s₀, hs₀, hpc, hrelease⟩ := h
  have hstep₁ : (system dfg C V).step s₀ (.client c) = some s₁ := hrelease
  have hs₁ : (system dfg C V).Reachable s₁ := .next hs₀ trivial hstep₁
  have hstored := stored_of_reaches hs₀ c
  rw [hpc] at hstored
  obtain ⟨hD₁, hjoin⟩ : ShutDown dfg g s₁ ∧ s₁.client c = .termJoin (dfg.workers g) groups := by
    change s₀.clientStep dfg c = some s₁ at hrelease
    rw [State.clientStep, hpc] at hrelease
    obtain rfl := Option.some.inj hrelease
    refine ⟨⟨hstored, ?_⟩, Function.update_self ..⟩
    show owing WorkerPc.owesPermit (dfg.workers g) s₀.worker ≤ Function.update s₀.sem g _ g
    rw [Function.update_self]
    exact owing_le_length.trans (Nat.le_add_left _ _)
  have hpath : ∀ trace s, (system dfg C V).Path (fun _ _ => True) s₁ trace s → ShutDown dfg g s :=
    fun trace s p => p.invariant (I := fun _ s => ShutDown dfg g s) hD₁
      fun _ _ _ _ hD _ hstep => (effect_of_step hstep).shutDown hD
  refine ⟨fun trace s p => (hpath trace s p).permits, fun trace s p w hw hne hassert results =>
    isSome_workerStep (hpath trace s p) ((dfg.mem_workers g w).mp hw) hne hassert results,
    fun hnodes trace s p w => ((positions_of_reaches hnodes (p.reachable hs₁)).inRange w).1, ?_⟩
  rintro r hr hassert hfair hclient ⟨n₀, hquiet⟩
  have hreach : ∀ n, (system dfg C V).Reachable (r.state n) := r.reachable (hr ▸ hs₁)
  have hD : ∀ n, ShutDown dfg g (r.state n) := fun n =>
    r.invariant_from (I := ShutDown dfg g) (hr ▸ hD₁)
      (fun m _ hD => (effect_of_step (r.step m)).shutDown hD) (Nat.zero_le n)
  have hdescends : ∀ n, n₀ ≤ n → Descends dfg g (r.state n) (r.action n) (r.state (n + 1)) :=
    fun n hn => (effect_of_step (r.step n)).descends (hD n) (typed_of_reaches (hreach n)) (by
      rw [hquiet (n + 1) (by omega), hquiet n hn])
  -- the workers of the group come to rest
  obtain ⟨n₁, -, hrest⟩ := r.exists_forall_not_lex
    (P := fun _ a => ∃ w results, a = .worker w results ∧ dfg.group w = g)
    (State.workLeft dfg) (State.ranks dfg g)
    (fun n hn => (hdescends n hn).imp_right fun ⟨hwork, hcases⟩ =>
      ⟨hwork, hcases.elim Nat.le_of_lt fun hsame => hsame.1.le⟩)
    (fun n hn ⟨w, results, ha, hw⟩ => (hdescends n hn).imp_right fun ⟨hwork, hcases⟩ =>
      ⟨hwork, hcases.resolve_right fun hsame => hsame.2 w results ha hw⟩)
  have hexited : ∀ w ∈ dfg.workers g, ∃ N, ∀ m, N ≤ m → (r.state m).worker w = .exited := by
    intro w hw
    have hg : dfg.group w = g := (dfg.mem_workers g w).mp hw
    obtain ⟨N, hN⟩ := (hfair w hw).disabled fun m hm ⟨results, ha⟩ =>
      hrest m hm ⟨w, results, ha, hg⟩
    refine ⟨N, fun m hm => ?_⟩
    by_contra hne
    exact hN m hm (TransitionSystem.enabled_of_isSome (a := .worker w []) ⟨[], rfl⟩
      (isSome_workerStep (hD m) hg hne (hassert m w) []))
  refine ⟨?_, ?_⟩
  · obtain ⟨N, hN⟩ := r.eventually_all (D := fun w s => s.worker w = .exited) hexited
    exact ⟨N, hN N le_rfl⟩
  · have hmove : ∀ n w l, (r.state n).client c = .termJoin (w :: l) groups →
        r.action n = .client c → (r.state (n + 1)).client c = .termJoin l groups := by
      intro n w l hJ ha
      have hstep := r.step n
      rw [ha] at hstep
      change (r.state n).clientStep dfg c = _ at hstep
      rw [State.clientStep, hJ] at hstep
      obtain ⟨-, hs'⟩ := Option.ite_none_right_eq_some.mp hstep
      rw [← Option.some.inj hs']
      exact Function.update_self ..
    have henabled : ∀ n w l, (r.state n).client c = .termJoin (w :: l) groups →
        (r.state n).worker w = .exited →
          (system dfg C V).Enabled (fun _ a => a = .client c) (r.state n) := by
      intro n w l hJ hw
      refine TransitionSystem.enabled_of_isSome (a := .client c) rfl ?_
      show ((r.state n).clientStep dfg c).isSome
      simp [State.clientStep, hJ, hw]
    obtain ⟨m, -, hend⟩ := TransitionSystem.Run.joined hclient
      (J := fun l s => s.client c = .termJoin l groups) (D := fun w s => s.worker w = .exited)
      (fun n l hJ ha => client_of_termJoin (r.step n) hJ ha) hmove henabled (n := 0) (hr ▸ hjoin)
      hexited
    exact ⟨m, hend⟩

end Rank

end Dfg
end ThreadUtils
