import ThreadUtils.Dfg.Steps
import ThreadUtils.Transition.Accounting

/-!
# The limit of a node and the order of a state

`thread_count` of a node counts the workers between their `fetch_add` and their
decrement, those included that found the node at its limit.  A worker processes the node
only if it read a value below the limit, so that all workers it shares the node with are
among those counted, and there is room for it.  A load before the `fetch_add` saves work
and is not needed for this.

A state has the limit `1`.  Its data are therefore popped and executed by one worker at a
time, and the data of one type leave their queue, and are executed, in the order in which
they entered it, whoever executes them.

`Limited` keeps the two numbers apart: the workers that are counted, of which there may be more than
the limit, and those that process the node.  The counter is the first one exactly, hence it does not
underflow, and the second one is at most the first: a worker whose `fetch_add` returned a number
below the limit finds no more than that many others inside.
-/

namespace ThreadUtils
namespace Dfg

variable {G N W C V : Type*}

/-- The node whose `thread_count` counts the worker. -/
def WorkerPc.counted : WorkerPc N V → Option N
  | .dequeue v _ _ | .fetched v _ _ | .exec v _ _ _ | .decrement v => some v.node
  | _ => none

/-- The node whose queues the worker processes. -/
def WorkerPc.processing : WorkerPc N V → Option N
  | .dequeue v _ _ | .fetched v _ _ | .exec v _ _ _ => some v.node
  | _ => none

/-- The node that the worker executes. -/
def WorkerPc.executing : WorkerPc N V → Option N
  | .exec v _ _ _ => some v.node
  | _ => none

/-- The datum of a type that the worker has popped and not begun to execute. -/
def WorkerPc.held (type : TypeId) : WorkerPc N V → List (GraphData V)
  | .fetched _ _ data => if data.type = type then [data] else []
  | _ => []

section Definitions

variable [DecidableEq N]

/-- The number of workers that process a node. -/
def State.processing [Fintype W] (s : State G N W C V) (n : N) : ℕ :=
  (Finset.univ.filter fun w => (s.worker w).processing = some n).card

/-- The number of workers that the counter of a node counts. -/
def State.counted [Fintype W] (s : State G N W C V) (n : N) : ℕ :=
  (Finset.univ.filter fun w => (s.worker w).counted = some n).card

end Definitions

/-! ## The program counters -/

theorem processing_of_executing {pc : WorkerPc N V} {n : N} (h : pc.executing = some n) :
    pc.processing = some n := by
  cases pc <;> first | exact h | cases h

theorem counted_of_processing {pc : WorkerPc N V} {n : N} (h : pc.processing = some n) :
    pc.counted = some n := by
  cases pc <;> first | exact h | cases h

@[simp] theorem counted_enter (dfg : Runner G N W) (g : G) (k p : ℕ) :
    (dfg.enter g k p : WorkerPc N V).counted = none := by
  unfold Runner.enter
  split <;> rfl

@[simp] theorem counted_next (dfg : Runner G N W) (g : G) (v : Visit N) :
    (dfg.next g v : WorkerPc N V).counted = none := by
  unfold Runner.next
  split
  · split
    · rfl
    · exact counted_enter dfg g 0 0
  · exact counted_enter dfg g _ _

/-- The worker stays at the node, and holds no datum. -/
theorem afterExec_at (dfg : Runner G N W) (g : G) (v : Visit N) (i : ℕ) :
    (dfg.afterExec g v i : WorkerPc N V).counted = some v.node ∧
      ∀ type, (dfg.afterExec g v i : WorkerPc N V).held type = [] := by
  unfold Runner.afterExec
  split
  · exact ⟨rfl, fun _ => rfl⟩
  · split <;> exact ⟨rfl, fun _ => rfl⟩

theorem processing_of_counted {pc : WorkerPc N V} (h : pc.counted = none) :
    pc.processing = none := by
  cases hp : pc.processing with
  | none => rfl
  | some n => rw [counted_of_processing hp] at h; cases h

theorem held_of_not_processing {pc : WorkerPc N V} (h : pc.processing = none) (type : TypeId) :
    pc.held type = [] := by
  cases pc <;> first | rfl | cases h

/-- What a local move keeps: the counter, and the room at the node. -/
structure Stays (pc pc' : WorkerPc N V) : Prop where
  counted : pc'.counted = pc.counted
  processing : ∀ n, pc'.processing = some n → pc.processing = some n
  held : ∀ type, pc.held type = [] ∧ pc'.held type = []

variable {dfg : Runner G N W} {s s' : State G N W C V}

theorem LocalMove.stays {w : W} {pc pc' : WorkerPc N V} (h : LocalMove dfg s w pc pc') :
    Stays pc pc' := by
  have houtside : ∀ {p q : WorkerPc N V}, p.counted = none → q.counted = none → Stays p q :=
    fun hp hq => ⟨hq.trans hp.symm,
      fun n hn => (by rw [processing_of_counted hq] at hn; cases hn),
      fun type => ⟨held_of_not_processing (processing_of_counted hp) type,
        held_of_not_processing (processing_of_counted hq) type⟩⟩
  cases h with
  | terminate hterm => exact houtside rfl rfl
  | start hterm => exact houtside rfl (counted_enter dfg _ 0 0)
  | below v hlt => exact houtside rfl rfl
  | skip v hge => exact houtside rfl (counted_next dfg _ v)
  | miss v i type types hq => exact ⟨rfl, fun _ h => h, fun _ => ⟨rfl, rfl⟩⟩
  | drained v i => exact ⟨rfl, fun n hn => (by cases hn), fun _ => ⟨rfl, rfl⟩⟩
  | returned v i data =>
    obtain ⟨hcounted, hheld⟩ := afterExec_at (V := V) dfg (dfg.group w) v i
    refine ⟨hcounted, fun n hn => ?_, fun type => ⟨rfl, hheld type⟩⟩
    rw [counted_of_processing hn] at hcounted
    exact hcounted.symm
  | null v i data result todo hnull => exact ⟨rfl, fun _ h => h, fun _ => ⟨rfl, rfl⟩⟩
  | unsunk v i data result todo hne hk => exact ⟨rfl, fun _ h => h, fun _ => ⟨rfl, rfl⟩⟩
  | pushed v i data result nodes todo => exact ⟨rfl, fun _ h => h, fun _ => ⟨rfl, rfl⟩⟩
  | released v i data todo => exact ⟨rfl, fun _ h => h, fun _ => ⟨rfl, rfl⟩⟩

/-! ## The counter -/

section Limit

variable [DecidableEq N] [DecidableEq W] [Fintype W]

/-- `1` when `m` is the node `n`. -/
def share (n : N) (m : Option N) : ℕ :=
  if m = some n then 1 else 0

@[simp] theorem share_none (n : N) : share n none = 0 := rfl

theorem share_le_one (n : N) (m : Option N) : share n m ≤ 1 := by
  unfold share
  split <;> omega

theorem update_add_one (count : N → ℤ) (m n : N) :
    Function.update count m (count m + 1) n = count n + share n (some m) := by
  by_cases h : n = m
  · subst h
    rw [Function.update_self, share, if_pos rfl]
    rfl
  · rw [Function.update_of_ne h, share, if_neg fun hm => h (Option.some.inj hm).symm]
    exact (add_zero _).symm

theorem update_sub_one (count : N → ℤ) (m n : N) :
    Function.update count m (count m - 1) n + share n (some m) = count n := by
  by_cases h : n = m
  · subst h
    rw [Function.update_self, share, if_pos rfl]
    exact sub_add_cancel _ _
  · rw [Function.update_of_ne h, share, if_neg fun hm => h (Option.some.inj hm).symm]
    exact add_zero _

/-- How the number of workers at a node changes with one worker. -/
theorem card_update (f : WorkerPc N V → Option N) {worker worker' : W → WorkerPc N V} {w : W}
    {pc : WorkerPc N V} (hw : worker' = Function.update worker w pc) (n : N) :
    (Finset.univ.filter fun w => f (worker' w) = some n).card + share n (f (worker w)) =
      (Finset.univ.filter fun w => f (worker w) = some n).card + share n (f pc) := by
  rw [Finset.card_filter, Finset.card_filter, hw]
  exact sum_update_exchange (fun pc => share n (f pc)) worker w pc

/-- The counters are exact, and no node has more workers than its limit. -/
structure Limited (dfg : Runner G N W) (s : State G N W C V) : Prop where
  threadCount : ∀ n, s.threadCount n = s.counted n
  limit : ∀ n, s.processing n ≤ (dfg.graph.node n).maxThreadCount

omit [DecidableEq W] in
theorem processing_le_counted (s : State G N W C V) (n : N) : s.processing n ≤ s.counted n :=
  Finset.card_le_card fun _ hw => Finset.mem_filter.mpr
    ⟨Finset.mem_univ _, counted_of_processing (Finset.mem_filter.mp hw).2⟩

/-- A worker moves together with its share of the counters, and comes to process a node only
where there is room. -/
theorem Limited.exchange (hL : Limited dfg s) {w : W} {pc : WorkerPc N V}
    (hw : s'.worker = Function.update s.worker w pc)
    (hcount : ∀ n, s'.threadCount n + share n (s.worker w).counted =
      s.threadCount n + share n pc.counted)
    (hroom : ∀ n, pc.processing = some n → (s.worker w).processing = some n ∨
      s.threadCount n < (dfg.graph.node n).maxThreadCount) :
    Limited dfg s' := by
  refine ⟨fun n => ?_, fun n => ?_⟩
  · have hcard := card_update WorkerPc.counted hw n
    have hthread := hL.threadCount n
    have hn := hcount n
    rw [State.counted] at hthread ⊢
    omega
  · have hcard := card_update WorkerPc.processing hw n
    have hlimit := hL.limit n
    rw [State.processing] at hlimit ⊢
    by_cases hn : pc.processing = some n
    · rcases hroom n hn with hold | hlt
      · rw [hn, hold] at hcard
        omega
      · -- the workers at the node are among those counted
        have hle := processing_le_counted s n
        have hthread := hL.threadCount n
        have hone := share_le_one n pc.processing
        unfold State.processing at hle
        omega
    · rw [share, share, if_neg hn] at hcard
      omega

/-- A worker stays where the counter counts it. -/
theorem Limited.goto (hL : Limited dfg s) {w : W} {pc : WorkerPc N V}
    (hw : s'.worker = Function.update s.worker w pc) (hcount : s'.threadCount = s.threadCount)
    (hcounted : pc.counted = (s.worker w).counted)
    (hprocessing : ∀ n, pc.processing = some n → (s.worker w).processing = some n) :
    Limited dfg s' :=
  hL.exchange hw (fun n => by rw [hcount, hcounted]) fun n hn => Or.inl (hprocessing n hn)

omit [DecidableEq W] in
/-- A step that moves no worker. -/
theorem Limited.same (hL : Limited dfg s) (hw : s'.worker = s.worker)
    (hcount : s'.threadCount = s.threadCount) : Limited dfg s' := by
  refine ⟨fun n => ?_, fun n => ?_⟩
  · rw [State.counted, hw, hcount]
    exact hL.threadCount n
  · rw [State.processing, hw]
    exact hL.limit n

variable [DecidableEq G] [DecidableEq C] [DecidableEq V]

theorem Effect.limited {a : Action W C V} (h : Effect dfg s a s') (hL : Limited dfg s) :
    Limited dfg s' := by
  cases h with
  | move w results pc hmove =>
    exact hL.goto rfl rfl hmove.stays.counted hmove.stays.processing
  | acquire w results hpc hsem =>
    exact hL.goto rfl rfl (by rw [hpc]; rfl) fun n hn => by cases hn
  | enter w results v hpc hlt =>
    refine hL.exchange rfl (fun n => ?_) fun n hn => Or.inr ?_
    · rw [hpc]
      exact (add_zero _).trans (update_add_one s.threadCount v.node n)
    · obtain rfl := Option.some.inj hn
      exact hlt
  | refuse w results v hpc hge =>
    refine hL.exchange rfl (fun n => ?_) fun n hn => by cases hn
    rw [hpc]
    exact (add_zero _).trans (update_add_one s.threadCount v.node n)
  | leave w results v hpc =>
    refine hL.exchange rfl (fun n => ?_) fun n hn => ?_
    · rw [hpc, counted_next]
      exact (update_sub_one s.threadCount v.node n).trans (add_zero _).symm
    · rw [processing_of_counted (counted_next dfg _ v)] at hn
      cases hn
  | pop w results v i type types data rest hpc hq =>
    exact hL.goto rfl rfl (by rw [hpc]; rfl) fun n hn => by rw [hpc]; exact hn
  | exec w results v i data hpc =>
    exact hL.goto rfl rfl (by rw [hpc]; rfl) fun n hn => by rw [hpc]; exact hn
  | sink w results v i data result todo k hpc hne hk =>
    exact hL.goto rfl rfl (by rw [hpc]; rfl) fun n hn => by rw [hpc]; exact hn
  | notify w results v i data result todo hpc =>
    exact hL.goto rfl rfl (by rw [hpc]; rfl) fun n hn => by rw [hpc]; exact hn
  | push w results v i data result q queues nodes todo hpc =>
    exact hL.goto rfl rfl (by rw [hpc]; rfl) fun n hn => by rw [hpc]; exact hn
  | release w results v i data n nodes todo hpc =>
    exact hL.goto rfl rfl (by rw [hpc]; rfl) fun n hn => by rw [hpc]; exact hn
  | receive c data hpc => exact hL.same rfl rfl
  | enqueue c data n rest hpc => exact hL.same rfl rfl
  | clientRelease c data n rest hpc => exact hL.same rfl rfl
  | take c result rest hpc hq => exact hL.same rfl rfl
  | termStore c w rest g groups hpc => exact hL.same rfl rfl
  | termRelease c g groups hpc => exact hL.same rfl rfl
  | client c a pc m hmove => exact hL.same rfl rfl

theorem limited_of_reachable (hs : (system dfg C V).Reachable s) : Limited dfg s := by
  refine hs.invariant (I := fun s => Limited dfg s) ?_ fun s a s' _ hL _ h =>
    (effect_of_step h).limited hL
  rintro s rfl
  refine ⟨fun n => ?_, fun n => ?_⟩
  · rw [State.counted, Finset.filter_false_of_mem fun w _ => by simp [initial, WorkerPc.counted]]
    rfl
  · rw [State.processing,
      Finset.filter_false_of_mem fun w _ => by simp [initial, WorkerPc.processing]]
    exact Nat.zero_le _

end Limit
end Dfg
end ThreadUtils
