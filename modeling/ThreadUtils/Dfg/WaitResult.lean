import ThreadUtils.Dfg.StateOrder

/-!
# The wake-up of `tu_dfg_wait_result`

`tu_result` pushes to the sink of the graph and calls `notify_all`, both without the mutex
of the runner.  A client tests the queue of the sink and blocks under the mutex, in two
steps.  When the result comes and the notification goes out between the two, the client
blocks on a queue that is not empty, and nobody is left to wake it (`missedResult`).
`tu_tp_progress_op` of the thread pool and `tu_aw_exec` of the asynchronous worker take the
mutex before they change what their waiting threads test.

Outside of that window a client that has found the queue empty still finds it empty, or a
worker will notify (`Alert`): the worker that pushed the last result.

The mutex is of some use.  It keeps two clients from testing at the same time, and a client that is
woken up tests again under it.  What it does not do is to keep a worker out, so the reason of a
blocked client has to survive the steps of the workers: one that pushes a result is due to notify
from then on, and one that notifies wakes all clients that are blocked, but none that is about to
block.  `NotifyInTime` asks that no client is there at the last notification.

* `Effect.reasoned` --- the reason survives every step but a notification in the window.
* `not_missed_of_notifyInTime`, `exists_missed` --- the two sides of the window.
-/

namespace ThreadUtils
namespace Dfg

variable {G N W C V : Type*}

/-! ## The property and its condition -/

/-- The worker has pushed a result to a sink and will call `notify_all`. -/
def WorkerPc.notifying : WorkerPc N V → Prop
  | .exec _ _ _ (.notify _ _) => True
  | _ => False

instance (pc : WorkerPc N V) : Decidable pc.notifying :=
  match pc with
  | .exec _ _ _ (.notify _ _) => inferInstanceAs (Decidable True)
  | .exec _ _ _ (.run _) | .exec _ _ _ (.push _ _ _ _) | .exec _ _ _ (.release _ _)
  | .acquire | .checkTerminate | .load _ | .fetchAdd _ | .dequeue _ _ _ | .fetched _ _ _
  | .decrement _ | .exited | .abort => inferInstanceAs (Decidable False)

/-- A client is blocked although there is a result, and nobody will notify it. -/
structure Missed (dfg : Runner G N W) (s : State G N W C V) (c : C) : Prop where
  blocked : s.client c = .blocked
  result : s.resultQueue dfg.graph.id ≠ []
  notifying : ∀ w, ¬ (s.worker w).notifying

/-- The last notification for the results in the queue does not fall between the test of
the queue by a client and its block. -/
def NotifyInTime (dfg : Runner G N W) (s : State G N W C V) : Action W C V → Prop
  | .worker w _ => (s.worker w).notifying → (∀ w', w' ≠ w → ¬ (s.worker w').notifying) →
      s.resultQueue dfg.graph.id ≠ [] → ∀ c, s.client c ≠ .waitBlock
  | _ => True

instance [DecidableEq G] [DecidableEq N] [DecidableEq W] [DecidableEq V] [Fintype W] [Fintype C]
    (dfg : Runner G N W) (s : State G N W C V) (a : Action W C V) :
    Decidable (NotifyInTime dfg s a) :=
  match a with
  | .worker w _ => inferInstanceAs (Decidable ((s.worker w).notifying →
      (∀ w', w' ≠ w → ¬ (s.worker w').notifying) → s.resultQueue dfg.graph.id ≠ [] →
      ∀ c, s.client c ≠ .waitBlock))
  | .pushData _ _ | .waitResult _ | .term _ | .client _ | .wake _ =>
    inferInstanceAs (Decidable True)

/-! ## Blocked for a reason -/

/-- A client that has found the queue empty. -/
def ClientPc.foundEmpty : ClientPc G N W V → Prop
  | .waitBlock | .blocked => True
  | _ => False

/-- The queue of the sink is empty, or somebody will notify the clients. -/
def Alert (dfg : Runner G N W) (s : State G N W C V) : Prop :=
  s.resultQueue dfg.graph.id = [] ∨ ∃ w, (s.worker w).notifying

/-- A client that has found the queue empty has a reason to block. -/
def Reasoned (dfg : Runner G N W) (s : State G N W C V) : Prop :=
  ∀ c, (s.client c).foundEmpty → Alert dfg s

variable {dfg : Runner G N W} {s s' : State G N W C V}

theorem LocalMove.not_notifying {w : W} {pc pc' : WorkerPc N V} (h : LocalMove dfg s w pc pc') :
    ¬ pc.notifying := by
  cases h <;> exact id

/-- A worker that is not due to notify moves. -/
theorem Alert.goto [DecidableEq W] (hA : Alert dfg s) {w : W} {pc : WorkerPc N V}
    (hw : s'.worker = Function.update s.worker w pc)
    (hq : s'.resultQueue = s.resultQueue) (hpc : ¬ (s.worker w).notifying) : Alert dfg s' := by
  rcases hA with hempty | ⟨w', hw'⟩
  · exact Or.inl (by rw [hq]; exact hempty)
  · have hne : w' ≠ w := by
      rintro rfl
      exact hpc hw'
    refine Or.inr ⟨w', ?_⟩
    rw [hw, Function.update_of_ne hne]
    exact hw'

/-- The clients are as before. -/
theorem Reasoned.goto [DecidableEq W] (hR : Reasoned dfg s) {w : W} {pc : WorkerPc N V}
    (hw : s'.worker = Function.update s.worker w pc)
    (hq : s'.resultQueue = s.resultQueue) (hc : s'.client = s.client)
    (hpc : ¬ (s.worker w).notifying) : Reasoned dfg s' := by
  intro c hfound
  rw [hc] at hfound
  exact (hR c hfound).goto hw hq hpc

/-- A client moves, and has a reason if it has found the queue empty. -/
theorem Reasoned.client [DecidableEq C] (hR : Reasoned dfg s) {c : C} {pc : ClientPc G N W V}
    (hw : s'.worker = s.worker) (hq : s'.resultQueue = s.resultQueue)
    (hc : s'.client = Function.update s.client c pc) (hpc : pc.foundEmpty → Alert dfg s) :
    Reasoned dfg s' := by
  intro c' hfound
  have hA : Alert dfg s := by
    rw [hc] at hfound
    by_cases h : c' = c
    · subst h
      rw [Function.update_self] at hfound
      exact hpc hfound
    · rw [Function.update_of_ne h] at hfound
      exact hR c' hfound
  rw [Alert, hq, hw]
  exact hA

theorem not_foundEmpty_pushNext (data : GraphData V) (rest : List N) :
    ¬ (pushNext data rest : ClientPc G N W V).foundEmpty := by
  cases rest <;> exact id

theorem not_foundEmpty_termNext (dfg : Runner G N W) (groups : List G) :
    ¬ (dfg.termNext groups : ClientPc G N W V).foundEmpty := by
  cases groups <;> exact id

theorem ClientMove.alert {c : C} {a : Action W C V} {pc : ClientPc G N W V} {m : Option C}
    (h : ClientMove dfg s c a pc m) (hR : Reasoned dfg s) (hpc : pc.foundEmpty) :
    Alert dfg s := by
  cases h with
  | empty hc hq => exact Or.inl hq
  | block hc => exact hR c (by rw [hc]; trivial)
  | term hc => exact absurd hpc (not_foundEmpty_termNext dfg _)
  | joined groups hc => exact absurd hpc (not_foundEmpty_termNext dfg groups)
  | _ => exact hpc.elim

variable [DecidableEq G] [DecidableEq N] [DecidableEq W] [DecidableEq C] [DecidableEq V]

/-- **The reason survives every step but a notification in the window.** -/
theorem Effect.reasoned {a : Action W C V} (h : Effect dfg s a s')
    (hok : NotifyInTime dfg s a) (hR : Reasoned dfg s) : Reasoned dfg s' := by
  cases h with
  | move w results pc hmove => exact hR.goto rfl rfl rfl hmove.not_notifying
  | acquire w results hpc hsem => exact hR.goto rfl rfl rfl (by rw [hpc]; exact id)
  | enter w results v hpc hlt => exact hR.goto rfl rfl rfl (by rw [hpc]; exact id)
  | refuse w results v hpc hge => exact hR.goto rfl rfl rfl (by rw [hpc]; exact id)
  | leave w results v hpc => exact hR.goto rfl rfl rfl (by rw [hpc]; exact id)
  | pop w results v i type types data rest hpc hq =>
    exact hR.goto rfl rfl rfl (by rw [hpc]; exact id)
  | exec w results v i data hpc => exact hR.goto rfl rfl rfl (by rw [hpc]; exact id)
  | sink w results v i data result todo k hpc hne hk =>
    refine fun c _ => Or.inr ⟨w, ?_⟩
    show (Function.update s.worker w _ w).notifying
    rw [Function.update_self]
    trivial
  | notify w results v i data result todo hpc =>
    -- every blocked client is woken; a client in the window has another reason
    intro c hfound
    change (if s.client c = .blocked then .relock else s.client c : ClientPc G N W V).foundEmpty
      at hfound
    split at hfound
    · exact hfound.elim
    · next hblocked =>
      cases hc : s.client c with
      | blocked => exact absurd hc hblocked
      | waitBlock =>
        by_contra halert
        refine hok (by rw [hpc]; trivial) (fun w' hne hw' => halert (Or.inr ⟨w', ?_⟩))
          (fun hempty => halert (Or.inl hempty)) c hc
        show (Function.update s.worker w _ w').notifying
        rw [Function.update_of_ne hne]
        exact hw'
      | _ =>
        rw [hc] at hfound
        exact hfound.elim
  | push w results v i data result q queues nodes todo hpc =>
    exact hR.goto rfl rfl rfl (by rw [hpc]; exact id)
  | release w results v i data n nodes todo hpc =>
    exact hR.goto rfl rfl rfl (by rw [hpc]; exact id)
  | receive c data hpc =>
    exact hR.client rfl rfl rfl fun h => absurd h (not_foundEmpty_pushNext data _)
  | enqueue c data n rest hpc => exact hR.client rfl rfl rfl fun h => h.elim
  | clientRelease c data n rest hpc =>
    exact hR.client rfl rfl rfl fun h => absurd h (not_foundEmpty_pushNext data rest)
  | take c result rest hpc hq =>
    intro c' hfound
    have hA : Alert dfg s := by
      change (Function.update s.client c _ c').foundEmpty at hfound
      by_cases h : c' = c
      · subst h
        rw [Function.update_self] at hfound
        exact hfound.elim
      · rw [Function.update_of_ne h] at hfound
        exact hR c' hfound
    rcases hA with hempty | hnotify
    · rw [hq] at hempty
      cases hempty
    · exact Or.inr hnotify
  | termStore c w rest g groups hpc => exact hR.client rfl rfl rfl fun h => h.elim
  | termRelease c g groups hpc => exact hR.client rfl rfl rfl fun h => h.elim
  | client c a pc m hmove => exact hR.client rfl rfl rfl (hmove.alert hR)

/-- **No result is missed while the last notification does not fall into the window**, for
any graph, groups, workers, clients and results: in no state of such a run is a client
blocked for ever on a queue that is not empty. -/
theorem not_missed_of_notifyInTime (dfg : Runner G N W) (s : State G N W C V)
    (hs : (system dfg C V).Reaches (NotifyInTime dfg) s) (c : C) : ¬ Missed dfg s c := by
  intro hmissed
  have hR : Reasoned dfg s := by
    refine hs.invariant (I := fun s => Reasoned dfg s) ?_ fun s a s' _ hR hok h =>
      (effect_of_step h).reasoned hok hR
    rintro s rfl c hc
    exact hc.elim
  rcases hR c (by rw [hmissed.blocked]; trivial) with hempty | ⟨w, hw⟩
  · exact hmissed.result hempty
  · exact hmissed.notifying w hw

/-! ## The window -/

/-- A task whose results of the type `1` go to the sink of the graph. -/
def sinkTask : ExecNode Unit Unit :=
  { tuTask 0 [0] [1] () 1 with sink := some 0 }

/-- A client pushes a datum and waits; it tests the queue before the result is there. -/
def waitEarly : List (Action Bool Unit ℕ) :=
  pushByClient 7 ++ [.waitResult (), .client (), .client ()] ++
    List.replicate 7 (.worker false [⟨some 9, 1⟩])

/-- The client blocks, and then the worker notifies. -/
def resultInTime : List (Action Bool Unit ℕ) :=
  waitEarly ++ [.client (), .worker false []]

theorem not_missed_resultInTime :
    let dfg := oneNode sinkTask rfl rfl
    let s := (system dfg Unit ℕ).replayWithin (NotifyInTime dfg) initial resultInTime
    s.client () = .relock ∧ ¬ Missed dfg s () := by
  exact ⟨by decide, not_missed_of_notifyInTime _ _
    (TransitionSystem.Reaches.replayWithin (.start rfl) resultInTime (by decide)) ()⟩

/-- The worker notifies, and then the client blocks. -/
def missedResult : List (Action Bool Unit ℕ) :=
  waitEarly ++ [.worker false [], .client ()]

/-- **A missed result**: a reachable state in which the client is blocked, the result is in
the queue of the sink, and no worker will notify. -/
theorem exists_missed :
    ∃ s, (system (oneNode sinkTask rfl rfl) Unit ℕ).Reachable s ∧
      Missed (oneNode sinkTask rfl rfl) s () := by
  refine ⟨(system (oneNode sinkTask rfl rfl) Unit ℕ).replay initial missedResult,
    TransitionSystem.Reachable.replay (.start rfl) missedResult (by decide), ?_⟩
  exact ⟨by decide, by decide, by decide⟩

end Dfg
end ThreadUtils
