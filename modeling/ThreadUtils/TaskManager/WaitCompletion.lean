import ThreadUtils.TaskManager.StateOwnership

/-!
# The wake-up of `tu_tm_wait_completion`

A worker stores its `parked` flag and calls `notify_all` without the mutex of the
manager.  A client tests the predicate and blocks under the mutex, in two steps.  When
the last worker notifies between the two, the notification reaches nobody, and the
client blocks although the predicate is true by then and no further notification comes
(`lostWakeUp`).  `tu_tp_progress_op` of the thread pool and `tu_aw_exec` of the
asynchronous worker change their predicates under the mutex and do not have that window.

## Blocked for a reason

Outside of that window nothing is lost.  A client that has found the predicate false is
blocked for a reason (`Alert`): a worker that will still notify, or a counter that is
not `0` and that only a worker in its drain loop can bring back to `0`.

The predicate reads the flags one by one, so a client may find it false for a worker that has
parked since.  That is no harm: the flag was false because the worker was on its way, and it stores
`true` before it notifies (`FlagsOk`).  So it is not the predicate that is kept along a run, but
the alert, and a step can end it only by a notification that leaves nobody else to notify and a
counter of `0`.  If no client is in the window then, `NotifyInTime`, all blocked clients are woken
by it, and those that test the predicate later find it true.

* `reasoned_step` --- the reason survives every step but a notification in the window.
* `not_stuck_of_notifyInTime` --- no client is stuck in a run without such a notification.
* `exists_stuck` --- a run with one, and the client that is blocked for ever.
-/

namespace ThreadUtils
namespace TaskManager

variable {G W C S : Type*}

/-! ## The property and its condition -/

/-- A client that is blocked for ever: every worker is blocked without a permit and
parked, and the counter is `0`. -/
structure Stuck (s : State G W C S) (c : C) : Prop where
  blocked : s.client c = .blocked
  acquire : ∀ w, s.worker w = .acquire
  sem : ∀ g, s.sem g = 0
  parked : ∀ w, s.parked w = true
  counter : s.operationCounter = 0

/-! ## The workers that will notify -/

/-- The worker will call `notify_all` before it acquires a permit. -/
def WorkerPc.willNotify : WorkerPc S → Prop
  | .acquire | .checkTerminate | .unpark | .exited => False
  | _ => True

instance (pc : WorkerPc S) : Decidable pc.willNotify :=
  match pc with
  | .acquire | .checkTerminate | .unpark | .exited => inferInstanceAs (Decidable False)
  | .park | .notify | .pop _ | .exec _ _ | .statePush _ _ _ | .stateAdd _ _ | .statePop _ _ _
  | .stateExec _ _ _ _ | .stateSub _ _ _ | .cachePop _ | .cacheExec _ _ | .sub _ | .check =>
    inferInstanceAs (Decidable True)

/-- The worker has stored `false` in its flag and not yet `true`. -/
def WorkerPc.unparked : WorkerPc S → Prop
  | .notify | .acquire | .checkTerminate | .unpark | .exited => False
  | _ => True

theorem WorkerPc.willNotify_of_unparked {pc : WorkerPc S} (h : pc.unparked) : pc.willNotify := by
  cases pc <;> first | exact h | trivial

/-- Somebody will notify the clients, or the counter is not `0`. -/
def Alert (L : Ledger G W C S) : Prop :=
  (∃ w, (L.worker w).willNotify) ∨ L.operationCounter ≠ 0

/-- The last notification, after which the counter is `0` and no worker is bound to notify,
does not fall between the test of the predicate by a client and its block. -/
def NotifyInTime (s : State G W C S) : Action G W C S → Prop
  | .worker w _ => s.worker w = .notify → (∀ w', w' ≠ w → ¬ (s.worker w').willNotify) →
      s.operationCounter = 0 → ∀ c, s.client c ≠ .waitBlock
  | _ => True

instance [DecidableEq G] [DecidableEq W] [DecidableEq S] [Fintype W] [Fintype C]
    (s : State G W C S) (a : Action G W C S) : Decidable (NotifyInTime s a) :=
  match a with
  | .worker w _ => inferInstanceAs (Decidable (s.worker w = .notify →
      (∀ w', w' ≠ w → ¬ (s.worker w').willNotify) → s.operationCounter = 0 →
      ∀ c, s.client c ≠ .waitBlock))
  | .fini _ | .push _ _ _ | .pushTask _ _ | .pushing _ | .execReturn _ | .wait _ | .client _
  | .wake _ => inferInstanceAs (Decidable True)

/-- A worker goes on, still bound to notify when it was. -/
theorem Alert.worker [DecidableEq W] {L L' : Ledger G W C S} (hA : Alert L) {w : W}
    {q : WorkerPc S} (hw : L'.worker = Function.update L.worker w q)
    (hcounter : L'.operationCounter = L.operationCounter)
    (hq : (L.worker w).willNotify → q.willNotify) : Alert L' := by
  rcases hA with ⟨w', hw'⟩ | hne
  · refine Or.inl ⟨w', ?_⟩
    rw [hw]
    by_cases h : w' = w
    · subst h
      rw [Function.update_self]
      exact hq hw'
    · rw [Function.update_of_ne h]
      exact hw'
  · exact Or.inr (by rw [hcounter]; exact hne)

theorem LocalMove.willNotify {pc q : WorkerPc S} (h : LocalMove pc q) (hne : pc ≠ .notify)
    (hpc : pc.willNotify) : q.willNotify := by
  cases h with
  | notified => exact absurd rfl hne
  | acquired => exact hpc.elim
  | terminated => exact hpc.elim
  | woken => exact hpc.elim
  | _ => trivial

theorem willNotify_afterExec {pc : WorkerPc S} (h : pc.willNotify) : pc.afterExec.willNotify := by
  cases pc <;> exact h

section Steps

variable [DecidableEq G] [DecidableEq W] [DecidableEq C] [DecidableEq S]

/-- The alert lasts until a worker notifies. -/
theorem Effect.alert {L L' : Ledger G W C S} (h : Effect L L') (hnn : 0 ≤ L.operationCounter)
    (hnotify : ∀ w, L.worker w = .notify → L'.worker w = .notify) (hA : Alert L) : Alert L' := by
  cases h with
  | count t g op call hpc =>
    refine Or.inr ?_
    show L.operationCounter + 1 ≠ 0
    omega
  | execReturn w op hrun hpush => exact hA.worker rfl rfl willNotify_afterExec
  | move w q hmove =>
    refine hA.worker rfl rfl (hmove.willNotify fun hpc => ?_)
    have hq := hnotify w hpc
    simp only [Function.update_self] at hq
    rw [hpc, hq] at hmove
    cases hmove
  | popTask w g k p op hpc hop hstate => exact hA.worker rfl rfl fun _ => trivial
  | popState w g k p op x hpc hop hstate => exact hA.worker rfl rfl fun _ => trivial
  | statePush w p op x hpc => exact hA.worker rfl rfl fun _ => trivial
  | stateAdd w p x hpc =>
    refine hA.worker rfl rfl fun _ => ?_
    split <;> trivial
  | statePop w k p x n op hpc hop => exact hA.worker rfl rfl fun _ => trivial
  | stateLeave w p x n hpc hone => exact hA.worker rfl rfl fun _ => trivial
  | stateKeep w p x n hpc hone => exact hA.worker rfl rfl fun _ => trivial
  | cacheEmpty w p hpc hcache => exact hA.worker rfl rfl fun _ => trivial
  | cachePop w p op hpc hlast => exact hA.worker rfl rfl fun _ => trivial
  | sub w p hpc =>
    refine Or.inl ⟨w, ?_⟩
    simp only [Function.update_self]
    trivial
  | _ => exact hA

/-! ## The flags of the workers -/

variable {tm : Groups G W} {s s' : State G W C S}

/-- A flag that is `false` belongs to a worker that will store `true`. -/
def FlagsOk (s : State G W C S) : Prop :=
  ∀ w, s.parked w = false → (s.worker w).unparked

omit [DecidableEq S] in
theorem flagsOk_update {worker : W → WorkerPc S} {parked : W → Bool}
    (hF : ∀ w, parked w = false → (worker w).unparked) {w : W} {q : WorkerPc S}
    (hq : parked w = false → q.unparked) :
    ∀ w', parked w' = false → (Function.update worker w q w').unparked := by
  intro w' hw'
  by_cases h : w' = w
  · subst h
    rw [Function.update_self]
    exact hq hw'
  · rw [Function.update_of_ne h]
    exact hF w' hw'

omit [DecidableEq C] in
theorem flagsOk_workerStep {w : W} {pick : Option ℕ} (h : s.workerStep tm w pick = some s')
    (hF : FlagsOk s) : FlagsOk s' := by
  have hold := hF w
  unfold State.workerStep at h
  split at h
  · obtain rfl := Option.some.inj h
    intro w' hw'
    change Function.update s.parked w true w' = false at hw'
    show (Function.update s.worker w .notify w').unparked
    have hww : w' ≠ w := by
      rintro rfl
      rw [Function.update_self] at hw'
      cases hw'
    rw [Function.update_of_ne hww] at hw' ⊢
    exact hF w' hw'
  · next hpc =>
    obtain rfl := Option.some.inj h
    exact flagsOk_update hF fun hw => by rw [hpc] at hold; exact hold hw
  · next hpc =>
    split at h
    · obtain rfl := Option.some.inj h
      exact flagsOk_update hF fun hw => by rw [hpc] at hold; exact hold hw
    · cases h
  · next hpc =>
    obtain rfl := Option.some.inj h
    refine flagsOk_update hF fun hw => ?_
    rw [hpc] at hold
    exact (hold hw).elim
  · obtain rfl := Option.some.inj h
    intro w' hw'
    show (Function.update s.worker w (.pop 0) w').unparked
    by_cases hww : w' = w
    · subst hww
      rw [Function.update_self]
      trivial
    · change Function.update s.parked w false w' = false at hw'
      rw [Function.update_of_ne hww] at hw' ⊢
      exact hF w' hw'
  · split at h
    · obtain rfl := Option.some.inj h
      exact flagsOk_update hF fun _ => trivial
    · obtain ⟨op, -, rfl⟩ := Option.map_eq_some_iff.mp h
      cases op.state with
      | none => exact flagsOk_update hF fun _ => trivial
      | some x => exact flagsOk_update hF fun _ => trivial
  · obtain rfl := Option.some.inj h
    exact flagsOk_update hF fun _ => trivial
  · obtain rfl := Option.some.inj h
    refine flagsOk_update hF fun _ => ?_
    split <;> trivial
  · split at h
    · obtain rfl := Option.some.inj h
      exact hF
    · obtain ⟨op, -, rfl⟩ := Option.map_eq_some_iff.mp h
      exact flagsOk_update hF fun _ => trivial
  · split at h <;> obtain rfl := Option.some.inj h <;> exact flagsOk_update hF fun _ => trivial
  · split at h <;> obtain rfl := Option.some.inj h <;> exact flagsOk_update hF fun _ => trivial
  · obtain rfl := Option.some.inj h
    exact flagsOk_update hF fun _ => trivial
  · split at h
    · obtain rfl := Option.some.inj h
      exact flagsOk_update hF fun _ => trivial
    · cases h
  all_goals cases h

omit [DecidableEq C] in
/-- A worker step does not move the other workers. -/
theorem worker_of_workerStep {w : W} {pick : Option ℕ} (h : s.workerStep tm w pick = some s')
    {w' : W} (hw : w' ≠ w) : s'.worker w' = s.worker w' := by
  unfold State.workerStep at h
  split at h
  case h_3 | h_13 =>
    split at h <;> cases h
    exact Function.update_of_ne hw _ _
  case h_6 | h_9 =>
    split at h
    · cases h
      first
        | rfl
        | exact Function.update_of_ne hw _ _
    · obtain ⟨op, -, h⟩ := Option.map_eq_some_iff.mp h
      first
        | (subst h; exact Function.update_of_ne hw _ _)
        | (split at h <;> subst h <;> exact Function.update_of_ne hw _ _)
  case h_10 | h_11 => split at h <;> cases h <;> exact Function.update_of_ne hw _ _
  all_goals cases h <;> exact Function.update_of_ne hw _ _

/-- A step that moves no worker. -/
structure SameWorkers (s s' : State G W C S) : Prop where
  worker : s'.worker = s.worker
  parked : s'.parked = s.parked

theorem sameWorkers_of_step {a : Action G W C S} (h : step tm s a = some s') :
    SameWorkers s s' ∨ (∃ w, a = .execReturn w) ∨ ∃ w pick, a = .worker w pick := by
  cases a with
  | push t g state =>
    rw [step] at h
    split at h <;> cases h
    exact Or.inl ⟨rfl, rfl⟩
  | pushTask w g =>
    rw [step] at h
    split at h
    · obtain rfl := Option.some.inj h
      refine Or.inl ?_
      rw [State.pushTask]
      split
      · exact ⟨rfl, rfl⟩
      · split <;> exact ⟨rfl, rfl⟩
    · cases h
  | pushing t =>
    have h : s.pushing t = some s' := h
    rw [State.pushing] at h
    split at h <;> cases h <;> exact Or.inl ⟨rfl, rfl⟩
  | execReturn w => exact Or.inr (Or.inl ⟨w, rfl⟩)
  | worker w pick => exact Or.inr (Or.inr ⟨w, pick, rfl⟩)
  | wait c =>
    have hmove := clientMove_of_step h (c := c) rfl
    exact Or.inl ⟨congrArg Ledger.worker hmove.toLedger, hmove.parked⟩
  | fini c =>
    have hmove := clientMove_of_step h (c := c) rfl
    exact Or.inl ⟨congrArg Ledger.worker hmove.toLedger, hmove.parked⟩
  | client c =>
    have hmove := clientMove_of_step h (c := c) rfl
    exact Or.inl ⟨congrArg Ledger.worker hmove.toLedger, hmove.parked⟩
  | wake c =>
    have hmove := clientMove_of_step h (c := c) rfl
    exact Or.inl ⟨congrArg Ledger.worker hmove.toLedger, hmove.parked⟩

theorem flagsOk_step {a : Action G W C S} (h : step tm s a = some s') (hF : FlagsOk s) :
    FlagsOk s' := by
  rcases sameWorkers_of_step h with hsame | ⟨w, rfl⟩ | ⟨w, pick, rfl⟩
  · intro w hw
    rw [hsame.parked] at hw
    rw [hsame.worker]
    exact hF w hw
  · have h : s.execReturn w = some s' := h
    unfold State.execReturn at h
    split at h
    · next op hrun =>
      split at h
      · obtain rfl := Option.some.inj h
        refine flagsOk_update hF fun _ => ?_
        cases hpc : s.worker w with
        | exec p op => trivial
        | stateExec p x n op => trivial
        | cacheExec p op => trivial
        | _ =>
          rw [hpc] at hrun
          exact absurd hrun (by simp [WorkerPc.running])
      · cases h
    · cases h
  · exact flagsOk_workerStep h hF

/-- A worker that is due to notify stays so under every other step. -/
theorem notify_of_step {a : Action G W C S} (h : step tm s a = some s') {w : W}
    (hw : s.worker w = .notify) (hne : ∀ pick, a ≠ .worker w pick) : s'.worker w = .notify := by
  rcases sameWorkers_of_step h with hsame | ⟨w', rfl⟩ | ⟨w', pick, rfl⟩
  · rw [hsame.worker, hw]
  · have h : s.execReturn w' = some s' := h
    unfold State.execReturn at h
    split at h
    · next op hrun =>
      have hww : w ≠ w' := by
        rintro rfl
        rw [hw] at hrun
        cases hrun
      split at h
      · obtain rfl := Option.some.inj h
        exact (Function.update_of_ne hww _ _).trans hw
      · cases h
    · cases h
  · have hww : w ≠ w' := by
      rintro rfl
      exact hne pick rfl
    exact (worker_of_workerStep h hww).trans hw

/-! ## Blocked for a reason -/

/-- A client that has found the predicate false. -/
def ClientPc.foundFalse : ClientPc G W → Prop
  | .waitBlock | .blocked => True
  | _ => False

/-- A client that has found the predicate false has a reason to block. -/
def Reasoned (s : State G W C S) : Prop :=
  ∀ c, (s.client c).foundFalse → Alert s.toLedger

/-- **The reason survives every step but a notification in the window.** -/
theorem reasoned_step {a : Action G W C S} (h : step tm s a = some s') (hok : NotifyInTime s a)
    (hF : FlagsOk s) (hnn : 0 ≤ s.operationCounter) (hR : Reasoned s) : Reasoned s' := by
  by_cases hnotify : ∃ w pick, a = .worker w pick ∧ s.worker w = .notify
  · obtain ⟨w, pick, rfl, hpc⟩ := hnotify
    -- the notification wakes every blocked client; a client in the window has another reason
    have hs' : s' = s.notified w := by
      rcases clients_of_workerStep h with hsame | ⟨-, hs'⟩
      · have h : s.workerStep tm w pick = some s' := h
        rw [State.workerStep, hpc] at h
        exact (Option.some.inj h).symm
      · exact hs'
    subst hs'
    intro c hc
    change (if s.client c = .blocked then .relock else s.client c : ClientPc G W).foundFalse at hc
    split at hc
    · exact hc.elim
    · next hblocked =>
      cases hcl : s.client c with
      | waitBlock =>
        by_contra halert
        refine hok hpc (fun w' hne hw' => halert (Or.inl ⟨w', ?_⟩)) ?_ c hcl
        · show (Function.update s.worker w .acquire w').willNotify
          rw [Function.update_of_ne hne]
          exact hw'
        · by_contra hne
          exact halert (Or.inr hne)
      | blocked => exact absurd hcl hblocked
      | _ =>
        rw [hcl] at hc
        exact hc.elim
  · have halert : Alert s.toLedger → Alert s'.toLedger := by
      refine (effect_step h).alert hnn fun w hw => ?_
      exact notify_of_step h hw fun pick ha => hnotify ⟨w, pick, ha, hw⟩
    intro c hc
    rcases clients_of_step h with hsame | ⟨w, pick, ha, hpc, -⟩ | ⟨d, -, hmove⟩
    · rw [hsame.client] at hc
      exact halert (hR c hc)
    · exact absurd ⟨w, pick, ha, hpc⟩ hnotify
    · by_cases hcd : c = d
      · subst hcd
        refine halert ?_
        cases hcl : s'.client c with
        | waitBlock =>
          rcases hmove.waitBlock hcl with ⟨w, hw⟩ | hne
          · exact Or.inl ⟨w, WorkerPc.willNotify_of_unparked (hF w hw)⟩
          · exact Or.inr hne
        | blocked =>
          refine hR c ?_
          rw [hmove.blocked hcl]
          trivial
        | _ =>
          rw [hcl] at hc
          exact hc.elim
      · rw [(hmove.other c hcd).1] at hc
        exact halert (hR c hc)

variable [Fintype G] [Fintype W] [Fintype C] [Fintype S]

theorem reasoned_of_reaches (hs : (system tm C S).Reaches NotifyInTime s) :
    FlagsOk s ∧ Reasoned s := by
  refine hs.invariant (I := fun s => FlagsOk s ∧ Reasoned s) ?_ ?_
  · rintro s rfl
    exact ⟨fun w hw => absurd hw (by simp [initial]), fun c hc => hc.elim⟩
  · rintro s a s' hr ⟨hF, hR⟩ hok h
    refine ⟨flagsOk_step h hF, reasoned_step h hok hF ?_ hR⟩
    rw [(inv_of_reaches hr).counter]
    exact Int.natCast_nonneg _

/-- **No wake-up is lost while the last notification does not fall into the window**, for any
groups, workers, clients and operations: in no state of such a run is a client stuck. -/
theorem not_stuck_of_notifyInTime (tm : Groups G W) (s : State G W C S)
    (hs : (system tm C S).Reaches NotifyInTime s) (c : C) : ¬ Stuck s c := by
  intro hstuck
  obtain ⟨-, hR⟩ := reasoned_of_reaches hs
  rcases hR c (by rw [hstuck.blocked]; trivial) with ⟨w, hw⟩ | hne
  · rw [hstuck.acquire w] at hw
    exact hw
  · exact hne hstuck.counter

end Steps

/-- A client pushes an operation and waits.  It locks the mutex while the worker is not
parked, and blocks before the worker parks: the notification wakes it. -/
def wakeUpInTime : List (Action Unit Unit Unit Unit) :=
  pushByClient none ++ [.worker () none, .worker () none, .worker () none, .worker () none,
    .worker () none, .worker () (some 0), .execReturn (), .worker () none, .worker () none,
    .worker () none, .worker () none, .wait (), .client (), .client (), .client (),
    .worker () none, .worker () none]

theorem not_stuck_wakeUpInTime :
    let s : State Unit Unit Unit Unit :=
      (system oneWorker Unit Unit).replayWithin NotifyInTime initial wakeUpInTime
    s.client () = .relock ∧ ¬ Stuck s () := by
  exact ⟨by decide, not_stuck_of_notifyInTime oneWorker _
    (TransitionSystem.Reaches.replayWithin (.start rfl) wakeUpInTime (by decide)) ()⟩

/-- The same run with the last step of the client put off: the worker parks and
notifies between the test of the predicate and the block. -/
def lostWakeUp : List (Action Unit Unit Unit Unit) :=
  pushByClient none ++ [.worker () none, .worker () none, .worker () none, .worker () none,
    .worker () none, .worker () (some 0), .execReturn (), .worker () none, .worker () none,
    .worker () none, .worker () none, .wait (), .client (), .client (), .worker () none,
    .worker () none, .client ()]

/-- **A lost wake-up**: a reachable state in which the client is stuck. -/
theorem exists_stuck :
    ∃ s, (system oneWorker Unit Unit).Reachable s ∧ Stuck s () := by
  refine ⟨(system oneWorker Unit Unit).replay initial lostWakeUp,
    TransitionSystem.Reachable.replay (.start rfl) lostWakeUp (by decide), ?_⟩
  exact ⟨by decide, by decide, by decide, by decide, by decide⟩

end TaskManager
end ThreadUtils
