import ThreadUtils.Tools.ThreadPool.Completion

/-!
# The last use of a handle

After its decrement a worker tests the counter of the handle, may notify and unlocks the mutex.
`tu_tp_op_wait` returns with the mutex in its hands, so that no worker is in there any more.
`tu_tp_op_done` reads the counter without the mutex, and may return true while the last worker
has still to do these steps.

## What the owner may conclude

The owner of a handle wants to destroy it when its jobs are done.  So the question is whether a
worker makes another step on the handle, and `State.Retired` says that none does, for all runs that
follow without a new launch.  The comment in `tu_tp_progress_op` names this danger: the lock is not
given up before the notification.  This protects the owner that waits, not the one that polls.

## The proof

When the counter is zero all jobs of the handle are recorded, so no worker carries one, none is in
the queue, and no launch has one to push (`State.Off`).  Without a launch none comes back
(`State.Off.of_step`).  What is left is a worker between its decrement and its unlock, which is one
that holds the mutex; there is one at most, and after its unlock it is gone.

* `handle_retired` --- when no worker makes a step on a handle any more: always after
  `tu_tp_op_wait`, and after `tu_tp_op_done` exactly when no worker holds the mutex.
-/

namespace ThreadUtils
namespace ThreadPool

variable {C H W : Type*}

/-- The next access of the worker is one of the handle `h`. -/
def WorkerPc.touches (h : H) : WorkerPc H → Prop
  | .lock op | .decrement op => op.handle = h
  | .test h' | .notify h' | .unlock h' => h' = h
  | _ => False

/-- The worker works for the handle `h`. -/
def WorkerPc.concerns (h : H) : WorkerPc H → Prop
  | .exec op | .execReturn op | .lock op | .decrement op => op.handle = h
  | .test h' | .notify h' | .unlock h' => h' = h
  | _ => False

/-- The client is in a launch on the handle `h` and has still jobs to push. -/
def ClientPc.concerns (h : H) : ClientPc H W → Prop
  | .setCount h' _ => h' = h
  | .push rest _ => ∃ op ∈ rest, op.handle = h
  | _ => False

/-- The step is a call that launches jobs on the handle `h`. -/
def Action.launches (h : H) : Action C H W → Prop
  | .exec _ h' | .lauch _ h' _ => h' = h
  | _ => False

/-- There is no work for the handle `h` anywhere. -/
structure State.Off (s : State C H W) (h : H) : Prop where
  worker : ∀ w, ¬ (s.worker w).concerns h
  queue : ∀ op ∈ s.queue, op.handle ≠ h
  client : ∀ c, ¬ (s.client c).concerns h

theorem WorkerPc.touches.concerns {h : H} {pc : WorkerPc H} (ht : pc.touches h) :
    pc.concerns h := by
  cases pc with
  | acquire | checkTerminate | pop | exec | execReturn | exited => exact ht.elim
  | _ => exact ht

variable [DecidableEq C] [DecidableEq H] [DecidableEq W] {pool : Pool C H W}
  {s s' : State C H W} {h : H}

/-- Unless the handle `h` is launched again, no worker makes a step on it. -/
def State.Retired (pool : Pool C H W) (s : State C H W) (h : H) : Prop :=
  ∀ trace s', (system pool).Path (fun _ a => ¬ a.launches h) s trace s' → ∀ t ∈ trace, ∀ w,
    t.action = .worker w → ¬ (t.source.worker w).touches h

/-! ## No work comes back -/

omit [DecidableEq C] in
/-- What a worker works for it has worked for before, or it is in the queue. -/
theorem concerns_of_workerStep {w : W} (hstep : s.workerStep w = some s')
    (hc : (s'.worker w).concerns h) :
    (s.worker w).concerns h ∨ ∃ op ∈ s.queue, op.handle = h := by
  unfold State.workerStep at hstep
  cases hpc : s.worker w with
  | acquire =>
    rw [hpc] at hstep
    obtain ⟨-, hs'⟩ := Option.ite_none_right_eq_some.mp hstep
    obtain rfl := Option.some.inj hs'
    simp only [State.goto, Function.update_self] at hc
    exact hc.elim
  | checkTerminate =>
    rw [hpc] at hstep
    obtain rfl := Option.some.inj hstep
    simp only [State.goto, Function.update_self] at hc
    split at hc
    · exact hc.elim
    · exact hc.elim
  | pop =>
    rw [hpc] at hstep
    dsimp only at hstep
    split at hstep
    · next op rest hq =>
      obtain rfl := Option.some.inj hstep
      simp only [State.goto, Function.update_self] at hc
      exact Or.inr ⟨op, hq ▸ List.mem_cons_self, hc⟩
    · obtain rfl := Option.some.inj hstep
      simp only [State.goto, Function.update_self] at hc
      exact hc.elim
  | lock op =>
    rw [hpc] at hstep
    obtain ⟨t, -, rfl⟩ := Option.map_eq_some_iff.mp hstep
    simp only [State.goto, Function.update_self] at hc
    exact Or.inl hc
  | test h' =>
    rw [hpc] at hstep
    obtain rfl := Option.some.inj hstep
    simp only [State.goto, Function.update_self] at hc
    split at hc
    · exact Or.inl hc
    · exact Or.inl hc
  | unlock h' =>
    rw [hpc] at hstep
    obtain rfl := Option.some.inj hstep
    simp only [State.goto, Function.update_self] at hc
    exact hc.elim
  | exited =>
    rw [hpc] at hstep
    cases hstep
  | exec | execReturn | decrement | notify =>
    rw [hpc] at hstep
    obtain rfl := Option.some.inj hstep
    simp only [State.goto, Function.update_self] at hc
    exact Or.inl hc

omit [DecidableEq C] in
theorem State.Off.workerStep (hoff : s.Off h) {w : W} (hstep : s.workerStep w = some s') :
    s'.Off h := by
  obtain ⟨pc, he⟩ := workerEffect_of_step hstep
  refine ⟨fun v hv => ?_, fun op hop => hoff.queue op (he.queue op hop), fun c hc => ?_⟩
  · by_cases hvw : v = w
    · subst hvw
      rcases concerns_of_workerStep hstep hv with hold | ⟨op, hop, hh⟩
      · exact hoff.worker v hold
      · exact hoff.queue op hop hh
    · rw [he.worker, Function.update_of_ne hvw] at hv
      exact hoff.worker v hv
  · rcases he.client c with heq | ⟨h', -, hrelock⟩
    · exact hoff.client c (heq ▸ hc)
    · rw [hrelock] at hc
      exact hc

omit [DecidableEq H] [DecidableEq W] in
/-- A client moves, and may push a job. -/
theorem State.Off.move (hoff : s.Off h) (hworker : s'.worker = s.worker) {c : C}
    {p : ClientPc H W} (hclient : s'.client = Function.update s.client c p)
    (hp : ¬ p.concerns h) (hqueue : ∀ op ∈ s'.queue, op.handle ≠ h) : s'.Off h := by
  refine ⟨fun w => hworker ▸ hoff.worker w, hqueue, fun d hd => ?_⟩
  rw [hclient] at hd
  by_cases hdc : d = c
  · subst hdc
    rw [Function.update_self] at hd
    exact hp hd
  · rw [Function.update_of_ne hdc] at hd
    exact hoff.client d hd

theorem State.Off.clientStep (hoff : s.Off h) {c : C} (hstep : s.clientStep pool c = some s') :
    s'.Off h := by
  have hc := hoff.client c
  unfold State.clientStep at hstep
  split at hstep
  case h_1 | h_2 => cases hstep
  case h_3 =>
    next handle n hpc =>
    obtain rfl := Option.some.inj hstep
    rw [hpc] at hc
    refine hoff.move (c := c) rfl rfl ?_ hoff.queue
    rintro ⟨op, hop, hh⟩
    exact hc ((mem_launchedJobs.mp hop).1.symm.trans hh)
  case h_4 =>
    next op rest n hpc =>
    obtain rfl := Option.some.inj hstep
    rw [hpc] at hc
    refine hoff.move (c := c) rfl rfl ?_ fun op' hop' => ?_
    · rintro ⟨op', hop', hh⟩
      exact hc ⟨op', List.mem_cons_of_mem _ hop', hh⟩
    · rcases List.mem_append.mp hop' with hop' | hop'
      · exact hoff.queue op' hop'
      · obtain rfl := List.mem_singleton.mp hop'
        exact fun hh => hc ⟨op', List.mem_cons_self, hh⟩
  case h_7 | h_8 =>
    obtain ⟨t, hlock, rfl⟩ := Option.map_eq_some_iff.mp hstep
    obtain ⟨-, rfl⟩ := lock_eq_some hlock
    exact hoff.move (c := c) rfl rfl id hoff.queue
  case h_9 =>
    obtain rfl := Option.some.inj hstep
    refine hoff.move (c := c) rfl rfl ?_ hoff.queue
    split
    · exact id
    · exact id
  case h_15 =>
    obtain ⟨-, hs'⟩ := Option.ite_none_right_eq_some.mp hstep
    obtain rfl := Option.some.inj hs'
    exact hoff.move (c := c) rfl rfl id hoff.queue
  all_goals
    obtain rfl := Option.some.inj hstep
    exact hoff.move (c := c) rfl rfl id hoff.queue

/-- **Without a launch no work for the handle appears.** -/
theorem State.Off.of_step (hoff : s.Off h) {a : Action C H W} (ha : ¬ a.launches h)
    (hstep : step pool s a = some s') : s'.Off h := by
  cases a with
  | worker w => exact hoff.workerStep hstep
  | exec c handle | lauch c handle n =>
    obtain ⟨-, hs'⟩ := Option.ite_none_right_eq_some.mp hstep
    obtain rfl := Option.some.inj hs'
    exact hoff.move (c := c) rfl rfl ha hoff.queue
  | opWait c handle | fini c =>
    obtain ⟨-, hs'⟩ := Option.ite_none_right_eq_some.mp hstep
    obtain rfl := Option.some.inj hs'
    exact hoff.move (c := c) rfl rfl id hoff.queue
  | client c => exact hoff.clientStep hstep
  | wake c =>
    obtain ⟨handle, -, rfl⟩ := wake_eq_some pool hstep
    exact hoff.move (c := c) rfl rfl id hoff.queue

theorem State.Off.retired (hoff : s.Off h) : s.Retired pool h := by
  intro trace s' p
  obtain ⟨-, hall⟩ := p.invariant
    (I := fun tr u => u.Off h ∧
      ∀ t ∈ tr, ∀ w, t.action = .worker w → ¬ (t.source.worker w).touches h)
    ⟨hoff, fun t ht => absurd ht List.not_mem_nil⟩ fun tr u a u' hI ha hstep => by
      refine ⟨hI.1.of_step ha hstep, fun t ht w hw => ?_⟩
      rcases List.mem_append.mp ht with ht | ht
      · exact hI.2 t ht w hw
      · obtain rfl := List.mem_singleton.mp ht
        exact fun htouch => hI.1.worker w htouch.concerns
  exact hall

/-! ## When the handle is done -/

/-- A worker inside the critical section goes on. -/
theorem State.Retired.not_locks (hr : s.Retired pool h) (w : W) : ¬ (s.worker w).locks h := by
  intro hw
  obtain ⟨s', hstep⟩ : ∃ s', (system pool).step s (.worker w) = some s' := by
    show ∃ s', s.workerStep w = some s'
    unfold State.workerStep
    cases hpc : s.worker w with
    | decrement | test | notify | unlock => exact ⟨_, rfl⟩
    | _ =>
      rw [hpc] at hw
      exact hw.elim
  refine hr _ s' (.single id hstep) _ (List.mem_singleton.mpr rfl) w rfl ?_
  cases hpc : s.worker w with
  | decrement | test | notify | unlock =>
    rw [hpc] at hw
    exact hw
  | _ =>
    rw [hpc] at hw
    exact hw.elim

variable [Fintype C] [Fintype W]

omit [DecidableEq C] [DecidableEq H] [DecidableEq W] in
/-- **All jobs recorded**: what is left is to leave the critical section. -/
theorem Ledger.off (hL : Ledger s) (hall : s.AllRecorded h)
    (hlaunch : ∀ c n, s.client c ≠ .setCount h n) (hfree : ∀ w, ¬ (s.worker w).locks h) :
    s.Off h := by
  have hdone : ∀ op : Operation H, op.uid ∈ s.jobs op.handle → 0 < s.pending op.uid →
      op.handle ≠ h := by
    rintro op hjob hpos rfl
    exact hL.notMem_recorded hpos (hall _ hjob)
  have hcarried : ∀ w, ∀ op ∈ (s.worker w).carried, op.handle ≠ h := fun w op hop =>
    hdone op (hL.carried w op hop) (pending_pos_of_carried hop)
  refine ⟨fun w hw => ?_, fun op hop => ?_, fun c hc => ?_⟩
  · have hlocks := hfree w
    have hops := hcarried w
    cases hpc : s.worker w with
    | exec op | execReturn op | lock op | decrement op =>
      rw [hpc] at hw hops
      exact hops op (List.mem_singleton.mpr rfl) hw
    | test h' | notify h' | unlock h' =>
      rw [hpc] at hw hlocks
      exact hlocks hw
    | acquire | checkTerminate | pop | exited =>
      rw [hpc] at hw
      exact hw
  · refine hdone op (hL.queue op hop) ?_
    have hpos := marks_pos hop
    unfold State.pending
    omega
  · cases hpc : s.client c with
    | setCount h' n =>
      rw [hpc] at hc
      obtain rfl : h' = h := hc
      exact hlaunch c n hpc
    | push rest n =>
      rw [hpc] at hc
      obtain ⟨op, hop, hh⟩ := hc
      have hop' : op ∈ (s.client c).rest := by
        rw [hpc]
        exact hop
      refine hdone op (hL.rest c op hop') ?_ hh
      have hpos := marks_pos hop'
      have hle := le_sum_apply (fun c => marks op.uid (s.client c).rest) c
      unfold State.pending
      omega
    | _ =>
      rw [hpc] at hc
      exact hc

/-- **The last use of a handle.**  Once `tu_tp_op_done` is true of a launch, no worker makes a
step on the handle exactly if none holds its mutex; and none does once `tu_tp_op_wait` has
returned. -/
theorem handle_retired (pool : Pool C H W) {s : State C H W}
    (hs : (system pool).Reaches (OneAtATime pool) s) (h : H) :
    ((∀ c n, s.client c ≠ .setCount h n) → s.opDone h = true →
      (s.Retired pool h ↔ ∀ w, s.mutex h ≠ some (.inl w))) ∧
    ∀ c s', s.client c = .waitReturn h → (system pool).step s (.client c) = some s' →
      s'.Retired pool h := by
  obtain ⟨hL, hO⟩ := counted_of_oneAtATime hs
  have hown := owns_of_reaches hs h
  constructor
  · intro hlaunch hdone
    have hall := (hL.allRecorded_iff h).mp (of_decide_eq_true hdone)
    constructor
    · intro hretired w hw
      exact hretired.not_locks w ((hown (.inl w)).mpr hw)
    · intro hfree
      exact (hL.off hall hlaunch fun w hw => hfree w ((hown (.inl w)).mp hw)).retired
  · intro c s' hpc hstep
    have hlock : s.mutex h = some (.inr c) := by
      refine (hown (.inr c)).mp ?_
      rw [State.Holds, hpc]
      rfl
    have hoff : s.Off h := by
      refine hL.off (hO.waitReturn c h hpc) (fun d n hd => ?_) fun w hw => ?_
      · have hd' := hO.owner d h (by rw [hd]; rfl)
        have hc' := hO.owner c h (by rw [hpc]; rfl)
        obtain rfl : d = c := hd'.symm.trans hc'
        rw [hpc] at hd
        cases hd
      · have hw' := (hown (.inl w)).mp hw
        rw [hlock] at hw'
        cases hw'
    exact (hoff.of_step (a := .client c) id hstep).retired

/-- The client launches a job, and the worker comes to the test after its decrement. -/
def lastJob : List (Action Unit Unit Unit) :=
  [.lauch () () 1] ++ List.replicate 4 (.client ()) ++ List.replicate 7 (.worker ())

/-- The state in which the worker has yet to unlock the mutex. -/
def beforeUnlock : State Unit Unit Unit :=
  (system onePool).replayWithin (OneAtATime onePool) initial lastJob

/-- The state in which `tu_tp_op_wait` is about to return. -/
def beforeReturn : State Unit Unit Unit :=
  (system onePool).replayWithin (OneAtATime onePool) initial launchAndWait

theorem reaches_beforeUnlock : (system onePool).Reaches (OneAtATime onePool) beforeUnlock :=
  .replayWithin (.start rfl) lastJob (by decide)

theorem handle_retired_beforeReturn :
    (beforeUnlock.opDone () = true ∧
      (beforeUnlock.Retired onePool () ↔ ∀ w, beforeUnlock.mutex () ≠ some (.inl w))) ∧
    ∃ s', (system onePool).step beforeReturn (.client ()) = some s' ∧ s'.Retired onePool () := by
  have hs : (system onePool).Reaches (OneAtATime onePool) beforeReturn :=
    .replayWithin (.start rfl) launchAndWait (by decide)
  have hidle : beforeUnlock.client () = .idle := by decide
  constructor
  · refine ⟨by decide, (handle_retired onePool reaches_beforeUnlock ()).1 (fun c n hc => ?_)
      (by decide)⟩
    rw [hidle] at hc
    cases hc
  · exact ⟨_, rfl, (handle_retired onePool hs ()).2 () _ (by decide) rfl⟩

/-- **`tu_tp_op_done` returns true too early**: the worker has still the mutex to unlock. -/
theorem exists_not_retired : ∃ s : State Unit Unit Unit,
    (system onePool).Reaches (OneAtATime onePool) s ∧ s.client () = .idle ∧
      s.opDone () = true ∧ ¬ s.Retired onePool () := by
  have hpc : beforeUnlock.worker () = .test () := by decide
  refine ⟨beforeUnlock, reaches_beforeUnlock, by decide, by decide, fun hr => ?_⟩
  refine hr.not_locks () ?_
  rw [hpc]
  rfl

end ThreadPool
end ThreadUtils
