import ThreadUtils.Tools.ThreadPool.Ledger
import ThreadUtils.Transition.Semaphores

/-!
# The semaphore of the thread pool

A launch releases the permits of all its jobs in one call, `sem.release(jobs_len)`, and
`tu_tp_fini` one for each worker.  A worker acquires one permit and then pops jobs until the
queue is empty.

A worker that takes many jobs for one permit leaves the permits of the others in the counter, so
that the counter is not bounded by the number of the jobs in the queue.  It may grow for ever while
all jobs are done in time.

A launch of `n` jobs raises the counter by `n` at once, and a client may launch as many as it likes.
While the workers do nothing the counter is therefore what was launched, and a run that
releases no more than a given number of permits is safe if that number is the maximum at most.
-/

namespace ThreadUtils
namespace ThreadPool

open TransitionSystem

variable {C H W : Type*}

/-- The permits that an access of a client releases. -/
def ClientPc.released (pool : Pool C H W) : ClientPc H W → ℕ
  | .release n => n
  | .finiRelease => pool.workers.length
  | _ => 0

/-- The permit that an access of a worker acquires. -/
def WorkerPc.acquired : WorkerPc H → ℕ
  | .acquire => 1
  | _ => 0

/-- The permits that a step releases. -/
def State.released (pool : Pool C H W) (s : State C H W) : Action C H W → ℕ
  | .client c => (s.client c).released pool
  | _ => 0

/-- The permit that a step acquires. -/
def State.acquired (s : State C H W) : Action C H W → ℕ
  | .worker w => (s.worker w).acquired
  | _ => 0

variable [DecidableEq C] [DecidableEq H] [DecidableEq W] {pool : Pool C H W} {s s' : State C H W}

theorem sem_of_clientStep {c : C} (h : s.clientStep pool c = some s') :
    s'.sem = s.sem + (s.client c).released pool := by
  unfold State.clientStep at h
  generalize s.client c = pc at h ⊢
  split at h
  case h_1 | h_2 => cases h
  case h_7 | h_8 =>
    obtain ⟨u, hlock, rfl⟩ := Option.map_eq_some_iff.mp h
    obtain ⟨-, rfl⟩ := lock_eq_some hlock
    rfl
  case h_15 =>
    obtain ⟨-, h⟩ := Option.ite_none_right_eq_some.mp h
    obtain rfl := Option.some.inj h
    rfl
  all_goals
    obtain rfl := Option.some.inj h
    rfl

omit [DecidableEq C] in
theorem sem_of_workerStep {w : W} (h : s.workerStep w = some s') :
    s'.sem + (s.worker w).acquired = s.sem := by
  unfold State.workerStep at h
  generalize s.worker w = pc at h ⊢
  split at h
  case h_1 =>
    obtain ⟨hpos, h⟩ := Option.ite_none_right_eq_some.mp h
    obtain rfl := Option.some.inj h
    exact Nat.sub_add_cancel hpos
  case h_3 => split at h <;> cases h <;> rfl
  case h_6 =>
    obtain ⟨u, hlock, rfl⟩ := Option.map_eq_some_iff.mp h
    obtain ⟨-, rfl⟩ := lock_eq_some hlock
    rfl
  all_goals
    cases h <;> rfl

theorem sem_of_step {a : Action C H W} (h : step pool s a = some s') :
    (s.acquired a = 0 ∧ s'.sem = s.sem + s.released pool a) ∨
      (s.released pool a = 0 ∧ s'.sem + s.acquired a = s.sem) := by
  cases a with
  | worker w => exact Or.inr ⟨rfl, sem_of_workerStep h⟩
  | client c => exact Or.inl ⟨rfl, sem_of_clientStep h⟩
  | wake c =>
    obtain ⟨handle, -, rfl⟩ := wake_eq_some pool h
    exact Or.inl ⟨rfl, rfl⟩
  | exec c h' | lauch c h' n | opWait c h' | fini c =>
    obtain ⟨-, h⟩ := Option.ite_none_right_eq_some.mp h
    obtain rfl := Option.some.inj h
    exact Or.inl ⟨rfl, rfl⟩

/-- The semaphore of the pool. -/
def semaphores (pool : Pool C H W) : Semaphores (system pool) ℕ where
  counter := State.sem
  released := State.released pool
  acquired := State.acquired
  counter_init := by
    rintro s rfl
    rfl
  counter_step _ _ _ := sem_of_step

/-! ## A launch that nobody answers -/

/-- The pushes of a launch release nothing. -/
theorem exists_path_push (pool : Pool C H W) {c : C} {rest : List (Operation H)} {n : ℕ}
    (hpc : s.client c = .push rest n) :
    ∃ trace s', (system pool).Path (fun u a => u.acquired a = 0) s trace s' ∧
      s'.client c = .push [] n ∧ s'.sem = s.sem := by
  induction rest generalizing s with
  | nil => exact ⟨[], s, .nil s, hpc, rfl⟩
  | cons op rest ih =>
    let u : State C H W := { s.clientGoto c (.push rest n) with queue := s.queue ++ [op] }
    have hstep : (system pool).step s (.client c) = some u := by
      show s.clientStep pool c = some u
      unfold State.clientStep
      rw [hpc]
    obtain ⟨trace, s', p, hpc', hsem⟩ := ih (s := u) (Function.update_self _ _ _)
    have p₁ : (system pool).Path (fun u a => u.acquired a = 0) s _ u := .single rfl hstep
    exact ⟨_, s', p₁.trans p, hpc', hsem⟩

/-- A launch of as many jobs as one likes. -/
theorem exists_path_lauch (pool : Pool C H W) (c : C) (h : H) (n : ℕ) :
    ∃ trace s', (system pool).Path (fun u a => u.acquired a = 0) initial trace s' ∧
      s'.sem = n := by
  let s₁ : State C H W := initial.clientGoto c (.setCount h n)
  have hidle : (initial : State C H W).client c = .idle := rfl
  have h₁ : (system pool).step initial (.lauch c h n) = some s₁ := by
    show step pool initial (.lauch c h n) = some s₁
    rw [step, if_pos hidle]
  have hpc₁ : s₁.client c = .setCount h n := Function.update_self _ _ _
  obtain ⟨s₂, h₂, hpc₂, hsem₂⟩ : ∃ s₂, (system pool).step s₁ (.client c) = some s₂ ∧
      s₂.client c = .push (launchedJobs s₁.issued h n) n ∧ s₂.sem = s₁.sem := by
    have hstep : (system pool).step s₁ (.client c) = s₁.clientStep pool c := rfl
    rw [hstep]
    unfold State.clientStep
    rw [hpc₁]
    exact ⟨_, rfl, Function.update_self _ _ _, rfl⟩
  obtain ⟨trace, s₃, q, hpc₃, hsem₃⟩ := exists_path_push pool hpc₂
  have h₄ : (system pool).step s₃ (.client c) = some (s₃.clientGoto c (.release n)) := by
    show s₃.clientStep pool c = _
    unfold State.clientStep
    rw [hpc₃]
  let s₄ : State C H W := s₃.clientGoto c (.release n)
  have hpc₄ : s₄.client c = .release n := Function.update_self _ _ _
  have h₅ : (system pool).step s₄ (.client c) =
      some { s₄.clientGoto c .idle with sem := s₄.sem + n } := by
    show s₄.clientStep pool c = _
    unfold State.clientStep
    rw [hpc₄]
  have p₁ : (system pool).Path (fun u a => u.acquired a = 0) initial _ s₁ := .single rfl h₁
  refine ⟨_, _, ((((p₁.snoc rfl h₂).trans q).snoc rfl h₄).snoc rfl h₅), ?_⟩
  show s₃.sem + n = n
  rw [hsem₃, hsem₂]
  exact Nat.zero_add n

/-- **The exact budget of the thread pool.** -/
theorem safeWithin_iff (pool : Pool C H W) (c : C) (h : H) {m b : ℕ} :
    (semaphores pool).SafeWithin m b ↔ b ≤ m := by
  refine Semaphores.safeWithin_iff fun hlt => ?_
  obtain ⟨trace, s', p, hsem⟩ := exists_path_lauch pool c h b
  exact ⟨initial, trace, s', rfl, p, hsem.le, fun hle => hlt (hsem ▸ hle)⟩

end ThreadPool
end ThreadUtils
