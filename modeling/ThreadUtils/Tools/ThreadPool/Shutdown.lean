import ThreadUtils.Tools.ThreadPool.Mutex
import ThreadUtils.Transition.Fairness
import ThreadUtils.Transition.Permits

/-!
# Shutdown of a thread pool

`tu_tp_fini` stores `can_terminate` in every worker, releases one permit for each of them
and joins them.  Permits for jobs and permits for the termination are the same, but a worker
takes one more permit at most once its flag is set, so that there are enough of them.

## The permits

Once the flags are set, a worker will call `acquire` once more, unless it has just returned from it
and is about to read its flag (`WorkerPc.owes`).  After the release there is a permit for each of
the workers that will (`ShutDown`), and this stays so: a worker that takes a permit reads its flag
next and exits, so it takes no second one, and the other steps release permits, if anything.  That
jobs are launched meanwhile only adds permits.

## Nobody is held up

A worker can also be held up at the mutex of a handle, by a thread that is not: no wait blocks
inside its critical section, and the steps of a worker inside it are always possible
(`isSome_of_holds`).  So a fair run leads out of it (`exists_mutex_free`).

## The end

That the joins return is a statement about infinite runs in which every thread moves on when it can.
A worker on its way goes through the jobs that are left, and each step of it takes a job or leads on
to the next acquire (`WorkerDescends`).  New jobs could keep it busy, so the launches have to end at
some time; and the jobs themselves have to return, which is part of the model, where the execution
of a job is a step.
-/

namespace ThreadUtils
namespace ThreadPool

variable {C H W : Type*}

/-! ## The permits -/

/-- The worker will call `sem.acquire()` again, once its flag is set. -/
def WorkerPc.owes : WorkerPc H → Bool
  | .checkTerminate | .exited => false
  | _ => true

/-- The pool was shut down: the flags are stored and there is a permit for each worker that
has yet to return from an acquire. -/
structure ShutDown (pool : Pool C H W) (s : State C H W) : Prop where
  canTerminate : ∀ w, s.canTerminate w = true
  permits : owing WorkerPc.owes pool.workers s.worker ≤ s.sem

/-- What `tu_tp_fini` has stored on its way. -/
def ClientPc.Stored (canTerminate : W → Bool) : ClientPc H W → Prop
  | .finiStore rest => ∀ w, w ∈ rest ∨ canTerminate w = true
  | .finiRelease => ∀ w, canTerminate w = true
  | _ => True

variable {pool : Pool C H W} {s s' : State C H W}

theorem ClientPc.Stored.mono {canTerminate canTerminate' : W → Bool} {pc : ClientPc H W}
    (h : pc.Stored canTerminate) (hmono : ∀ w, canTerminate w = true → canTerminate' w = true) :
    pc.Stored canTerminate' := by
  cases pc with
  | finiStore rest => exact fun w => (h w).imp_right (hmono w)
  | finiRelease => exact fun w => hmono w (h w)
  | _ => trivial

variable [DecidableEq C] [DecidableEq H] [DecidableEq W]

/-- A step of a client moves that client, and may set flags and release permits. -/
structure ClientEffect (pool : Pool C H W) (s : State C H W) (c : C) (s' : State C H W)
    (p : ClientPc H W) : Prop where
  client : s'.client = Function.update s.client c p
  worker : s'.worker = s.worker
  canTerminate : ∀ w, s.canTerminate w = true → s'.canTerminate w = true
  sem : s.sem ≤ s'.sem
  stored : (s.client c).Stored s.canTerminate → p.Stored s'.canTerminate
  jobs : s'.issued = s.issued →
    p.rest.length + s'.queue.length ≤ (s.client c).rest.length + s.queue.length

omit [DecidableEq C] [DecidableEq H] [DecidableEq W] in
/-- `tu_tp_lauch` of no jobs has none to push. -/
theorem launchedJobs_of_issued {issued n : ℕ} (h : H) (hn : issued + n = issued) :
    launchedJobs issued h n = [] := by
  obtain rfl : n = 0 := by omega
  rfl

theorem clientEffect_of_step {c : C} (h : s.clientStep pool c = some s') :
    ∃ p, ClientEffect pool s c s' p := by
  unfold State.clientStep at h
  split at h
  case h_1 => cases h
  case h_2 => cases h
  case h_3 =>
    next handle n hpc =>
    obtain rfl := Option.some.inj h
    refine ⟨_, rfl, rfl, fun _ => id, le_rfl, fun _ => trivial, fun hn => ?_⟩
    show (launchedJobs s.issued handle n).length + s.queue.length ≤ _
    rw [launchedJobs_of_issued handle hn]
    exact Nat.add_le_add_right (Nat.zero_le _) _
  case h_4 =>
    next op rest n hpc =>
    obtain rfl := Option.some.inj h
    refine ⟨.push rest n, rfl, rfl, fun _ => id, le_rfl, fun _ => trivial, fun _ => ?_⟩
    rw [hpc, List.length_append]
    show rest.length + (s.queue.length + 1) ≤ rest.length + 1 + s.queue.length
    omega
  case h_7 | h_8 =>
    next handle hpc =>
    obtain ⟨t, hlock, rfl⟩ := Option.map_eq_some_iff.mp h
    obtain ⟨-, rfl⟩ := lock_eq_some hlock
    exact ⟨.waitTest handle, rfl, rfl, fun _ => id, le_rfl, fun _ => trivial,
      fun _ => by rw [hpc]; rfl⟩
  case h_9 =>
    next handle hpc =>
    obtain rfl := Option.some.inj h
    refine ⟨_, rfl, rfl, fun _ => id, le_rfl, fun _ => ?_, fun _ => ?_⟩
    · split <;> trivial
    · rw [hpc]
      split <;> exact le_rfl
  case h_6 =>
    next n hpc =>
    obtain rfl := Option.some.inj h
    exact ⟨.idle, rfl, rfl, fun _ => id, Nat.le_add_right _ _, fun _ => trivial,
      fun _ => by rw [hpc]; rfl⟩
  case h_12 =>
    next w rest hpc =>
    obtain rfl := Option.some.inj h
    refine ⟨.finiStore rest, rfl, rfl, fun v hv => ?_, le_rfl, fun hstored v => ?_,
      fun _ => by rw [hpc]; rfl⟩
    · show Function.update s.canTerminate w true v = true
      by_cases hvw : v = w
      · rw [hvw, Function.update_self]
      · rwa [Function.update_of_ne hvw]
    · show v ∈ rest ∨ Function.update s.canTerminate w true v = true
      rw [hpc] at hstored
      by_cases hvw : v = w
      · rw [hvw, Function.update_self]
        exact Or.inr rfl
      · rw [Function.update_of_ne hvw]
        exact (hstored v).imp_left fun hmem => (List.mem_cons.mp hmem).resolve_left hvw
  case h_13 =>
    next hpc =>
    obtain rfl := Option.some.inj h
    refine ⟨.finiRelease, rfl, rfl, fun _ => id, le_rfl, fun hstored v => ?_,
      fun _ => by rw [hpc]; rfl⟩
    rw [hpc] at hstored
    exact (hstored v).resolve_left List.not_mem_nil
  case h_14 =>
    next hpc =>
    obtain rfl := Option.some.inj h
    exact ⟨.finiJoin pool.workers, rfl, rfl, fun _ => id, Nat.le_add_right _ _, fun _ => trivial,
      fun _ => by rw [hpc]; rfl⟩
  case h_15 =>
    next w rest hpc =>
    split at h
    · obtain rfl := Option.some.inj h
      exact ⟨.finiJoin rest, rfl, rfl, fun _ => id, le_rfl, fun _ => trivial,
        fun _ => by rw [hpc]; rfl⟩
    · cases h
  case h_5 =>
    next n hpc =>
    obtain rfl := Option.some.inj h
    exact ⟨.release n, rfl, rfl, fun _ => id, le_rfl, fun _ => trivial, fun _ => by rw [hpc]; rfl⟩
  case h_10 =>
    next handle hpc =>
    obtain rfl := Option.some.inj h
    exact ⟨.blocked handle, rfl, rfl, fun _ => id, le_rfl, fun _ => trivial,
      fun _ => by rw [hpc]; rfl⟩
  case h_11 | h_16 =>
    next hpc =>
    obtain rfl := Option.some.inj h
    exact ⟨.idle, rfl, rfl, fun _ => id, le_rfl, fun _ => trivial, fun _ => by rw [hpc]; rfl⟩

/-- The order in which a worker passes its accesses between two jobs. -/
def WorkerPc.rank : WorkerPc H → ℕ
  | .exited => 0
  | .checkTerminate => 1
  | .acquire => 2
  | .pop => 3
  | .unlock _ => 4
  | .notify _ => 5
  | .test _ => 6
  | .decrement _ => 7
  | .lock _ => 8
  | .execReturn _ => 9
  | .exec _ => 10

/-- A step of a worker of a pool that was shut down takes a job, or leads the worker on. -/
structure WorkerDescends (s : State C H W) (w : W) (s' : State C H W) (q : WorkerPc H) : Prop where
  worker : s'.worker = Function.update s.worker w q
  canTerminate : s'.canTerminate = s.canTerminate
  client : ∀ c, s'.client c = s.client c ∨
    ∃ h, s.client c = .blocked h ∧ s'.client c = .relock h
  owes : q.owes = true → (s.worker w).owes = true
  sem : s'.sem = s.sem ∨
    (s.worker w).owes = true ∧ q.owes = false ∧ 0 < s.sem ∧ s'.sem = s.sem - 1
  job : s'.queue.length < s.queue.length ∨ s'.queue = s.queue ∧ q.rank < (s.worker w).rank

omit [DecidableEq C] in
theorem workerDescends_of_step (hflag : s.canTerminate w = true) (h : s.workerStep w = some s') :
    ∃ q, WorkerDescends s w s' q := by
  unfold State.workerStep at h
  split at h
  case h_1 =>
    next hpc =>
    split at h
    · next hpos =>
      obtain rfl := Option.some.inj h
      refine ⟨.checkTerminate, rfl, rfl, fun _ => Or.inl rfl, nofun, Or.inr ⟨?_, rfl, hpos, rfl⟩,
        Or.inr ⟨rfl, ?_⟩⟩
      · rw [hpc]
        rfl
      · rw [hpc]
        exact Nat.lt_succ_self 1
    · cases h
  case h_2 =>
    next hpc =>
    obtain rfl := Option.some.inj h
    refine ⟨.exited, ?_, rfl, fun _ => Or.inl rfl, nofun, Or.inl rfl, Or.inr ⟨rfl, ?_⟩⟩
    · rw [if_pos hflag]
      rfl
    · rw [hpc]
      exact Nat.lt_succ_self 0
  case h_3 =>
    next hpc =>
    split at h
    · next op rest hq =>
      obtain rfl := Option.some.inj h
      refine ⟨.exec op, rfl, rfl, fun _ => Or.inl rfl, fun _ => by rw [hpc]; rfl, Or.inl rfl,
        Or.inl ?_⟩
      rw [hq]
      exact Nat.lt_succ_self _
    · obtain rfl := Option.some.inj h
      exact ⟨.acquire, rfl, rfl, fun _ => Or.inl rfl, fun _ => by rw [hpc]; rfl, Or.inl rfl,
        Or.inr ⟨rfl, by rw [hpc]; exact Nat.lt_succ_self 2⟩⟩
  case h_6 =>
    next op hpc =>
    obtain ⟨t, hlock, rfl⟩ := Option.map_eq_some_iff.mp h
    obtain ⟨-, rfl⟩ := lock_eq_some hlock
    exact ⟨.decrement op, rfl, rfl, fun _ => Or.inl rfl, fun _ => by rw [hpc]; rfl, Or.inl rfl,
      Or.inr ⟨rfl, by rw [hpc]; exact Nat.lt_succ_self 7⟩⟩
  case h_8 =>
    next handle hpc =>
    obtain rfl := Option.some.inj h
    refine ⟨_, rfl, rfl, fun _ => Or.inl rfl, fun _ => by rw [hpc]; rfl, Or.inl rfl,
      Or.inr ⟨rfl, ?_⟩⟩
    rw [hpc]
    split <;> simp [WorkerPc.rank]
  case h_9 =>
    next handle hpc =>
    obtain rfl := Option.some.inj h
    exact ⟨.unlock handle, rfl, rfl, notifyAll_client s handle, fun _ => by rw [hpc]; rfl,
      Or.inl rfl, Or.inr ⟨rfl, by rw [hpc]; exact Nat.lt_succ_self 4⟩⟩
  case h_11 => cases h
  all_goals
    next hpc =>
    obtain rfl := Option.some.inj h
    exact ⟨_, rfl, rfl, fun _ => Or.inl rfl, fun _ => by rw [hpc]; rfl, Or.inl rfl,
      Or.inr ⟨rfl, by rw [hpc]; exact Nat.lt_succ_self _⟩⟩

omit [DecidableEq C] [DecidableEq H] in
theorem ShutDown.worker (hD : ShutDown pool s) {w : W} {q : WorkerPc H}
    (he : WorkerDescends s w s' q) : ShutDown pool s' := by
  refine ⟨?_, ?_⟩
  · rw [he.canTerminate]
    exact hD.canTerminate
  · rw [he.worker]
    rcases he.sem with hsem | ⟨hold, hnew, -, hsem⟩
    · rw [hsem]
      exact (owing_update_le fun _ => he.owes).trans hD.permits
    · have hlt := owing_update_lt (pool.mem_workers w) hold hnew
      have hpermits := hD.permits
      omega

/-- What a step of a client does to the rest of the pool, calls and wake-ups included. -/
theorem clientEffect_of_action {a : Action C H W} (h : step pool s a = some s')
    (ha : ∀ w, a ≠ .worker w) : ∃ c p, ClientEffect pool s c s' p ∧
      (s.client c = .idle ∨ (∃ h, s.client c = .blocked h) ∨ a = .client c) := by
  cases a with
  | worker w => exact absurd rfl (ha w)
  | exec c handle | lauch c handle n | opWait c handle =>
    obtain ⟨hidle, hs'⟩ := Option.ite_none_right_eq_some.mp h
    obtain rfl := Option.some.inj hs'
    exact ⟨c, _, ⟨rfl, rfl, fun _ => id, le_rfl, fun _ => trivial, fun _ => by rw [hidle]; rfl⟩,
      Or.inl hidle⟩
  | fini c =>
    obtain ⟨hidle, hs'⟩ := Option.ite_none_right_eq_some.mp h
    obtain rfl := Option.some.inj hs'
    exact ⟨c, _, ⟨rfl, rfl, fun _ => id, le_rfl, fun _ w => Or.inl (pool.mem_workers w),
      fun _ => by rw [hidle]; rfl⟩, Or.inl hidle⟩
  | client c =>
    obtain ⟨p, he⟩ := clientEffect_of_step h
    exact ⟨c, p, he, Or.inr (Or.inr rfl)⟩
  | wake c =>
    obtain ⟨handle, hb, rfl⟩ := wake_eq_some pool h
    exact ⟨c, _, ⟨rfl, rfl, fun _ => id, le_rfl, fun _ => trivial, fun _ => by rw [hb]; rfl⟩,
      Or.inr (Or.inl ⟨handle, hb⟩)⟩

/-- **Every step keeps the permits.** -/
theorem shutDown_step (hD : ShutDown pool s) {a : Action C H W}
    (h : step pool s a = some s') : ShutDown pool s' := by
  by_cases ha : ∃ w, a = .worker w
  · obtain ⟨w, rfl⟩ := ha
    obtain ⟨q, he⟩ := workerDescends_of_step (hD.canTerminate w) h
    exact hD.worker he
  · obtain ⟨c, p, he, -⟩ := clientEffect_of_action h fun w hw => ha ⟨w, hw⟩
    refine ⟨fun w => he.canTerminate w (hD.canTerminate w), ?_⟩
    rw [he.worker]
    exact hD.permits.trans he.sem

theorem stored_of_reaches {ok : State C H W → Action C H W → Prop}
    (hs : (system pool).Reaches ok s) : ∀ c, (s.client c).Stored s.canTerminate := by
  refine hs.invariant (I := fun s => ∀ c, (s.client c).Stored s.canTerminate) ?_ ?_
  · rintro s rfl c
    trivial
  · intro s a s' _ hI _ h
    by_cases ha : ∃ w, a = .worker w
    · obtain ⟨w, rfl⟩ := ha
      obtain ⟨pc, he⟩ := workerEffect_of_step h
      intro c
      rw [he.canTerminate]
      rcases he.client c with heq | ⟨h', -, hr⟩
      · rw [heq]
        exact hI c
      · rw [hr]
        trivial
    · obtain ⟨c, p, he, -⟩ := clientEffect_of_action h fun w hw => ha ⟨w, hw⟩
      rw [he.client]
      exact forall_update (P := fun _ (q : ClientPc H W) => q.Stored s'.canTerminate)
        (fun d => (hI d).mono he.canTerminate) (he.stored (hI c))

/-! ## The workers are not blocked -/

/-- The next access of a thread. -/
def nextOf : W ⊕ C → Action C H W
  | .inl w => .worker w
  | .inr c => .client c

omit [DecidableEq C] in
/-- A worker can only be held up at a mutex. -/
theorem isSome_workerStep (hD : ShutDown pool s) {w : W} (hw : s.worker w ≠ .exited)
    (hlock : ∀ op, s.worker w = .lock op → s.mutex op.handle = none) :
    (s.workerStep w).isSome := by
  unfold State.workerStep
  cases hpc : s.worker w with
  | acquire =>
    have hpos : 0 < s.sem :=
      (owing_pos (pool.mem_workers w) (by rw [hpc]; rfl)).trans_le hD.permits
    simp [hpos]
  | pop =>
    dsimp only
    split <;> rfl
  | lock op => simp [State.lock, hlock op hpc]
  | exited => exact absurd hpc hw
  | _ => rfl

/-- Nobody is held up in a critical section. -/
theorem isSome_of_holds (hD : ShutDown pool s) {h : H} {t : W ⊕ C} (hold : s.Holds h t) :
    (step pool s (nextOf t)).isSome := by
  cases t with
  | inl w =>
    have hold : (s.worker w).locks h := hold
    refine isSome_workerStep hD ?_ ?_
    · intro hpc
      rw [hpc] at hold
      exact hold
    · intro op hpc
      rw [hpc] at hold
      exact hold.elim
  | inr c =>
    have hold : (s.client c).locks h := hold
    show (s.clientStep pool c).isSome
    unfold State.clientStep
    cases hpc : s.client c with
    | waitTest h' | waitBlock h' | waitReturn h' => rfl
    | _ =>
      rw [hpc] at hold
      exact hold.elim

/-! ## The result -/

/-- The state after `tu_tp_fini` has released its permits, in a call of the client `c`. -/
def Released (pool : Pool C H W) (c : C) (s₁ : State C H W) : Prop :=
  ∃ s₀, (system pool).Reachable s₀ ∧ s₀.client c = .finiRelease ∧
    step pool s₀ (.client c) = some s₁

/-- What shutting down the pool has to achieve. -/
structure ShutsDown (pool : Pool C H W) (c : C) (s₁ : State C H W) : Prop where
  /-- There are always as many permits as workers that have yet to return from an acquire. -/
  permits : ∀ trace s, (system pool).Path (fun _ _ => True) s₁ trace s →
    owing WorkerPc.owes pool.workers s.worker ≤ s.sem
  /-- No worker is blocked, unless on a mutex whose holder is not blocked. -/
  not_blocked : ∀ trace s, (system pool).Path (fun _ _ => True) s₁ trace s →
    ∀ w ∈ pool.workers, s.worker w ≠ .exited → (step pool s (.worker w)).isSome ∨
      ∃ op t, s.worker w = .lock op ∧ s.mutex op.handle = some t ∧
        (step pool s (nextOf t)).isSome
  /-- When the threads move, and no job is launched any more, all joins return. -/
  joins_return : ∀ r : (system pool).Run, r.state 0 = s₁ →
    (∀ t : W ⊕ C, r.Fair (fun _ a => a = nextOf t)) →
    (∃ n, ∀ m, n ≤ m → (r.state m).issued = (r.state n).issued) →
    (∃ n, ∀ w ∈ pool.workers, (r.state n).worker w = .exited) ∧
      ∃ n, (r.state n).client c = .finiJoin []

/-- A client that is in a call and not blocked waits for its own next step. -/
theorem client_of_ne {a : Action C H W} (h : step pool s a = some s') {c : C}
    (hidle : s.client c ≠ .idle) (hblocked : ∀ h, s.client c ≠ .blocked h)
    (ha : a ≠ .client c) : s'.client c = s.client c := by
  by_cases hw : ∃ w, a = .worker w
  · obtain ⟨w, rfl⟩ := hw
    obtain ⟨pc, he⟩ := workerEffect_of_step h
    exact (he.client c).resolve_right fun ⟨h', hb, _⟩ => hblocked h' hb
  · obtain ⟨d, p, he, hd⟩ := clientEffect_of_action h fun w hw' => hw ⟨w, hw'⟩
    have hne : c ≠ d := by
      rintro rfl
      rcases hd with hd | ⟨h', hd⟩ | hd
      · exact hidle hd
      · exact hblocked h' hd
      · exact ha hd
    rw [he.client, Function.update_of_ne hne]

section Liveness

variable {r : (system pool).Run}

/-- A client that has tested the predicate unlocks the mutex. -/
theorem exists_unlock (hfair : ∀ t : W ⊕ C, r.Fair (fun _ a => a = nextOf t)) {n : ℕ} {c : C}
    {h : H} (hpc : (r.state n).client c = .waitBlock h ∨ (r.state n).client c = .waitReturn h) :
    ∃ m, n ≤ m ∧ (r.state m).mutex h = none := by
  obtain ⟨m, hm, hpcm, ha⟩ := (hfair (.inr c)).moves (N := n)
    (Q := fun s => s.client c = .waitBlock h ∨ s.client c = .waitReturn h) hpc
    (fun m _ hQ ha => by
      have hsame := client_of_ne (c := c) (r.step m)
        (by rcases hQ with hQ | hQ <;> simp [hQ]) (by rcases hQ with hQ | hQ <;> simp [hQ]) ha
      rwa [hsame])
    (fun m _ hQ => by
      refine TransitionSystem.enabled_of_isSome (a := .client c) rfl ?_
      show ((r.state m).clientStep pool c).isSome
      unfold State.clientStep
      rcases hQ with hQ | hQ <;> rw [hQ] <;> rfl)
  refine ⟨m + 1, by omega, ?_⟩
  have hstep := r.step m
  rw [ha] at hstep
  change (r.state m).clientStep pool c = _ at hstep
  unfold State.clientStep at hstep
  rcases hpcm with hpcm | hpcm
  all_goals
    rw [hpcm] at hstep
    rw [← Option.some.inj hstep]
    exact Function.update_self ..

/-- **A client leaves its critical section.** -/
theorem exists_mutex_free (hfair : ∀ t : W ⊕ C, r.Fair (fun _ a => a = nextOf t)) {n : ℕ}
    {c : C} {h : H} (hold : (r.state n).Holds h (.inr c)) :
    ∃ m, n ≤ m ∧ (r.state m).mutex h = none := by
  have hold : ((r.state n).client c).locks h := hold
  cases hpc : (r.state n).client c with
  | waitBlock h' =>
    rw [hpc] at hold
    obtain rfl : h' = h := hold
    exact exists_unlock hfair (Or.inl hpc)
  | waitReturn h' =>
    rw [hpc] at hold
    obtain rfl : h' = h := hold
    exact exists_unlock hfair (Or.inr hpc)
  | waitTest h' =>
    rw [hpc] at hold
    obtain rfl : h' = h := hold
    obtain ⟨m, hm, hpcm, ha⟩ := (hfair (.inr c)).moves (N := n)
      (Q := fun s => s.client c = .waitTest h') hpc
      (fun m _ hQ ha => by
        rw [client_of_ne (c := c) (r.step m) (by simp [hQ]) (by simp [hQ]) ha, hQ])
      (fun m _ hQ => by
        refine TransitionSystem.enabled_of_isSome (a := .client c) rfl ?_
        show ((r.state m).clientStep pool c).isSome
        rw [State.clientStep, hQ]
        rfl)
    have hstep := r.step m
    rw [ha] at hstep
    change (r.state m).clientStep pool c = _ at hstep
    rw [State.clientStep, hpcm] at hstep
    have hnext : (r.state (m + 1)).client c = .waitBlock h' ∨
        (r.state (m + 1)).client c = .waitReturn h' := by
      rw [← Option.some.inj hstep]
      show Function.update (r.state m).client c _ c = _ ∨
        Function.update (r.state m).client c _ c = _
      rw [Function.update_self]
      split
      · exact Or.inr rfl
      · exact Or.inl rfl
    obtain ⟨k, hk, hfree⟩ := exists_unlock hfair hnext
    exact ⟨k, by omega, hfree⟩
  | _ =>
    rw [hpc] at hold
    exact hold.elim

end Liveness

/-- Only its own steps move a worker. -/
theorem worker_of_ne {a : Action C H W} (h : step pool s a = some s') {w : W}
    (ha : a ≠ .worker w) : s'.worker w = s.worker w := by
  by_cases hw : ∃ v, a = .worker v
  · obtain ⟨v, rfl⟩ := hw
    obtain ⟨pc, he⟩ := workerEffect_of_step h
    rw [he.worker, Function.update_of_ne]
    rintro rfl
    exact ha rfl
  · obtain ⟨c, p, he, -⟩ := clientEffect_of_action h fun v hv => hw ⟨v, hv⟩
    rw [he.worker]

variable [Fintype C] [Fintype W]

/-- The jobs that are left. -/
def State.jobsLeft (s : State C H W) : ℕ :=
  ∑ c, (s.client c).rest.length + s.queue.length

theorem descends_of_step (hD : ShutDown pool s) {a : Action C H W} (h : step pool s a = some s')
    (hissued : s'.issued = s.issued) : s'.jobsLeft < s.jobsLeft ∨ s'.jobsLeft ≤ s.jobsLeft ∧
      (∑ w, (s'.worker w).rank < ∑ w, (s.worker w).rank ∨
        (∀ w, a ≠ .worker w) ∧ s'.worker = s.worker) := by
  by_cases ha : ∃ w, a = .worker w
  · obtain ⟨w, rfl⟩ := ha
    obtain ⟨q, he⟩ := workerDescends_of_step (hD.canTerminate w) h
    have hrest : ∀ c, (s'.client c).rest = (s.client c).rest := by
      intro c
      rcases he.client c with heq | ⟨h', hb, hr⟩
      · rw [heq]
      · rw [hb, hr]
        rfl
    have hsum : ∑ c, (s'.client c).rest.length = ∑ c, (s.client c).rest.length :=
      Finset.sum_congr rfl fun c _ => by rw [hrest c]
    have hranks := sum_update_exchange WorkerPc.rank s.worker w q
    rw [State.jobsLeft, State.jobsLeft, hsum]
    rcases he.job with hlt | ⟨hq, hlt⟩
    · exact Or.inl (by omega)
    · refine Or.inr ⟨by rw [hq], Or.inl ?_⟩
      rw [he.worker]
      omega
  · have hne : ∀ w, a ≠ .worker w := fun w hw => ha ⟨w, hw⟩
    obtain ⟨c, p, he, -⟩ := clientEffect_of_action h hne
    have hjobs := he.jobs hissued
    have hsum := sum_update_exchange (fun p : ClientPc H W => p.rest.length) s.client c p
    refine Or.inr ⟨?_, Or.inr ⟨hne, he.worker⟩⟩
    rw [State.jobsLeft, State.jobsLeft, he.client]
    omega

/-- **Shutdown.** -/
theorem shutsDown_of_released {c : C} {s₁ : State C H W} (h : Released pool c s₁) :
    ShutsDown pool c s₁ := by
  obtain ⟨s₀, hs₀, hpc, hrelease⟩ := h
  have hstep₁ : (system pool).step s₀ (.client c) = some s₁ := hrelease
  have hs₁ : (system pool).Reachable s₁ := .next hs₀ trivial hstep₁
  have hstored := stored_of_reaches hs₀ c
  rw [hpc] at hstored
  obtain ⟨hD₁, hjoin⟩ : ShutDown pool s₁ ∧ s₁.client c = .finiJoin pool.workers := by
    change s₀.clientStep pool c = some s₁ at hrelease
    rw [State.clientStep, hpc] at hrelease
    obtain rfl := Option.some.inj hrelease
    exact ⟨⟨hstored, owing_le_length.trans (Nat.le_add_left _ _)⟩, Function.update_self ..⟩
  have hpath : ∀ trace s, (system pool).Path (fun _ _ => True) s₁ trace s → ShutDown pool s :=
    fun trace s p => p.invariant (I := fun _ s => ShutDown pool s) hD₁
      fun _ _ _ _ hD _ hstep => shutDown_step hD hstep
  refine ⟨fun trace s p => (hpath trace s p).permits, fun trace s p w _ hne => ?_, ?_⟩
  · have hD := hpath trace s p
    have hown := owns_of_reaches (p.reachable hs₁)
    by_cases hheld : ∃ op, s.worker w = .lock op ∧ s.mutex op.handle ≠ none
    · obtain ⟨op, hlock, hne⟩ := hheld
      obtain ⟨t, ht⟩ := Option.ne_none_iff_exists'.mp hne
      exact Or.inr ⟨op, t, hlock, ht, isSome_of_holds hD ((hown op.handle t).mpr ht)⟩
    · refine Or.inl (isSome_workerStep hD hne fun op hlock => ?_)
      by_contra hne
      exact hheld ⟨op, hlock, hne⟩
  · rintro r hr hfair ⟨n₀, hquiet⟩
    have hreach : ∀ n, (system pool).Reachable (r.state n) := r.reachable (hr ▸ hs₁)
    have hD : ∀ n, ShutDown pool (r.state n) := fun n =>
      r.invariant_from (I := ShutDown pool) (hr ▸ hD₁) (fun m _ hD => shutDown_step hD (r.step m))
        (Nat.zero_le n)
    have hdescends := fun n (hn : n₀ ≤ n) => descends_of_step (hD n) (r.step n) (by
      rw [hquiet (n + 1) (by omega), hquiet n hn])
    -- the workers come to rest
    obtain ⟨n₁, -, hrest⟩ := r.exists_forall_not_lex (P := fun _ a => ∃ w, a = .worker w)
      State.jobsLeft (fun s => ∑ w, (s.worker w).rank)
      (fun n hn => (hdescends n hn).imp_right fun ⟨hjobs, hcases⟩ => ⟨hjobs,
        hcases.elim Nat.le_of_lt fun ⟨_, hsame⟩ => by rw [hsame]⟩)
      (fun n hn ⟨w, hw⟩ => (hdescends n hn).imp_right fun ⟨hjobs, hcases⟩ =>
        ⟨hjobs, hcases.resolve_right fun ⟨hne, _⟩ => hne w hw⟩)
    have hdisabled : ∀ w ∈ pool.workers, ∃ N, ∀ m, N ≤ m →
        ¬ (step pool (r.state m) (.worker w)).isSome := by
      intro w _
      obtain ⟨N, hN⟩ := (hfair (.inl w)).disabled fun m hm ha => hrest m hm ⟨w, ha⟩
      exact ⟨N, fun m hm hsome => hN m hm (TransitionSystem.enabled_of_isSome rfl hsome)⟩
    obtain ⟨N, hN⟩ := r.eventually_all
      (D := fun w s => ¬ (step pool s (.worker w)).isSome) hdisabled
    have hexited : ∀ m, max n₁ N ≤ m → ∀ w, (r.state m).worker w = .exited := by
      intro m hm w
      by_contra hne
      -- otherwise the worker stands at a mutex for ever
      obtain ⟨op, hlock⟩ : ∃ op, (r.state m).worker w = .lock op := by
        by_contra hnolock
        exact hN m (by omega) w (pool.mem_workers w)
          (isSome_workerStep (hD m) hne fun op hop => absurd ⟨op, hop⟩ hnolock)
      have hstays : ∀ k, m ≤ k → (r.state k).worker w = .lock op := fun k hk =>
        r.invariant_from (I := fun s => s.worker w = .lock op) hlock
          (fun j hj hjw => by
            rw [worker_of_ne (r.step j) fun ha => hrest j (by omega) ⟨w, ha⟩, hjw])
          hk
      have hheld : ∀ k, m ≤ k → (r.state k).mutex op.handle ≠ none := by
        intro k hk hfree
        refine hN k (by omega) w (pool.mem_workers w)
          (isSome_workerStep (hD k) ?_ fun op' hop' => ?_)
        · rw [hstays k hk]
          exact nofun
        · rw [hstays k hk] at hop'
          cases hop'
          exact hfree
      obtain ⟨t, ht⟩ := Option.ne_none_iff_exists'.mp (hheld m le_rfl)
      have hold := (owns_of_reaches (hreach m) op.handle t).mpr ht
      cases t with
      | inl v => exact hN m (by omega) v (pool.mem_workers v) (isSome_of_holds (hD m) hold)
      | inr d =>
        obtain ⟨k, hk, hfree⟩ := exists_mutex_free hfair hold
        exact hheld k hk hfree
    refine ⟨⟨max n₁ N, fun w _ => hexited _ le_rfl w⟩, ?_⟩
    have hmove : ∀ n w l, (r.state n).client c = .finiJoin (w :: l) →
        r.action n = .client c → (r.state (n + 1)).client c = .finiJoin l := by
      intro n w l hJ ha
      have hstep := r.step n
      rw [ha] at hstep
      change (r.state n).clientStep pool c = _ at hstep
      rw [State.clientStep, hJ] at hstep
      obtain ⟨-, hs'⟩ := Option.ite_none_right_eq_some.mp hstep
      rw [← Option.some.inj hs']
      exact Function.update_self ..
    have henabled : ∀ n w l, (r.state n).client c = .finiJoin (w :: l) →
        (r.state n).worker w = .exited →
          (system pool).Enabled (fun _ a => a = nextOf (.inr c)) (r.state n) := by
      intro n w l hJ hw
      refine TransitionSystem.enabled_of_isSome (a := .client c) rfl ?_
      show ((r.state n).clientStep pool c).isSome
      simp [State.clientStep, hJ, hw]
    obtain ⟨m, -, hend⟩ := TransitionSystem.Run.joined (hfair (.inr c))
      (J := fun l s => s.client c = .finiJoin l) (D := fun w s => s.worker w = .exited)
      (fun n l hJ ha => by
        rw [client_of_ne (r.step n) (by simp [hJ]) (by simp [hJ]) ha, hJ]) hmove henabled
      (n := 0) (hr ▸ hjoin) fun w _ => ⟨max n₁ N, fun m hm => hexited m hm w⟩
    exact ⟨m, hend⟩

end ThreadPool
end ThreadUtils
