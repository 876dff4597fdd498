import ThreadUtils.Tools.ThreadPool.Waiting

/-!
# Completion of the jobs of a thread pool

One permit may serve many jobs, and many permits may serve none: a worker that got one
takes jobs until it finds the queue empty.  So the permits are not counted against the
jobs.  A queue with jobs is covered by whoever will still look at it: a permit, a worker
that is awake, or a launch that has yet to release its permits.

## Why the cover is enough

A launch pushes all of its jobs before it releases a permit for each of them, so a job that is in
the queue before that has the launch to wait for.  A worker that gives up looking has found the
queue empty, since the calls of the queue are atomic here and a pop fails only if there is nothing
(`awake_or_queue_eq_nil`).  In a state with no launch in progress, no permit and all workers
blocked, the queue is therefore empty; and since no worker carries a job, all jobs are recorded
(`allRecorded_of_quiescent`).

## What the waits rely on

A client blocks in `tu_tp_op_wait` if the counter of its handle is not zero.  The worker that brings
it to zero does so under the mutex and notifies all, so no client stays blocked when the counter is
zero.  That the counter says what it should is the ledger of the jobs, and it is the ledger that
needs the protocol of the clients.
-/

namespace ThreadUtils
namespace ThreadPool

variable {C H W : Type*}

/-- The permits that a launch has still to release. -/
def ClientPc.toRelease : ClientPc H W → ℕ
  | .push _ n | .release n => n
  | _ => 0

/-- A call of `tu_tp_exec` or `tu_tp_lauch` in progress. -/
def ClientPc.launching : ClientPc H W → Prop
  | .setCount _ _ | .push _ _ | .release _ => True
  | _ => False

/-- A call of `tu_tp_fini` in progress. -/
def ClientPc.terminating : ClientPc H W → Prop
  | .finiStore _ | .finiRelease | .finiJoin _ => True
  | _ => False

/-- No launch is in progress, and all workers are blocked with no permit left. -/
structure State.Quiescent (s : State C H W) : Prop where
  client : ∀ c, ¬ (s.client c).launching
  worker : ∀ w, s.worker w = .acquire
  sem : s.sem = 0

/-- The pool runs, and somebody will look at its queue. -/
structure Covered (s : State C H W) : Prop where
  canTerminate : ∀ w, s.canTerminate w = false
  terminating : ∀ c, ¬ (s.client c).terminating
  push : ∀ c rest n, s.client c = .push rest n → rest.length ≤ n
  queue : s.queue ≠ [] →
    0 < s.sem ∨ (∃ w, s.worker w ≠ .acquire ∧ s.worker w ≠ .exited) ∨
      ∃ c, 0 < (s.client c).toRelease

variable [DecidableEq C] [DecidableEq H] [DecidableEq W] {pool : Pool C H W} {s s' : State C H W}

omit [DecidableEq C] in
/-- A worker of a pool that runs stays awake unless it finds the queue empty. -/
theorem awake_or_queue_eq_nil {w : W} (hrun : s.canTerminate w = false)
    (h : s.workerStep w = some s') :
    (s'.worker w ≠ .acquire ∧ s'.worker w ≠ .exited) ∨ s'.queue = [] := by
  unfold State.workerStep at h
  split at h
  case h_1 =>
    split at h
    · obtain rfl := Option.some.inj h
      exact Or.inl (by simp [State.goto])
    · cases h
  case h_2 =>
    obtain rfl := Option.some.inj h
    exact Or.inl (by simp [State.goto, hrun])
  case h_3 =>
    split at h
    · obtain rfl := Option.some.inj h
      exact Or.inl (by simp [State.goto])
    · next hq =>
      obtain rfl := Option.some.inj h
      exact Or.inr hq
  case h_6 =>
    obtain ⟨t, -, rfl⟩ := Option.map_eq_some_iff.mp h
    exact Or.inl (by simp [State.goto])
  case h_8 =>
    obtain rfl := Option.some.inj h
    refine Or.inl ?_
    simp only [State.goto, Function.update_self]
    split <;> simp
  case h_11 => cases h
  all_goals
    obtain rfl := Option.some.inj h
    exact Or.inl (by simp [State.goto])

omit [DecidableEq C] in
theorem covered_workerStep (hI : Covered s) {w : W} (h : s.workerStep w = some s') :
    Covered s' := by
  obtain ⟨pc, he⟩ := workerEffect_of_step h
  refine ⟨?_, fun c => ?_, fun c rest n hc => ?_, fun hq => ?_⟩
  · rw [he.canTerminate]
    exact hI.canTerminate
  · rcases he.client c with heq | ⟨h', -, hr⟩
    · rw [heq]
      exact hI.terminating c
    · rw [hr]
      exact id
  · rcases he.client c with heq | ⟨h', -, hr⟩
    · exact hI.push c rest n (heq ▸ hc)
    · rw [hr] at hc
      cases hc
  · rcases awake_or_queue_eq_nil (hI.canTerminate w) h with hawake | hnil
    · exact Or.inr (Or.inl ⟨w, hawake⟩)
    · exact absurd hnil hq

omit [DecidableEq H] [DecidableEq W] in
/-- A client moves. -/
theorem Covered.client (hI : Covered s) {c : C} {p : ClientPc H W}
    (hclient : s'.client = Function.update s.client c p) (hworker : s'.worker = s.worker)
    (hflags : s'.canTerminate = s.canTerminate) (hterminating : ¬ p.terminating)
    (hpush : ∀ rest n, p = .push rest n → rest.length ≤ n)
    (hsem : s.sem + (s.client c).toRelease ≤ s'.sem + p.toRelease)
    (hsem' : s.sem ≤ s'.sem) (hqueue : s'.queue ≠ [] → s.queue ≠ [] ∨ 0 < p.toRelease) :
    Covered s' := by
  refine ⟨?_, ?_, ?_, fun hq => ?_⟩
  · rw [hflags]
    exact hI.canTerminate
  · rw [hclient]
    exact forall_update (P := fun _ (q : ClientPc H W) => ¬ q.terminating) hI.terminating
      hterminating
  · rw [hclient]
    exact forall_update (P := fun _ (q : ClientPc H W) => ∀ rest n, q = .push rest n →
      rest.length ≤ n) hI.push hpush
  · have hself : 0 < p.toRelease → ∃ d, 0 < (s'.client d).toRelease := fun hpos =>
      ⟨c, by rw [hclient, Function.update_self]; exact hpos⟩
    rw [hworker]
    rcases hqueue hq with hold | hpos
    · rcases hI.queue hold with hpos | hw | ⟨d, hpos⟩
      · exact Or.inl (Nat.lt_of_lt_of_le hpos hsem')
      · exact Or.inr (Or.inl hw)
      · by_cases hd : d = c
        · subst hd
          rcases Nat.eq_zero_or_pos p.toRelease with hzero | hp
          · exact Or.inl (by omega)
          · exact Or.inr (Or.inr (hself hp))
        · exact Or.inr (Or.inr ⟨d, by rw [hclient, Function.update_of_ne hd]; exact hpos⟩)
    · exact Or.inr (Or.inr (hself hpos))

omit [DecidableEq H] [DecidableEq W] in
/-- A client moves in `tu_tp_op_wait`, or begins a call. -/
theorem Covered.client_local (hI : Covered s) {c : C} {p : ClientPc H W}
    (hclient : s'.client = Function.update s.client c p) (hworker : s'.worker = s.worker)
    (hflags : s'.canTerminate = s.canTerminate) (hterminating : ¬ p.terminating)
    (hpush : ∀ rest n, p ≠ .push rest n) (hrelease : (s.client c).toRelease = 0)
    (hsem : s'.sem = s.sem) (hqueue : s'.queue = s.queue) : Covered s' := by
  refine hI.client hclient hworker hflags hterminating (fun rest n heq => absurd heq (hpush rest n))
    ?_ hsem.ge fun hq => Or.inl (hqueue ▸ hq)
  rw [hrelease, hsem]
  exact Nat.le_add_right _ _

theorem covered_clientStep (hI : Covered s) {c : C} (h : s.clientStep pool c = some s') :
    Covered s' := by
  have hrun := hI.terminating c
  unfold State.clientStep at h
  split at h
  case h_1 => cases h
  case h_2 => cases h
  case h_3 =>
    next handle n hpc =>
    obtain rfl := Option.some.inj h
    refine hI.client (c := c) (p := .push (launchedJobs s.issued handle n) n) rfl rfl rfl id ?_ ?_
      le_rfl Or.inl
    · intro rest m heq
      cases heq
      rw [launchedJobs, List.length_map, List.length_range']
    · rw [hpc]
      exact Nat.add_le_add_left (Nat.zero_le _) _
  case h_4 =>
    next op rest n hpc =>
    obtain rfl := Option.some.inj h
    have hlen : rest.length + 1 ≤ n := hI.push c (op :: rest) n hpc
    refine hI.client (c := c) (p := .push rest n) rfl rfl rfl id ?_ ?_ le_rfl fun _ => Or.inr ?_
    · intro rest' m heq
      cases heq
      omega
    · rw [hpc]
      exact le_rfl
    · show 0 < n
      omega
  case h_5 =>
    next n hpc =>
    obtain rfl := Option.some.inj h
    refine hI.client (c := c) (p := .release n) rfl rfl rfl id (by simp) ?_ le_rfl Or.inl
    rw [hpc]
    exact le_rfl
  case h_6 =>
    next n hpc =>
    obtain rfl := Option.some.inj h
    refine hI.client (c := c) (p := .idle) rfl rfl rfl id (by simp) ?_ (Nat.le_add_right _ _) Or.inl
    rw [hpc]
    exact le_rfl
  case h_7 | h_8 =>
    next handle hpc =>
    obtain ⟨t, hlock, rfl⟩ := Option.map_eq_some_iff.mp h
    obtain ⟨-, rfl⟩ := lock_eq_some hlock
    exact hI.client_local (c := c) (p := .waitTest handle) rfl rfl rfl id (by simp)
      (by rw [hpc]; rfl) rfl rfl
  case h_9 =>
    next hpc =>
    obtain rfl := Option.some.inj h
    refine hI.client_local (c := c) rfl rfl rfl ?_ ?_ (by rw [hpc]; rfl) rfl rfl
    · split <;> exact id
    · split <;> simp
  case h_10 =>
    next handle hpc =>
    obtain rfl := Option.some.inj h
    exact hI.client_local (c := c) (p := .blocked handle) rfl rfl rfl id (by simp)
      (by rw [hpc]; rfl) rfl rfl
  case h_11 =>
    next hpc =>
    obtain rfl := Option.some.inj h
    exact hI.client_local (c := c) (p := .idle) rfl rfl rfl id (by simp) (by rw [hpc]; rfl) rfl rfl
  all_goals
    next hpc =>
    rw [hpc] at hrun
    exact absurd trivial hrun

theorem covered_of_reaches (hs : (system pool).Reaches (Disciplined pool) s) : Covered s := by
  refine TransitionSystem.Reaches.invariant ?_ ?_ hs
  · rintro s rfl
    exact ⟨fun _ => rfl, fun _ => id, fun _ _ _ hc => (by cases hc), fun hq => absurd rfl hq⟩
  · intro s a s' hr hI hok h
    cases a with
    | worker w => exact covered_workerStep hI h
    | exec c handle | lauch c handle n | opWait c handle =>
      obtain ⟨hidle, hs'⟩ := Option.ite_none_right_eq_some.mp h
      obtain rfl := Option.some.inj hs'
      exact hI.client_local (c := c) rfl rfl rfl id (by simp) (by rw [hidle]; rfl) rfl rfl
    | fini c => exact hok.elim
    | client c => exact covered_clientStep hI h
    | wake c =>
      obtain ⟨handle, hb, rfl⟩ := wake_eq_some pool h
      exact hI.client_local (c := c) (p := .relock handle) rfl rfl rfl id (by simp)
        (by rw [hb]; rfl) rfl rfl

/-! ## The result -/

section Quiescent

variable [Fintype C] [Fintype W]

omit [DecidableEq C] [DecidableEq H] [DecidableEq W] in
/-- In a quiescent state nothing is pending. -/
theorem allRecorded_of_quiescent (hL : Ledger s) (hquiet : s.Quiescent) (hq : s.queue = [])
    (h : H) : s.AllRecorded h := by
  intro u hu
  have hpending := hL.pending u
  rw [if_pos (hL.job_lt h u hu)] at hpending
  have hzero : s.pending u = 0 := by
    by_contra hne
    rcases exists_of_pending_pos (Nat.pos_of_ne_zero hne) with ⟨c, op, hop, -⟩ | ⟨op, hop, -⟩ |
      ⟨w, op, hop, -⟩
    · have hc := hquiet.client c
      cases hpc : s.client c with
      | push rest n =>
        rw [hpc] at hc
        exact hc trivial
      | _ =>
        rw [hpc] at hop
        cases hop
    · rw [hq] at hop
      cases hop
    · rw [hquiet.worker w] at hop
      cases hop
  exact List.count_pos_iff.mp (by omega)

omit [DecidableEq C] [DecidableEq H] [DecidableEq W] in
/-- A job begins at most once. -/
theorem Ledger.started_le_one (hL : Ledger s) (u : ℕ) : s.started.count u ≤ 1 := by
  have hle : ∑ w, marks u (s.worker w).begun ≤ ∑ w, marks u (s.worker w).carried :=
    Finset.sum_le_sum fun w _ => WorkerPc.begun_le_carried (s.worker w)
  have hpending := hL.pending u
  unfold State.pending at hpending
  rw [hL.started u]
  split at hpending <;> omega

/-- **Completion.**  In every disciplined run a job begins at most once, the counter of a
handle counts its jobs that are not recorded, a wait returns when all jobs of the handle
have returned, and in a quiescent state the queue is empty and nobody is blocked. -/
theorem completion_of_reaches (hs : (system pool).Reaches (Disciplined pool) s) :
    (∀ u, s.started.count u ≤ 1) ∧
      (∀ h, s.processCount h = (s.jobs h \ s.recorded.toFinset).card ∧ 0 ≤ s.processCount h) ∧
      (∀ u ∈ s.recorded, u ∈ s.finished) ∧
      (∀ c h, s.client c = .waitReturn h → ∀ u ∈ s.jobs h, u ∈ s.finished) ∧
      (s.Quiescent → s.queue = [] ∧ ∀ c h, s.client c ≠ .blocked h) := by
  obtain ⟨hL, hO⟩ := counted_of_reaches hs
  have hW := waits_of_reaches hs
  have hC := covered_of_reaches hs
  refine ⟨hL.started_le_one, fun h => ⟨hL.count h, ?_⟩, hL.recorded, fun c h hc u hu => ?_,
    fun hquiet => ?_⟩
  · rw [hL.count h]
    exact Int.natCast_nonneg _
  · exact hL.recorded u (hO.waitReturn c h hc u hu)
  · have hq : s.queue = [] := by
      by_contra hne
      rcases hC.queue hne with hpos | ⟨w, hw, -⟩ | ⟨c, hpos⟩
      · rw [hquiet.sem] at hpos
        exact absurd hpos (lt_irrefl 0)
      · exact hw (hquiet.worker w)
      · have hc := hquiet.client c
        cases hpc : s.client c with
        | push _ _ | release _ =>
          rw [hpc] at hc
          exact hc trivial
        | _ =>
          rw [hpc] at hpos
          exact absurd hpos (lt_irrefl 0)
    refine ⟨hq, fun c h hb => ?_⟩
    rcases hW.blocked c h hb with hne | ⟨w, hw⟩
    · exact hne ((hL.allRecorded_iff h).mpr (allRecorded_of_quiescent hL hquiet hq h))
    · rw [hquiet.worker w] at hw
      exact hw

end Quiescent

/-- A pool with one worker, one client and one handle. -/
def onePool : Pool Unit Unit Unit where
  workers := [()]
  mem_workers := mem_unit
  nodup_workers := List.nodup_singleton ()
  owner _ := ()

/-- The client launches two jobs and blocks until they are recorded; then it waits again. -/
def launchAndWait : List (Action Unit Unit Unit) :=
  [.lauch () () 2] ++ List.replicate 5 (.client ()) ++ [.opWait () ()] ++
    List.replicate 3 (.client ()) ++ List.replicate 17 (.worker ()) ++
    List.replicate 2 (.client ())

theorem completion_launchAndWait :
    let s := (system onePool).replayWithin (Disciplined onePool) initial launchAndWait
    s.client () = .waitReturn () ∧ s.finished = [0, 1] ∧ s.started.count 0 ≤ 1 ∧
      0 ≤ s.processCount () ∧ (∀ u ∈ s.jobs (), u ∈ s.finished) ∧
      (s.Quiescent → s.queue = [] ∧ ∀ c h, s.client c ≠ .blocked h) := by
  have hs : (system onePool).Reaches (Disciplined onePool)
      ((system onePool).replayWithin (Disciplined onePool) initial launchAndWait) :=
    TransitionSystem.Reaches.replayWithin (.start rfl) launchAndWait (by decide)
  have h := completion_of_reaches hs
  exact ⟨by decide, by decide, h.1 0, (h.2.1 ()).2, h.2.2.2.1 () () (by decide), h.2.2.2.2⟩

end ThreadPool
end ThreadUtils
