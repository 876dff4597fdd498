import ThreadUtils.Tools.ThreadPool.Ledger

/-!
# The counter of a handle

`process_count` is stored without the mutex by a launch and decremented under the mutex by
the workers.  As long as a handle is launched again only after a wait for it has returned,
all jobs of the handle are recorded when the counter is stored, so that it always counts the
jobs of the handle that are not recorded.

## Two invariants

`Ledger` is about the jobs.  Every job that was issued is in one place, with a launch that has still
to push it, in the queue, or with a worker, until it is recorded by the decrement; so a job begins
once at most, and the counter of a handle is the number of its jobs that are not recorded.  The jobs
have numbers, since two jobs of a handle may have the same function and the same data.

`Owned` is about the clients.  Each handle has an owner, and what a client has found out about a
handle of its own, that all of its jobs are recorded, stays true until the client itself launches
jobs on it.  A launch stores the counter in its first step, before it pushes a job, and
there the second invariant gives what the first one needs (`Ledger.launch`).

## The protocol of the clients

The header of the pool does not say when a handle may be used again.  `Disciplined` allows a launch
after a wait has returned.  `OneAtATime` is wider: a launch may also follow a `tu_tp_op_done` that
returned true, and the pool may be shut down.  The ledger holds in these runs as well.
-/

namespace ThreadUtils
namespace ThreadPool

variable {C H W : Type*}

/-- The handle that a call of a client is about. -/
def ClientPc.handle? : ClientPc H W → Option H
  | .setCount h _ | .waitLock h | .waitTest h | .waitBlock h | .blocked h | .relock h
  | .waitReturn h => some h
  | _ => none

/-- The calls the clients make: each on handles of its own, a launch only if a wait has
returned since the last one, and no `tu_tp_fini`. -/
def Disciplined (pool : Pool C H W) (s : State C H W) : Action C H W → Prop
  | .exec c h | .lauch c h _ => pool.owner h = c ∧ s.status h ≠ .launched
  | .opWait c h => pool.owner h = c
  | .fini _ => False
  | _ => True

instance [DecidableEq C] (pool : Pool C H W) (s : State C H W) (a : Action C H W) :
    Decidable (Disciplined pool s a) :=
  match a with
  | .exec c h | .lauch c h _ => inferInstanceAs (Decidable (pool.owner h = c ∧ _))
  | .opWait c h => inferInstanceAs (Decidable (pool.owner h = c))
  | .fini _ => inferInstanceAs (Decidable False)
  | .worker _ | .client _ | .wake _ => inferInstanceAs (Decidable True)

/-- The same, but a launch may also follow a `tu_tp_op_done` that returned true, and
`tu_tp_fini` may be called. -/
def OneAtATime (pool : Pool C H W) (s : State C H W) : Action C H W → Prop
  | .exec c h | .lauch c h _ => pool.owner h = c ∧ (s.status h ≠ .launched ∨ s.opDone h = true)
  | .opWait c h => pool.owner h = c
  | _ => True

instance [DecidableEq C] (pool : Pool C H W) (s : State C H W) (a : Action C H W) :
    Decidable (OneAtATime pool s a) :=
  match a with
  | .exec c h | .lauch c h _ => inferInstanceAs (Decidable (pool.owner h = c ∧ _))
  | .opWait c h => inferInstanceAs (Decidable (pool.owner h = c))
  | .worker _ | .fini _ | .client _ | .wake _ => inferInstanceAs (Decidable True)

theorem Disciplined.oneAtATime {pool : Pool C H W} {s : State C H W} {a : Action C H W}
    (h : Disciplined pool s a) : OneAtATime pool s a := by
  cases a with
  | exec c handle | lauch c handle n => exact ⟨h.1, Or.inl h.2⟩
  | opWait c handle => exact h
  | fini c => exact h.elim
  | worker | client | wake => trivial

/-- All jobs of the handle are recorded. -/
def State.AllRecorded (s : State C H W) (h : H) : Prop :=
  ∀ u ∈ s.jobs h, u ∈ s.recorded

/-- Where the jobs are, and what the counters of the handles count. -/
structure Ledger [Fintype C] [Fintype W] (s : State C H W) : Prop where
  pending : ∀ u, s.pending u + s.recorded.count u = if u < s.issued then 1 else 0
  started : ∀ u, s.started.count u = ∑ w, marks u (s.worker w).begun + s.recorded.count u
  job_lt : ∀ h, ∀ u ∈ s.jobs h, u < s.issued
  job_unique : ∀ h h' u, u ∈ s.jobs h → u ∈ s.jobs h' → h = h'
  rest : ∀ c, ∀ op ∈ (s.client c).rest, op.uid ∈ s.jobs op.handle
  queue : ∀ op ∈ s.queue, op.uid ∈ s.jobs op.handle
  carried : ∀ w, ∀ op ∈ (s.worker w).carried, op.uid ∈ s.jobs op.handle
  ended : ∀ w, ∀ op ∈ (s.worker w).ended, op.uid ∈ s.finished
  recorded : ∀ u ∈ s.recorded, u ∈ s.finished
  count : ∀ h, s.processCount h = (s.jobs h \ s.recorded.toFinset).card

/-- What the clients know about the handles they work with. -/
structure Owned (pool : Pool C H W) (s : State C H W) : Prop where
  owner : ∀ c h, (s.client c).handle? = some h → pool.owner h = c
  setCount : ∀ c h n, s.client c = .setCount h n → s.AllRecorded h
  waitReturn : ∀ c h, s.client c = .waitReturn h → s.AllRecorded h
  status : ∀ h, s.status h ≠ .launched → s.AllRecorded h

/-! ## The counter of recorded jobs -/

section Counter

variable {s : State C H W} [Fintype C] [Fintype W]

/-- The counter is `0` exactly when all jobs of the handle are recorded. -/
theorem Ledger.allRecorded_iff (hL : Ledger s) (h : H) :
    s.processCount h = 0 ↔ s.AllRecorded h := by
  rw [hL.count h, Int.natCast_eq_zero, Finset.card_eq_zero, Finset.sdiff_eq_empty_iff_subset]
  refine forall₂_congr fun u _ => ?_
  rw [List.mem_toFinset]

/-- A pending job is not recorded. -/
theorem Ledger.notMem_recorded (hL : Ledger s) {u : ℕ} (h : 0 < s.pending u) :
    u ∉ s.recorded := by
  have hpending := hL.pending u
  rw [← List.count_eq_zero]
  split at hpending <;> omega

/-- The job of a worker is pending. -/
theorem pending_pos_of_carried {w : W} {op : Operation H} (h : op ∈ (s.worker w).carried) :
    0 < s.pending op.uid := by
  have hpos := marks_pos h
  have hle := le_sum_apply (fun w => marks op.uid (s.worker w).carried) w
  unfold State.pending
  omega

end Counter

variable [Fintype C] [Fintype W]

section Steps

variable {s s' : State C H W}

/-- The parts of the state that a step of a client leaves alone, unless it is the first
step of a launch. -/
structure SameJobs (s s' : State C H W) : Prop where
  worker : s'.worker = s.worker
  processCount : s'.processCount = s.processCount
  issued : s'.issued = s.issued
  jobs : s'.jobs = s.jobs
  started : s'.started = s.started
  finished : s'.finished = s.finished
  recorded : s'.recorded = s.recorded

theorem Ledger.client [DecidableEq C] (hL : Ledger s) (hsame : SameJobs s s') {c : C}
    {p : ClientPc H W} (hclient : s'.client = Function.update s.client c p)
    (hmoves : ∀ u, marks u s'.queue + marks u p.rest =
      marks u s.queue + marks u (s.client c).rest)
    (hrest : ∀ op ∈ p.rest, op ∈ (s.client c).rest)
    (hqueue : ∀ op ∈ s'.queue, op ∈ s.queue ∨ op ∈ (s.client c).rest) : Ledger s' := by
  refine ⟨fun u => ?_, ?_, ?_, ?_, fun d op hop => ?_, fun op hop => ?_, ?_, ?_, ?_, ?_⟩
  · have hpending := pending_client (u := u) hclient hsame.worker
    have hmove := hmoves u
    rw [hsame.recorded, hsame.issued, ← hL.pending u]
    omega
  · rw [hsame.started, hsame.worker, hsame.recorded]
    exact hL.started
  · rw [hsame.jobs, hsame.issued]
    exact hL.job_lt
  · rw [hsame.jobs]
    exact hL.job_unique
  · rw [hsame.jobs]
    rw [hclient] at hop
    by_cases hd : d = c
    · subst hd
      rw [Function.update_self] at hop
      exact hL.rest d op (hrest op hop)
    · rw [Function.update_of_ne hd] at hop
      exact hL.rest d op hop
  · rw [hsame.jobs]
    exact (hqueue op hop).elim (hL.queue op) (hL.rest c op)
  · rw [hsame.worker, hsame.jobs]
    exact hL.carried
  · rw [hsame.worker, hsame.finished]
    exact hL.ended
  · rw [hsame.recorded, hsame.finished]
    exact hL.recorded
  · rw [hsame.processCount, hsame.jobs, hsame.recorded]
    exact hL.count

/-- A step of a client that moves no job. -/
theorem Ledger.client_local [DecidableEq C] (hL : Ledger s) (hsame : SameJobs s s')
    (hq : s'.queue = s.queue) {c : C} {p : ClientPc H W}
    (hclient : s'.client = Function.update s.client c p)
    (hrest : p.rest = (s.client c).rest) : Ledger s' :=
  hL.client hsame hclient (fun u => by rw [hq, hrest]) (fun op hop => hrest ▸ hop)
    (fun op hop => Or.inl (hq ▸ hop))

variable [DecidableEq H] [DecidableEq W]

omit [Fintype C] [Fintype W] in
theorem WorkerEffect.recorded_mono {w : W} {pc : WorkerPc H} (he : WorkerEffect s w s' pc) {u : ℕ}
    (hu : u ∈ s.recorded) : u ∈ s'.recorded := by
  rcases he.recorded with ⟨heq, -⟩ | ⟨op, -, heq, -⟩
  · exact heq ▸ hu
  · rw [heq]
    exact List.mem_append_left _ hu

theorem Ledger.worker (hL : Ledger s) {w : W} {pc : WorkerPc H}
    (he : WorkerEffect s w s' pc) : Ledger s' := by
  refine ⟨fun u => ?_, fun u => ?_, ?_, ?_, fun c op hop => ?_, fun op hop => ?_,
    fun v op hop => ?_, fun v op hop => ?_, fun u hu => ?_, fun h => ?_⟩
  · have hpending := pending_worker (u := u) he.rest he.worker
    have hmove := he.queue_carried u
    rw [he.issued, ← hL.pending u]
    omega
  · have hbegun := he.begun u
    have hstarted := hL.started u
    have hsum := sum_update_exchange (fun pc => marks u (WorkerPc.begun pc)) s.worker w pc
    rw [he.worker]
    omega
  · rw [he.jobs, he.issued]
    exact hL.job_lt
  · rw [he.jobs]
    exact hL.job_unique
  · rw [he.jobs]
    rw [he.rest c] at hop
    exact hL.rest c op hop
  · rw [he.jobs]
    exact hL.queue op (he.queue op hop)
  · rw [he.jobs]
    rw [he.worker] at hop
    by_cases hv : v = w
    · subst hv
      rw [Function.update_self] at hop
      exact (he.carried op hop).elim (hL.queue op) (hL.carried v op)
    · rw [Function.update_of_ne hv] at hop
      exact hL.carried v op hop
  · rw [he.worker] at hop
    by_cases hv : v = w
    · subst hv
      rw [Function.update_self] at hop
      exact (he.ended op hop).elim (fun hop => he.finished _ (hL.ended v op hop)) id
    · rw [Function.update_of_ne hv] at hop
      exact he.finished _ (hL.ended v op hop)
  · rcases he.recorded with ⟨heq, -⟩ | ⟨op, hpc, heq, -⟩
    · exact he.finished u (hL.recorded u (heq ▸ hu))
    · rw [heq] at hu
      rcases List.mem_append.mp hu with hu | hu
      · exact he.finished u (hL.recorded u hu)
      · obtain rfl := List.mem_singleton.mp hu
        refine he.finished _ (hL.ended w op ?_)
        rw [hpc]
        exact List.mem_singleton.mpr rfl
  · rcases he.recorded with ⟨hrec, hcount⟩ | ⟨op, hpc, hrec, hcount⟩
    · rw [hcount, he.jobs, hrec]
      exact hL.count h
    · have hcarried : op ∈ (s.worker w).carried := by
        rw [hpc]
        exact List.mem_singleton.mpr rfl
      have hnew : op.uid ∉ s.recorded := hL.notMem_recorded (pending_pos_of_carried hcarried)
      have hjob : op.uid ∈ s.jobs op.handle := hL.carried w op hcarried
      have hinsert : (s.recorded ++ [op.uid]).toFinset = insert op.uid s.recorded.toFinset := by
        ext u
        simp
      rw [hcount, he.jobs, hrec, hinsert, Finset.sdiff_insert]
      by_cases hh : h = op.handle
      · subst hh
        have hmem : op.uid ∈ s.jobs op.handle \ s.recorded.toFinset :=
          Finset.mem_sdiff.mpr ⟨hjob, fun hin => hnew (List.mem_toFinset.mp hin)⟩
        have hpos : 0 < (s.jobs op.handle \ s.recorded.toFinset).card :=
          Finset.card_pos.mpr ⟨_, hmem⟩
        rw [Function.update_self, hL.count, Finset.card_erase_of_mem hmem]
        omega
      · have hother : op.uid ∉ s.jobs h \ s.recorded.toFinset := fun hin =>
          hh (hL.job_unique h op.handle op.uid (Finset.mem_sdiff.mp hin).1 hjob)
        rw [Function.update_of_ne hh, Finset.erase_eq_of_notMem hother]
        exact hL.count h

omit [Fintype C] [Fintype W] [DecidableEq H] [DecidableEq W] in
/-- The jobs of a launch are added to those of its handle. -/
theorem mem_update_jobs [DecidableEq H] {h h' : H} {n u : ℕ} :
    u ∈ Function.update s.jobs h (s.jobs h ∪ Finset.Ico s.issued (s.issued + n)) h' ↔
      u ∈ s.jobs h' ∨ h' = h ∧ s.issued ≤ u ∧ u < s.issued + n := by
  by_cases hh : h' = h
  · subst hh
    rw [Function.update_self, Finset.mem_union, Finset.mem_Ico]
    exact or_congr_right ⟨fun hu => ⟨rfl, hu⟩, fun hu => hu.2⟩
  · rw [Function.update_of_ne hh]
    exact ⟨Or.inl, fun hu => hu.elim id fun hu => absurd hu.1 hh⟩

omit [DecidableEq W] in
/-- The first step of a launch, when the jobs of the last one are recorded. -/
theorem Ledger.launch [DecidableEq C] (hL : Ledger s) {c : C} {h : H} {n : ℕ}
    (hpc : s.client c = .setCount h n) (hall : s.AllRecorded h) :
    Ledger { s.clientGoto c (.push (launchedJobs s.issued h n) n) with
      processCount := Function.update s.processCount h (n : ℤ)
      issued := s.issued + n
      jobs := Function.update s.jobs h (s.jobs h ∪ Finset.Ico s.issued (s.issued + n))
      status := Function.update s.status h .launched } := by
  have hmono : ∀ h' u, u ∈ s.jobs h' →
      u ∈ Function.update s.jobs h (s.jobs h ∪ Finset.Ico s.issued (s.issued + n)) h' :=
    fun h' u hu => mem_update_jobs.mpr (Or.inl hu)
  have hissued : ∀ u ∈ s.recorded, u < s.issued := by
    intro u hu
    have hpending := hL.pending u
    have hpos := List.count_pos_iff.mpr hu
    split at hpending
    · assumption
    · omega
  refine ⟨fun u => ?_, hL.started, fun h' u hu => ?_, fun h₁ h₂ u hu₁ hu₂ => ?_, fun d op hop => ?_,
    fun op hop => hmono _ _ (hL.queue op hop), fun w op hop => hmono _ _ (hL.carried w op hop),
    hL.ended, hL.recorded, fun h' => ?_⟩
  · have hclient : (s.clientGoto c (.push (launchedJobs s.issued h n) n)).client =
        Function.update s.client c (.push (launchedJobs s.issued h n) n) := rfl
    have hmoved := pending_client (u := u) hclient rfl
    have hpending := hL.pending u
    rw [hpc] at hmoved
    change (s.clientGoto c _).pending u + s.recorded.count u = if u < s.issued + n then 1 else 0
    change (s.clientGoto c _).pending u + (marks u s.queue + marks u []) =
      s.pending u + (marks u s.queue + marks u (launchedJobs s.issued h n)) at hmoved
    rw [marks_launchedJobs, marks_nil] at hmoved
    split_ifs at hmoved hpending ⊢ <;> omega
  · rcases mem_update_jobs.mp hu with hu | ⟨-, -, hlt⟩
    · exact Nat.lt_of_lt_of_le (hL.job_lt h' u hu) (Nat.le_add_right _ _)
    · exact hlt
  · rcases mem_update_jobs.mp hu₁ with hu₁ | ⟨rfl, hle₁, -⟩
    · rcases mem_update_jobs.mp hu₂ with hu₂ | ⟨-, hle₂, -⟩
      · exact hL.job_unique h₁ h₂ u hu₁ hu₂
      · exact absurd (hL.job_lt h₁ u hu₁) (Nat.not_lt.mpr hle₂)
    · rcases mem_update_jobs.mp hu₂ with hu₂ | ⟨rfl, -, -⟩
      · exact absurd (hL.job_lt h₂ u hu₂) (Nat.not_lt.mpr hle₁)
      · rfl
  · by_cases hd : d = c
    · subst hd
      have hop : op ∈ (Function.update s.client d (.push (launchedJobs s.issued h n) n) d).rest :=
        hop
      rw [Function.update_self] at hop
      obtain ⟨rfl, hrange⟩ := mem_launchedJobs.mp hop
      exact mem_update_jobs.mpr (Or.inr ⟨rfl, hrange⟩)
    · have hop : op ∈ (Function.update s.client c (.push (launchedJobs s.issued h n) n) d).rest :=
        hop
      rw [Function.update_of_ne hd] at hop
      exact hmono _ _ (hL.rest d op hop)
  · show Function.update s.processCount h (n : ℤ) h' =
      ((Function.update s.jobs h (s.jobs h ∪ Finset.Ico s.issued (s.issued + n)) h' \
        s.recorded.toFinset).card : ℤ)
    by_cases hh : h' = h
    · subst hh
      rw [Function.update_self, Function.update_self]
      have hnew : (s.jobs h' ∪ Finset.Ico s.issued (s.issued + n)) \ s.recorded.toFinset =
          Finset.Ico s.issued (s.issued + n) := by
        ext u
        rw [Finset.mem_sdiff, Finset.mem_union, List.mem_toFinset]
        constructor
        · rintro ⟨hu | hu, hnot⟩
          · exact absurd (hall u hu) hnot
          · exact hu
        · intro hu
          refine ⟨Or.inr hu, fun hin => ?_⟩
          exact absurd (hissued u hin) (Nat.not_lt.mpr (Finset.mem_Ico.mp hu).1)
      rw [hnew, Nat.card_Ico, Nat.add_sub_cancel_left]
    · rw [Function.update_of_ne hh, Function.update_of_ne hh]
      exact hL.count h'

variable {pool : Pool C H W}

omit [Fintype C] [Fintype W] [DecidableEq H] [DecidableEq W] in
/-- A step of a client that launches nothing. -/
theorem Owned.client [DecidableEq C] (hO : Owned pool s) (hjobs : s'.jobs = s.jobs)
    (hrecorded : s'.recorded = s.recorded) {c : C} {p : ClientPc H W}
    (hclient : s'.client = Function.update s.client c p)
    (howner : ∀ h, p.handle? = some h → pool.owner h = c)
    (hset : ∀ h n, p = .setCount h n → s.AllRecorded h)
    (hreturn : ∀ h, p = .waitReturn h → s.AllRecorded h)
    (hstatus : ∀ h, s'.status h ≠ .launched → s.AllRecorded h) : Owned pool s' := by
  have hall : ∀ h, s.AllRecorded h → s'.AllRecorded h := by
    intro h hh
    rw [State.AllRecorded, hjobs, hrecorded]
    exact hh
  refine ⟨?_, ?_, ?_, fun h hh => hall h (hstatus h hh)⟩
  · rw [hclient]
    exact forall_update
      (P := fun d (q : ClientPc H W) => ∀ h, q.handle? = some h → pool.owner h = d)
      hO.owner howner
  · rw [hclient]
    exact forall_update
      (P := fun _ (q : ClientPc H W) => ∀ h n, q = .setCount h n → s'.AllRecorded h)
      (fun d h n hpc => hall h (hO.setCount d h n hpc)) (fun h n hpc => hall h (hset h n hpc))
  · rw [hclient]
    exact forall_update (P := fun _ (q : ClientPc H W) => ∀ h, q = .waitReturn h → s'.AllRecorded h)
      (fun d h hpc => hall h (hO.waitReturn d h hpc)) (fun h hpc => hall h (hreturn h hpc))

omit [Fintype C] [Fintype W] in
theorem Owned.worker (hO : Owned pool s) {w : W} {pc : WorkerPc H}
    (he : WorkerEffect s w s' pc) : Owned pool s' := by
  have hall : ∀ h, s.AllRecorded h → s'.AllRecorded h := by
    intro h hh u hu
    rw [he.jobs] at hu
    exact he.recorded_mono (hh u hu)
  refine ⟨fun c h hh => ?_, fun c h n hpc => ?_, fun c h hpc => ?_, fun h hh => ?_⟩
  · rcases he.client c with heq | ⟨h', hb, hb'⟩
    · exact hO.owner c h (heq ▸ hh)
    · refine hO.owner c h ?_
      rw [hb]
      rw [hb'] at hh
      exact hh
  · rcases he.client c with heq | ⟨h', -, hb'⟩
    · exact hall h (hO.setCount c h n (heq ▸ hpc))
    · rw [hb'] at hpc
      cases hpc
  · rcases he.client c with heq | ⟨h', -, hb'⟩
    · exact hall h (hO.waitReturn c h (heq ▸ hpc))
    · rw [hb'] at hpc
      cases hpc
  · rw [he.status] at hh
    exact hall h (hO.status h hh)

omit [Fintype C] [Fintype W] [DecidableEq W] in
/-- The first step of a launch.  The other clients work with other handles. -/
theorem Owned.launch [DecidableEq C] (hO : Owned pool s) {c : C} {h : H} {n : ℕ}
    (hpc : s.client c = .setCount h n) :
    Owned pool { s.clientGoto c (.push (launchedJobs s.issued h n) n) with
      processCount := Function.update s.processCount h (n : ℤ)
      issued := s.issued + n
      jobs := Function.update s.jobs h (s.jobs h ∪ Finset.Ico s.issued (s.issued + n))
      status := Function.update s.status h .launched } := by
  have hc : pool.owner h = c := hO.owner c h (by rw [hpc]; rfl)
  have hother : ∀ h', h' ≠ h → s.AllRecorded h' → ∀ u, u ∈
      Function.update s.jobs h (s.jobs h ∪ Finset.Ico s.issued (s.issued + n)) h' →
        u ∈ s.recorded := by
    intro h' hne hall u hu
    rcases mem_update_jobs.mp hu with hu | ⟨heq, -⟩
    · exact hall u hu
    · exact absurd heq hne
  -- the next access of a client is the same as before or the push of the jobs
  have hcases : ∀ d p, Function.update s.client c (.push (launchedJobs s.issued h n) n) d = p →
      p.handle? ≠ none → d ≠ c ∧ s.client d = p := by
    intro d p hd hp
    by_cases hdc : d = c
    · subst hdc
      rw [Function.update_self] at hd
      subst hd
      exact absurd rfl hp
    · exact ⟨hdc, by rwa [Function.update_of_ne hdc] at hd⟩
  refine ⟨fun d h' hh => ?_, fun d h' m hd => ?_, fun d h' hd => ?_, fun h' hh => ?_⟩
  · obtain ⟨-, heq⟩ := hcases d _ rfl fun hnone => by
      have hh : ClientPc.handle? (Function.update s.client c
        (.push (launchedJobs s.issued h n) n) d) = some h' := hh
      rw [hnone] at hh
      cases hh
    refine hO.owner d h' ?_
    rw [heq]
    exact hh
  · obtain ⟨hne, heq⟩ := hcases d _ hd (by simp [ClientPc.handle?])
    have hd' : pool.owner h' = d := hO.owner d h' (by rw [heq]; rfl)
    refine hother h' (fun hh => hne ?_) (hO.setCount d h' m heq)
    rw [← hd', hh, hc]
  · obtain ⟨hne, heq⟩ := hcases d _ hd (by simp [ClientPc.handle?])
    have hd' : pool.owner h' = d := hO.owner d h' (by rw [heq]; rfl)
    refine hother h' (fun hh => hne ?_) (hO.waitReturn d h' heq)
    rw [← hd', hh, hc]
  · have hh : Function.update s.status h .launched h' ≠ .launched := hh
    by_cases hne : h' = h
    · subst hne
      rw [Function.update_self] at hh
      exact absurd rfl hh
    · rw [Function.update_of_ne hne] at hh
      exact hother h' hne (hO.status h' hh)

end Steps

/-! ## The runs of the protocol -/

variable [DecidableEq C] [DecidableEq H] [DecidableEq W] {pool : Pool C H W} {s s' : State C H W}

omit [DecidableEq H] [DecidableEq W] in
/-- A step of a client that moves no job and does not return from a wait. -/
theorem counted_client (hL : Ledger s) (hO : Owned pool s) (hsame : SameJobs s s')
    (hq : s'.queue = s.queue) (hstatus : s'.status = s.status) {c : C} {p : ClientPc H W}
    (hclient : s'.client = Function.update s.client c p) (hrest : p.rest = (s.client c).rest)
    (howner : ∀ h, p.handle? = some h → pool.owner h = c)
    (hset : ∀ h n, p = .setCount h n → s.AllRecorded h)
    (hreturn : ∀ h, p = .waitReturn h → s.AllRecorded h) : Ledger s' ∧ Owned pool s' := by
  refine ⟨hL.client_local hsame hq hclient hrest,
    hO.client hsame.jobs hsame.recorded hclient howner hset hreturn ?_⟩
  rw [hstatus]
  exact hO.status

theorem counted_clientStep (hL : Ledger s) (hO : Owned pool s) {c : C}
    (h : s.clientStep pool c = some s') : Ledger s' ∧ Owned pool s' := by
  unfold State.clientStep at h
  split at h
  case h_1 => cases h
  case h_2 => cases h
  case h_3 =>
    next handle n hpc =>
    obtain rfl := Option.some.inj h
    exact ⟨hL.launch hpc (hO.setCount c handle n hpc), hO.launch hpc⟩
  case h_4 =>
    next op rest n hpc =>
    obtain rfl := Option.some.inj h
    refine ⟨hL.client (c := c) (p := .push rest n) ⟨rfl, rfl, rfl, rfl, rfl, rfl, rfl⟩ rfl
      (fun u => ?_) (fun op' hop' => ?_) (fun op' hop' => ?_),
      hO.client (p := .push rest n) rfl rfl rfl (by simp [ClientPc.handle?]) (by simp) (by simp)
        hO.status⟩
    · rw [hpc, marks_append]
      show marks u s.queue + marks u [op] + marks u rest = marks u s.queue + marks u (op :: rest)
      rw [marks_cons, marks_cons, marks_nil]
      omega
    · rw [hpc]
      exact List.mem_cons_of_mem _ hop'
    · rw [hpc]
      rcases List.mem_append.mp hop' with hop' | hop'
      · exact Or.inl hop'
      · rw [List.mem_singleton.mp hop']
        exact Or.inr (List.mem_cons_self ..)
  case h_5 =>
    next hpc =>
    obtain rfl := Option.some.inj h
    exact counted_client hL hO ⟨rfl, rfl, rfl, rfl, rfl, rfl, rfl⟩ rfl rfl rfl (by rw [hpc]; rfl)
      (by simp [ClientPc.handle?]) (by simp) (by simp)
  case h_6 =>
    next hpc =>
    obtain rfl := Option.some.inj h
    exact counted_client hL hO ⟨rfl, rfl, rfl, rfl, rfl, rfl, rfl⟩ rfl rfl rfl (by rw [hpc]; rfl)
      (by simp [ClientPc.handle?]) (by simp) (by simp)
  case h_7 | h_8 =>
    next handle hpc =>
    obtain ⟨t, hlock, rfl⟩ := Option.map_eq_some_iff.mp h
    obtain ⟨-, rfl⟩ := lock_eq_some hlock
    refine counted_client hL hO ⟨rfl, rfl, rfl, rfl, rfl, rfl, rfl⟩ rfl rfl rfl (by rw [hpc]; rfl)
      (fun h' hh => hO.owner c h' ?_) (by simp) (by simp)
    rw [hpc]
    exact hh
  case h_9 =>
    next handle hpc =>
    obtain rfl := Option.some.inj h
    refine counted_client hL hO (p := if s.opDone handle then .waitReturn handle
      else .waitBlock handle) ⟨rfl, rfl, rfl, rfl, rfl, rfl, rfl⟩ rfl rfl rfl ?_
      (fun h' hh => hO.owner c h' ?_) ?_ ?_
    · rw [hpc]
      split <;> rfl
    · rw [hpc]
      split at hh <;> exact hh
    · intro h' n heq
      split at heq <;> cases heq
    · -- the predicate says that nothing is left to be recorded
      intro h' heq
      split at heq
      · next hdone =>
        cases heq
        exact (hL.allRecorded_iff handle).mp (of_decide_eq_true hdone)
      · cases heq
  case h_10 =>
    next handle hpc =>
    obtain rfl := Option.some.inj h
    refine counted_client hL hO ⟨rfl, rfl, rfl, rfl, rfl, rfl, rfl⟩ rfl rfl rfl (by rw [hpc]; rfl)
      (fun h' hh => hO.owner c h' ?_) (by simp) (by simp)
    rw [hpc]
    exact hh
  case h_11 =>
    next handle hpc =>
    obtain rfl := Option.some.inj h
    refine ⟨hL.client_local (p := .idle) ⟨rfl, rfl, rfl, rfl, rfl, rfl, rfl⟩ rfl rfl
      (by rw [hpc]; rfl), hO.client (p := .idle) rfl rfl rfl (by simp [ClientPc.handle?]) (by simp)
        (by simp) fun h' hh => ?_⟩
    have hh : Function.update s.status handle .waited h' ≠ .launched := hh
    by_cases hne : h' = handle
    · subst hne
      exact hO.waitReturn c h' hpc
    · rw [Function.update_of_ne hne] at hh
      exact hO.status h' hh
  case h_12 | h_13 | h_14 | h_16 =>
    next hpc =>
    obtain rfl := Option.some.inj h
    exact counted_client hL hO ⟨rfl, rfl, rfl, rfl, rfl, rfl, rfl⟩ rfl rfl rfl (by rw [hpc]; rfl)
      (by simp [ClientPc.handle?]) (by simp) (by simp)
  case h_15 =>
    next hpc =>
    split at h
    · obtain rfl := Option.some.inj h
      exact counted_client hL hO ⟨rfl, rfl, rfl, rfl, rfl, rfl, rfl⟩ rfl rfl rfl (by rw [hpc]; rfl)
        (by simp [ClientPc.handle?]) (by simp) (by simp)
    · cases h

omit [Fintype W] [Fintype C] [DecidableEq C] [DecidableEq H] [DecidableEq W] in
theorem owned_initial : Owned pool (initial : State C H W) where
  owner c h hh := by cases hh
  setCount c h n hpc := by cases hpc
  waitReturn c h hpc := by cases hpc
  status h _ u hu := absurd hu (Finset.notMem_empty u)

omit [DecidableEq C] [DecidableEq H] [DecidableEq W] in
theorem ledger_initial : Ledger (initial : State C H W) where
  pending u := by
    have h₁ : ∀ c : C, marks u ((initial : State C H W).client c).rest = 0 := fun _ => rfl
    have h₂ : ∀ w : W, marks u ((initial : State C H W).worker w).carried = 0 := fun _ => rfl
    rw [State.pending, Finset.sum_eq_zero fun c _ => h₁ c, Finset.sum_eq_zero fun w _ => h₂ w]
    rfl
  started u := by
    have h : ∀ w : W, marks u ((initial : State C H W).worker w).begun = 0 := fun _ => rfl
    rw [Finset.sum_eq_zero fun w _ => h w]
    rfl
  job_lt h u hu := absurd hu (Finset.notMem_empty u)
  job_unique h h' u hu := absurd hu (Finset.notMem_empty u)
  rest c op hop := by cases hop
  queue op hop := by cases hop
  carried w op hop := by cases hop
  ended w op hop := by cases hop
  recorded u hu := by cases hu
  count h := rfl

omit [DecidableEq H] [DecidableEq W] in
/-- A call begins. -/
theorem counted_call (hL : Ledger s) (hO : Owned pool s) {c : C} (hidle : s.client c = .idle)
    {p : ClientPc H W} (hrest : p.rest = []) (howner : ∀ h, p.handle? = some h → pool.owner h = c)
    (hset : ∀ h n, p = .setCount h n → s.AllRecorded h) (hreturn : ∀ h, p ≠ .waitReturn h) :
    Ledger (s.clientGoto c p) ∧ Owned pool (s.clientGoto c p) :=
  counted_client hL hO ⟨rfl, rfl, rfl, rfl, rfl, rfl, rfl⟩ rfl rfl rfl (by rw [hidle, hrest]; rfl)
    howner hset (fun h heq => absurd heq (hreturn h))

/-- **The ledger** of the runs in which no launch comes before the jobs of the last one are
recorded. -/
theorem counted_of_oneAtATime (hs : (system pool).Reaches (OneAtATime pool) s) :
    Ledger s ∧ Owned pool s := by
  refine TransitionSystem.Reaches.invariant (I := fun s => Ledger s ∧ Owned pool s) ?_ ?_ hs
  · rintro s rfl
    exact ⟨ledger_initial, owned_initial⟩
  · rintro s a s' - ⟨hL, hO⟩ hok h
    cases a with
    | worker w =>
      obtain ⟨pc, he⟩ := workerEffect_of_step h
      exact ⟨hL.worker he, hO.worker he⟩
    | exec c handle | lauch c handle n =>
      obtain ⟨hidle, hs'⟩ := Option.ite_none_right_eq_some.mp h
      obtain rfl := Option.some.inj hs'
      obtain ⟨howner, hstatus⟩ := hok
      refine counted_call hL hO hidle rfl (fun h' hh => ?_) (fun h' m heq => ?_) (by simp)
      · obtain rfl := Option.some.inj hh
        exact howner
      · cases heq
        rcases hstatus with hstatus | hdone
        · exact hO.status handle hstatus
        · exact (hL.allRecorded_iff handle).mp (of_decide_eq_true hdone)
    | opWait c handle =>
      obtain ⟨hidle, hs'⟩ := Option.ite_none_right_eq_some.mp h
      obtain rfl := Option.some.inj hs'
      refine counted_call hL hO hidle rfl (fun h' hh => ?_) (by simp) (by simp)
      obtain rfl := Option.some.inj hh
      exact hok
    | fini c =>
      obtain ⟨hidle, hs'⟩ := Option.ite_none_right_eq_some.mp h
      obtain rfl := Option.some.inj hs'
      refine counted_call hL hO hidle rfl (fun h' hh => ?_) (by simp) (by simp)
      cases hh
    | client c => exact counted_clientStep hL hO h
    | wake c =>
      obtain ⟨handle, hb, rfl⟩ := wake_eq_some pool h
      refine counted_client hL hO ⟨rfl, rfl, rfl, rfl, rfl, rfl, rfl⟩ rfl rfl rfl
        (by rw [hb]; rfl) (fun h' hh => hO.owner c h' ?_) (by simp) (by simp)
      rw [hb]
      exact hh

/-- The ledger of the disciplined runs. -/
theorem counted_of_reaches (hs : (system pool).Reaches (Disciplined pool) s) :
    Ledger s ∧ Owned pool s :=
  counted_of_oneAtATime (hs.mono fun _ _ => Disciplined.oneAtATime)

end ThreadPool
end ThreadUtils
