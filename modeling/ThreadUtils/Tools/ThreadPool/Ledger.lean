import ThreadUtils.Tools.ThreadPool.Model
import ThreadUtils.Transition.Accounting

/-!
# Where the jobs of a thread pool are

A job that was launched is with its client, in the queue, with a worker, or its completion
has been recorded, and it is at one of these places only.  Since a job that has begun and
is not recorded is with a worker, it begins once.

`WorkerEffect` says what a step of a worker does to these places, once for all invariants.

## Marks

The jobs have numbers, and `marks` counts how often a number occurs in a list.  The places are lists
of operations, of which a worker has one at most, so a step that moves an operation from one place
to another moves a mark.  The two equations of `WorkerEffect` say this for the job of a worker and
for the number of executions that have begun; they are equations without subtraction, so that the
sums over all threads follow by adding what did not change.
-/

namespace ThreadUtils
namespace ThreadPool

variable {C H W : Type*}

/-! ## Marks -/

/-- `1` for the job `u`. -/
def Operation.mark (u : ℕ) (op : Operation H) : ℕ :=
  if op.uid = u then 1 else 0

/-- How often the job `u` occurs in a list of operations. -/
def marks (u : ℕ) (ops : List (Operation H)) : ℕ :=
  (ops.map (Operation.mark u)).sum

variable {u : ℕ}

@[simp] theorem marks_nil : marks u ([] : List (Operation H)) = 0 := rfl

@[simp] theorem marks_cons (op : Operation H) (ops : List (Operation H)) :
    marks u (op :: ops) = op.mark u + marks u ops := by
  rw [marks, List.map_cons, List.sum_cons]
  rfl

@[simp] theorem marks_append (ops ops' : List (Operation H)) :
    marks u (ops ++ ops') = marks u ops + marks u ops' := by
  rw [marks, List.map_append, List.sum_append]
  rfl

@[simp] theorem count_concat (l : List ℕ) (op : Operation H) :
    (l ++ [op.uid]).count u = l.count u + op.mark u := by
  rw [List.count_append, List.count_singleton, Operation.mark]
  simp

theorem marks_pos {op : Operation H} {ops : List (Operation H)} (h : op ∈ ops) :
    0 < marks op.uid ops := by
  induction ops with
  | nil => exact absurd h (by simp)
  | cons a ops ih =>
    rw [marks_cons]
    rcases List.mem_cons.mp h with rfl | h
    · rw [Operation.mark, if_pos rfl]
      omega
    · have hpos := ih h
      omega

theorem exists_of_marks_pos {ops : List (Operation H)} (h : 0 < marks u ops) :
    ∃ op ∈ ops, op.uid = u := by
  induction ops with
  | nil => exact absurd h (by simp)
  | cons a ops ih =>
    rw [marks_cons, Operation.mark] at h
    by_cases ha : a.uid = u
    · exact ⟨a, List.mem_cons_self .., ha⟩
    · rw [if_neg ha, Nat.zero_add] at h
      obtain ⟨op, hop, heq⟩ := ih h
      exact ⟨op, List.mem_cons_of_mem _ hop, heq⟩

/-- A launch issues each of the next `jobsLen` jobs once. -/
theorem marks_launchedJobs (issued : ℕ) (h : H) (jobsLen : ℕ) :
    marks u (launchedJobs issued h jobsLen) =
      if issued ≤ u ∧ u < issued + jobsLen then 1 else 0 := by
  induction jobsLen generalizing issued with
  | zero =>
    rw [if_neg (by omega)]
    rfl
  | succ n ih =>
    have hcons : launchedJobs issued h (n + 1) = ⟨issued, h⟩ :: launchedJobs (issued + 1) h n := by
      rw [launchedJobs, List.range'_succ, List.map_cons]
      rfl
    rw [hcons, marks_cons, ih, Operation.mark]
    dsimp only
    split_ifs <;> omega

theorem mem_launchedJobs {issued : ℕ} {h : H} {jobsLen : ℕ} {op : Operation H} :
    op ∈ launchedJobs issued h jobsLen ↔
      op.handle = h ∧ issued ≤ op.uid ∧ op.uid < issued + jobsLen := by
  rw [launchedJobs, List.mem_map]
  constructor
  · rintro ⟨uid, hmem, rfl⟩
    obtain ⟨hle, hlt⟩ := List.mem_range'_1.mp hmem
    exact ⟨rfl, hle, hlt⟩
  · rintro ⟨rfl, hle, hlt⟩
    exact ⟨op.uid, List.mem_range'_1.mpr ⟨hle, hlt⟩, rfl⟩

/-! ## The places of a job -/

/-- The jobs that a launch has still to push. -/
def ClientPc.rest : ClientPc H W → List (Operation H)
  | .push rest _ => rest
  | _ => []

/-- The job of a worker, until its completion is recorded. -/
def WorkerPc.carried : WorkerPc H → List (Operation H)
  | .exec op | .execReturn op | .lock op | .decrement op => [op]
  | _ => []

/-- The same, once the job has begun. -/
def WorkerPc.begun : WorkerPc H → List (Operation H)
  | .execReturn op | .lock op | .decrement op => [op]
  | _ => []

/-- The same, once the job has returned. -/
def WorkerPc.ended : WorkerPc H → List (Operation H)
  | .lock op | .decrement op => [op]
  | _ => []

theorem WorkerPc.begun_le_carried (pc : WorkerPc H) : marks u pc.begun ≤ marks u pc.carried := by
  cases pc with
  | execReturn op | lock op | decrement op => exact le_rfl
  | _ => exact Nat.zero_le _

section Pending

variable [Fintype C] [Fintype W]

/-- How often the job `u` is pending: with its client, in the queue or with a worker. -/
def State.pending (s : State C H W) (u : ℕ) : ℕ :=
  ∑ c, marks u (s.client c).rest + marks u s.queue + ∑ w, marks u (s.worker w).carried

variable {s s' : State C H W}

/-- A worker moves, and may take a job from the queue. -/
theorem pending_worker [DecidableEq W] {w : W} {pc : WorkerPc H}
    (hrest : ∀ c, (s'.client c).rest = (s.client c).rest)
    (hworker : s'.worker = Function.update s.worker w pc) :
    s'.pending u + (marks u s.queue + marks u (s.worker w).carried) =
      s.pending u + (marks u s'.queue + marks u pc.carried) := by
  have hclient : ∑ c, marks u (s'.client c).rest = ∑ c, marks u (s.client c).rest :=
    Finset.sum_congr rfl fun c _ => by rw [hrest c]
  have hsum := sum_update_exchange (fun pc => marks u (WorkerPc.carried pc)) s.worker w pc
  rw [State.pending, State.pending, hclient, hworker]
  omega

/-- A client moves, and may give a job to the queue. -/
theorem pending_client [DecidableEq C] {c : C} {p : ClientPc H W}
    (hclient : s'.client = Function.update s.client c p) (hworker : s'.worker = s.worker) :
    s'.pending u + (marks u s.queue + marks u (s.client c).rest) =
      s.pending u + (marks u s'.queue + marks u p.rest) := by
  have hsum := sum_update_exchange (fun p : ClientPc H W => marks u p.rest) s.client c p
  rw [State.pending, State.pending, hclient, hworker]
  omega

/-- A pending job is at one of the three places. -/
theorem exists_of_pending_pos (h : 0 < s.pending u) :
    (∃ c, ∃ op ∈ (s.client c).rest, op.uid = u) ∨ (∃ op ∈ s.queue, op.uid = u) ∨
      ∃ w, ∃ op ∈ (s.worker w).carried, op.uid = u := by
  by_contra hnone
  push Not at hnone
  obtain ⟨hclient, hqueue, hworker⟩ := hnone
  have hzero : ∀ ops : List (Operation H), (∀ op ∈ ops, op.uid ≠ u) → marks u ops = 0 := by
    intro ops hops
    by_contra hne
    obtain ⟨op, hop, heq⟩ := exists_of_marks_pos (Nat.pos_of_ne_zero hne)
    exact hops op hop heq
  have h₁ := (sum_eq_zero_iff_forall fun c => marks u (s.client c).rest).mpr
    fun c => hzero _ (hclient c)
  have h₂ := (sum_eq_zero_iff_forall fun w => marks u (s.worker w).carried).mpr
    fun w => hzero _ (hworker w)
  rw [State.pending, h₁, h₂, hzero _ hqueue] at h
  exact absurd h (lt_irrefl 0)

end Pending

/-! ## What a step of a worker does -/

variable [DecidableEq H] [DecidableEq W]

/-- The worker `w` goes to `pc`, and what becomes of its job and of the queue. -/
structure WorkerEffect (s : State C H W) (w : W) (s' : State C H W) (pc : WorkerPc H) : Prop where
  worker : s'.worker = Function.update s.worker w pc
  client : ∀ c, s'.client c = s.client c ∨
    ∃ h, s.client c = .blocked h ∧ s'.client c = .relock h
  jobs : s'.jobs = s.jobs
  issued : s'.issued = s.issued
  status : s'.status = s.status
  canTerminate : s'.canTerminate = s.canTerminate
  queue_carried : ∀ u,
    marks u s'.queue + marks u pc.carried + s'.recorded.count u =
      marks u s.queue + marks u (s.worker w).carried + s.recorded.count u
  begun : ∀ u,
    s'.started.count u + marks u (s.worker w).begun + s.recorded.count u =
      s.started.count u + marks u pc.begun + s'.recorded.count u
  queue : ∀ op ∈ s'.queue, op ∈ s.queue
  carried : ∀ op ∈ pc.carried, op ∈ s.queue ∨ op ∈ (s.worker w).carried
  finished : ∀ u ∈ s.finished, u ∈ s'.finished
  ended : ∀ op ∈ pc.ended, op ∈ (s.worker w).ended ∨ op.uid ∈ s'.finished
  recorded : (s'.recorded = s.recorded ∧ s'.processCount = s.processCount) ∨
    ∃ op, s.worker w = .decrement op ∧ s'.recorded = s.recorded ++ [op.uid] ∧
      s'.processCount =
        Function.update s.processCount op.handle (s.processCount op.handle - 1)

/-- A woken client has no jobs to push, before and after. -/
theorem WorkerEffect.rest {s s' : State C H W} {w : W} {pc : WorkerPc H}
    (he : WorkerEffect s w s' pc) (c : C) : (s'.client c).rest = (s.client c).rest := by
  rcases he.client c with heq | ⟨h, hb, hb'⟩
  · rw [heq]
  · rw [hb, hb']
    rfl

theorem notifyAll_client (s : State C H W) (h : H) (c : C) :
    (s.notifyAll h).client c = s.client c ∨
      ∃ h', s.client c = .blocked h' ∧ (s.notifyAll h).client c = .relock h' := by
  by_cases hb : s.client c = .blocked h
  · exact Or.inr ⟨h, hb, if_pos hb⟩
  · exact Or.inl (if_neg hb)

omit [DecidableEq W] in
theorem lock_eq_some {s s' : State C H W} {h : H} {t : W ⊕ C} (hlock : s.lock h t = some s') :
    s.mutex h = none ∧ s' = { s with mutex := Function.update s.mutex h (some t) } := by
  unfold State.lock at hlock
  split at hlock
  · next hfree => exact ⟨hfree, (Option.some.inj hlock).symm⟩
  · cases hlock

variable {s s' : State C H W} {w : W}

/-- A step that is about the semaphore or the mutex leaves every job where it is. -/
theorem WorkerEffect.local {pc : WorkerPc H} (n : ℕ) (m : H → Option (W ⊕ C))
    {cl : C → ClientPc H W}
    (hclient : ∀ c, cl c = s.client c ∨ ∃ h, s.client c = .blocked h ∧ cl c = .relock h)
    (hcarried : pc.carried = (s.worker w).carried) (hbegun : pc.begun = (s.worker w).begun)
    (hended : pc.ended = (s.worker w).ended) :
    WorkerEffect s w { s.goto w pc with sem := n, mutex := m, client := cl } pc where
  worker := rfl
  client := hclient
  jobs := rfl
  issued := rfl
  status := rfl
  canTerminate := rfl
  queue_carried u := by
    rw [hcarried]
    rfl
  begun u := by
    rw [hbegun]
    rfl
  queue op hop := hop
  carried op hop := Or.inr (hcarried ▸ hop)
  finished u hu := hu
  ended op hop := Or.inl (hended ▸ hop)
  recorded := Or.inl ⟨rfl, rfl⟩

theorem workerEffect_of_step (h : s.workerStep w = some s') :
    ∃ pc, WorkerEffect s w s' pc := by
  unfold State.workerStep at h
  split at h
  case h_1 =>
    next hpc =>
    split at h
    · obtain rfl := Option.some.inj h
      exact ⟨.checkTerminate, .local (s.sem - 1) s.mutex (fun _ => Or.inl rfl)
        (by rw [hpc]; rfl) (by rw [hpc]; rfl) (by rw [hpc]; rfl)⟩
    · cases h
  case h_2 =>
    next hpc =>
    obtain rfl := Option.some.inj h
    refine ⟨_, .local s.sem s.mutex (fun _ => Or.inl rfl) ?_ ?_ ?_⟩ <;> rw [hpc] <;> split <;> rfl
  case h_3 =>
    next hpc =>
    split at h
    · next op rest hq =>
      obtain rfl := Option.some.inj h
      refine ⟨.exec op, rfl, fun _ => Or.inl rfl, rfl, rfl, rfl, rfl, fun u => ?_, fun u => ?_,
        fun op' hop' => ?_, fun op' hop' => ?_, fun _ hu => hu, fun op' hop' => ?_,
        Or.inl ⟨rfl, rfl⟩⟩
      · rw [hpc, hq, marks_cons]
        show marks u rest + marks u [op] + s.recorded.count u =
          op.mark u + marks u rest + marks u [] + s.recorded.count u
        rw [marks_cons, marks_nil]
        omega
      · rw [hpc]
        rfl
      · rw [hq]
        exact List.mem_cons_of_mem _ hop'
      · rw [hq, List.mem_singleton.mp hop']
        exact Or.inl (List.mem_cons_self ..)
      · cases hop'
    · obtain rfl := Option.some.inj h
      exact ⟨.acquire, .local s.sem s.mutex (fun _ => Or.inl rfl)
        (by rw [hpc]; rfl) (by rw [hpc]; rfl) (by rw [hpc]; rfl)⟩
  case h_4 =>
    next op hpc =>
    obtain rfl := Option.some.inj h
    refine ⟨.execReturn op, rfl, fun _ => Or.inl rfl, rfl, rfl, rfl, rfl, fun u => ?_, fun u => ?_,
      fun _ hop' => hop', fun op' hop' => ?_, fun _ hu => hu, fun op' hop' => ?_,
      Or.inl ⟨rfl, rfl⟩⟩
    · rw [hpc]
      rfl
    · rw [hpc, count_concat]
      show s.started.count u + op.mark u + marks u [] + s.recorded.count u =
        s.started.count u + marks u [op] + s.recorded.count u
      rw [marks_nil, marks_cons, marks_nil]
      omega
    · rw [hpc]
      exact Or.inr hop'
    · cases hop'
  case h_5 =>
    next op hpc =>
    obtain rfl := Option.some.inj h
    refine ⟨.lock op, rfl, fun _ => Or.inl rfl, rfl, rfl, rfl, rfl, fun u => ?_, fun u => ?_,
      fun _ hop' => hop', fun op' hop' => ?_, fun _ hu => List.mem_append_left _ hu,
      fun op' hop' => ?_, Or.inl ⟨rfl, rfl⟩⟩
    · rw [hpc]
      rfl
    · rw [hpc]
      rfl
    · rw [hpc]
      exact Or.inr hop'
    · rw [List.mem_singleton.mp hop']
      exact Or.inr (List.mem_append_right _ (List.mem_singleton.mpr rfl))
  case h_6 =>
    next op hpc =>
    obtain ⟨t, hlock, rfl⟩ := Option.map_eq_some_iff.mp h
    obtain ⟨-, rfl⟩ := lock_eq_some hlock
    exact ⟨.decrement op, .local s.sem _ (fun _ => Or.inl rfl)
      (by rw [hpc]; rfl) (by rw [hpc]; rfl) (by rw [hpc]; rfl)⟩
  case h_7 =>
    next op hpc =>
    obtain rfl := Option.some.inj h
    refine ⟨.test op.handle, rfl, fun _ => Or.inl rfl, rfl, rfl, rfl, rfl, fun u => ?_, fun u => ?_,
      fun _ hop' => hop', fun op' hop' => ?_, fun _ hu => hu, fun op' hop' => ?_,
      Or.inr ⟨op, hpc, rfl, rfl⟩⟩
    · rw [hpc, count_concat]
      show marks u s.queue + marks u [] + (s.recorded.count u + op.mark u) =
        marks u s.queue + marks u [op] + s.recorded.count u
      rw [marks_nil, marks_cons, marks_nil]
      omega
    · rw [hpc, count_concat]
      show s.started.count u + marks u [op] + s.recorded.count u =
        s.started.count u + marks u [] + (s.recorded.count u + op.mark u)
      rw [marks_nil, marks_cons, marks_nil]
      omega
    · cases hop'
    · cases hop'
  case h_8 =>
    next hpc =>
    obtain rfl := Option.some.inj h
    refine ⟨_, .local s.sem s.mutex (fun _ => Or.inl rfl) ?_ ?_ ?_⟩ <;> rw [hpc] <;> split <;> rfl
  case h_9 =>
    next handle hpc =>
    obtain rfl := Option.some.inj h
    exact ⟨.unlock handle, .local s.sem s.mutex (notifyAll_client s handle)
      (by rw [hpc]; rfl) (by rw [hpc]; rfl) (by rw [hpc]; rfl)⟩
  case h_10 =>
    next hpc =>
    obtain rfl := Option.some.inj h
    exact ⟨.pop, .local s.sem _ (fun _ => Or.inl rfl)
      (by rw [hpc]; rfl) (by rw [hpc]; rfl) (by rw [hpc]; rfl)⟩
  case h_11 => cases h

/-- A client that wakes up was blocked, and goes on to lock the mutex. -/
theorem wake_eq_some [DecidableEq C] (pool : Pool C H W) {c : C}
    (h : step pool s (.wake c) = some s') :
    ∃ handle, s.client c = .blocked handle ∧ s' = s.clientGoto c (.relock handle) := by
  rw [step] at h
  split at h
  · next handle hb => exact ⟨handle, hb, (Option.some.inj h).symm⟩
  · cases h

end ThreadPool
end ThreadUtils
