import ThreadUtils.Tools.AsyncWorker.Model
import ThreadUtils.Transition.Mutex

/-!
# The worker and a pending job

The flags are only changed under the mutex, so the worker never tests a flag and blocks
over a change of it.  What can go wrong is the signal: `tu_aw_exec` and `tu_aw_fini` call
`notify_one`, and a client that waits for the end of the job is blocked on the same
condition variable.  When the client is woken in the place of the worker, it finds that
the job is not done and blocks again, and the worker sleeps on the job
(`exec_wakes_client`).  `tu_aw_run`, which signals the end of a job, calls `notify_all`.

## The condition

Whom `notify_one` wakes is a choice of the environment, so the condition speaks of the choice and of
the state before it (`WakesWorker`): a signal does not go to a client while the worker is blocked.
It asks no more than it has to.  A call of `tu_aw_exec` may wake a client if the job is done, or if
another call will still notify; for then the worker has nothing to miss.

## The invariant

Covered means that a blocked worker with a pending job has a call that has set the job and has not
notified yet (`Inv.job`), and in the same way for the termination (`Inv.fini`).  The step that can
break this is the one by which the worker blocks, since a call may have set a job just before.
It may not: between the test of the flags and the block the worker holds the mutex, and every
change of a flag is made with the mutex in hand (`Inv.block`, `Inv.not_block`).  The other step is
the signal, and there the condition is used.

A spurious wake-up of the worker does no harm; it tests the flags and blocks again.
-/

namespace ThreadUtils
namespace AsyncWorker

variable {C J : Type*}

/-! ## The property and its condition -/

/-- A call of `tu_aw_exec` that has set its job and will call `notify_one`. -/
def ClientPc.execDue : ClientPc J → Prop
  | .execUnlock | .execNotify => True
  | _ => False

/-- A call of `tu_aw_fini` that has set `can_terminate` and will call `notify_one`. -/
def ClientPc.finiDue : ClientPc J → Prop
  | .finiUnlock | .finiNotify => True
  | _ => False

instance (pc : ClientPc J) : Decidable pc.execDue :=
  match pc with
  | .execUnlock | .execNotify => inferInstanceAs (Decidable True)
  | .idle | .execLock _ | .execSet _ | .execClear | .waitLock | .waitCheck | .waitTest
  | .waitBlock | .blocked | .relock | .waitReturn | .finiLock | .finiSet | .finiUnlock
  | .finiNotify | .finiJoin => inferInstanceAs (Decidable False)

/-- The worker sleeps on a job that has not started, and nobody will wake it. -/
structure SleepsOnJob (s : State C J) : Prop where
  workDone : s.workDone = false
  started : s.started = false
  blocked : s.worker = .blocked
  not_due : ∀ c, ¬ (s.client c).execDue

/-- The worker sleeps although it was told to terminate. -/
structure SleepsOnFini (s : State C J) : Prop where
  finiNotified : s.finiNotified = true
  canTerminate : s.canTerminate = true
  blocked : s.worker = .blocked

/-- `notify_one` does not wake a client in the place of the blocked worker: not in
`tu_aw_fini`, and not in `tu_aw_exec` while the job is not done and no other call of
`tu_aw_exec` will notify. -/
def WakesWorker (s : State C J) : Action C J → Prop
  | .client c woken =>
      s.worker = .blocked → woken ≠ some .worker →
        (s.client c = .execNotify → s.workDone = false → ∃ d, d ≠ c ∧ (s.client d).execDue) ∧
        s.client c ≠ .finiNotify
  | _ => True

instance [Fintype C] [DecidableEq C] [DecidableEq J] (s : State C J) (a : Action C J) :
    Decidable (WakesWorker s a) :=
  match a with
  | .client c woken => inferInstanceAs (Decidable (s.worker = .blocked →
      woken ≠ some .worker →
        (s.client c = .execNotify → s.workDone = false → ∃ d, d ≠ c ∧ (s.client d).execDue) ∧
        s.client c ≠ .finiNotify))
  | .worker | .exec _ _ | .wait _ | .fini _ | .wake _ => inferInstanceAs (Decidable True)

/-! ## The critical sections -/

/-- The worker holds the mutex. -/
def WorkerPc.locked : WorkerPc → Prop
  | .test | .block | .check | .exec | .execReturn | .setDone | .unlock => True
  | _ => False

/-- The client holds the mutex. -/
def ClientPc.locked : ClientPc J → Prop
  | .execSet _ | .execClear | .execUnlock | .waitCheck | .waitTest | .waitBlock | .waitReturn
  | .finiSet | .finiUnlock => True
  | _ => False

/-- The thread holds the mutex. -/
def State.Holds (s : State C J) : Thread C → Prop
  | .worker => s.worker.locked
  | .client c => (s.client c).locked

/-- The invariant of the worker. -/
structure Inv (s : State C J) : Prop where
  owns : Owns s.Holds s.mutex
  /-- The worker blocks when there is nothing to do. -/
  block : s.worker = .block → s.workDone = true ∧ s.canTerminate = false
  /-- A job of a blocked worker has somebody who will notify. -/
  job : s.worker = .blocked → s.workDone = false → ∃ c, (s.client c).execDue
  fini : s.worker = .blocked → s.canTerminate = true → s.finiNotified = false
  finiDue : ∀ c, (s.client c).finiDue → s.canTerminate = true
  finiNotified : s.finiNotified = true → s.canTerminate = true

variable {s s' : State C J}

/-- A client that moves and leaves the worker and the flags alone. -/
theorem Inv.client [DecidableEq C] (hI : Inv s) {c : C} {p : ClientPc J}
    (hc : s'.client = Function.update s.client c p) (hworker : s'.worker = s.worker)
    (hdone : s'.workDone = s.workDone) (hterm : s'.canTerminate = s.canTerminate)
    (hnotified : s'.finiNotified = s.finiNotified) (howns : Owns s'.Holds s'.mutex)
    (hexec : (s.client c).execDue → p.execDue ∨ (s.worker = .blocked → s.workDone = false →
      ∃ d, d ≠ c ∧ (s.client d).execDue))
    (hfini : p.finiDue → s.canTerminate = true) : Inv s' := by
  refine ⟨howns, ?_, ?_, ?_, ?_, ?_⟩
  · rw [hworker, hdone, hterm]
    exact hI.block
  · rw [hworker, hdone]
    intro hblocked hpending
    rw [hc]
    have hother : ∀ d, d ≠ c → (s.client d).execDue →
        ∃ d, (Function.update s.client c p d).execDue := by
      intro d hne hd
      exact ⟨d, by rw [Function.update_of_ne hne]; exact hd⟩
    obtain ⟨d, hd⟩ := hI.job hblocked hpending
    by_cases h : d = c
    · subst h
      rcases hexec hd with hp | hd'
      · exact ⟨d, by rw [Function.update_self]; exact hp⟩
      · obtain ⟨d', hne, hd'⟩ := hd' hblocked hpending
        exact hother d' hne hd'
    · exact hother d h hd
  · rw [hworker, hterm, hnotified]
    exact hI.fini
  · intro d hd
    rw [hterm]
    rw [hc] at hd
    by_cases h : d = c
    · subst h
      rw [Function.update_self] at hd
      exact hfini hd
    · rw [Function.update_of_ne h] at hd
      exact hI.finiDue d hd
  · rw [hterm, hnotified]
    exact hI.finiNotified

/-- A worker that moves and is not blocked after its move. -/
theorem Inv.goto (hI : Inv s) {p : WorkerPc} (hworker : s'.worker = p)
    (hblocked : p ≠ .blocked) (hfini : ∀ c, (s'.client c).finiDue → (s.client c).finiDue)
    (hterm : s'.canTerminate = s.canTerminate) (hnotified : s'.finiNotified = s.finiNotified)
    (howns : Owns s'.Holds s'.mutex)
    (hblock : p = .block → s'.workDone = true ∧ s'.canTerminate = false) : Inv s' := by
  subst hworker
  refine ⟨howns, hblock, fun h => absurd h hblocked, fun h => absurd h hblocked, ?_, ?_⟩
  · intro c hc
    rw [hterm]
    exact hI.finiDue c (hfini c hc)
  · rw [hterm, hnotified]
    exact hI.finiNotified

/-! ## The mutex -/

/-- The other threads hold the mutex as before. -/
theorem holds_of_ne_client [DecidableEq C] {c : C} {p : ClientPc J}
    (hc : s'.client = Function.update s.client c p) (hworker : s'.worker = s.worker)
    (u : Thread C) (hu : u ≠ .client c) : s'.Holds u ↔ s.Holds u := by
  cases u with
  | worker => rw [State.Holds, State.Holds, hworker]
  | client d =>
    have hd : d ≠ c := by
      rintro rfl
      exact hu rfl
    rw [State.Holds, State.Holds, hc, Function.update_of_ne hd]

theorem holds_client [DecidableEq C] {c : C} {p : ClientPc J}
    (hc : s'.client = Function.update s.client c p) : s'.Holds (.client c) ↔ p.locked := by
  rw [State.Holds, hc, Function.update_self]

theorem holds_of_ne_worker (hc : ∀ c, (s'.client c).locked ↔ (s.client c).locked)
    (u : Thread C) (hu : u ≠ .worker) : s'.Holds u ↔ s.Holds u := by
  cases u with
  | worker => exact absurd rfl hu
  | client d => exact hc d

/-- A client in its critical section keeps the worker from its block. -/
theorem Inv.not_block (hI : Inv s) (hold : (s.client c).locked) : s.worker ≠ .block := by
  intro hblock
  have hworker : s.Holds .worker := by
    show s.worker.locked
    rw [hblock]
    trivial
  have heq : Thread.worker = .client c := hI.owns.unique hworker hold
  cases heq

section Client

variable [DecidableEq C] {c : C} {p : ClientPc J}

/-- A client moves inside or outside of its critical section. -/
theorem owns_keep (h : Owns s.Holds s.mutex) (hc : s'.client = Function.update s.client c p)
    (hworker : s'.worker = s.worker) (hmutex : s'.mutex = s.mutex)
    (hlocked : p.locked ↔ (s.client c).locked) : Owns s'.Holds s'.mutex := by
  rw [hmutex]
  refine h.keep fun u => ?_
  by_cases hu : u = .client c
  · subst hu
    rw [holds_client hc, hlocked]
    rfl
  · exact holds_of_ne_client hc hworker u hu

/-- A client enters its critical section. -/
theorem owns_lock (h : Owns s.Holds s.mutex) (hfree : s.mutex = none)
    (hc : s'.client = Function.update s.client c p) (hworker : s'.worker = s.worker)
    (hmutex : s'.mutex = some (.client c)) (hlocked : p.locked) : Owns s'.Holds s'.mutex := by
  rw [hfree] at h
  rw [hmutex]
  exact h.acquire ((holds_client hc).mpr hlocked) (holds_of_ne_client hc hworker)

/-- A client leaves its critical section. -/
theorem owns_unlock (h : Owns s.Holds s.mutex) (hold : (s.client c).locked)
    (hc : s'.client = Function.update s.client c p) (hworker : s'.worker = s.worker)
    (hmutex : s'.mutex = none) (hlocked : ¬ p.locked) : Owns s'.Holds s'.mutex := by
  rw [hmutex]
  exact h.release (t := .client c) hold (fun hnew => hlocked ((holds_client hc).mp hnew))
    (holds_of_ne_client hc hworker)

end Client

/-! ## The steps -/

/-- A step of the worker inside its critical section. -/
theorem Inv.inside (hI : Inv s) (hold : s.worker.locked) {p : WorkerPc} (hlocked : p.locked)
    (hworker : s'.worker = p) (hc : s'.client = s.client) (hmutex : s'.mutex = s.mutex)
    (hterm : s'.canTerminate = s.canTerminate) (hnotified : s'.finiNotified = s.finiNotified)
    (hblock : p = .block → s'.workDone = true ∧ s'.canTerminate = false) : Inv s' := by
  have hblocked : p ≠ .blocked := by
    rintro rfl
    exact hlocked
  refine hI.goto hworker hblocked (fun c => ?_) hterm hnotified ?_ hblock
  · rw [hc]
    exact id
  · rw [hmutex]
    refine hI.owns.keep fun u => ?_
    cases u with
    | worker =>
      rw [State.Holds, hworker]
      exact ⟨fun _ => hold, fun _ => hlocked⟩
    | client d => rw [State.Holds, State.Holds, hc]

/-- The worker unlocks the mutex. -/
theorem owns_workerUnlock (hI : Inv s) (hold : s.worker.locked) (hlocked : ¬ s'.worker.locked)
    (hc : s'.client = s.client) : Owns s'.Holds none := by
  refine hI.owns.release (t := .worker) hold hlocked (holds_of_ne_worker fun d => ?_)
  rw [hc]

theorem lock_eq_some {t : Thread C} (h : s.lock t = some s') :
    s.mutex = none ∧ s' = { s with mutex := some t } := by
  unfold State.lock at h
  split at h
  · next hfree => exact ⟨hfree, (Option.some.inj h).symm⟩
  · cases h

section Steps

variable [DecidableEq C]

/-- A woken thread has to lock the mutex. -/
theorem Inv.wakeUp (hI : Inv s) {t : Thread C} (hb : s.isBlocked t) : Inv (s.wakeUp t) := by
  cases t with
  | worker =>
    have hb : s.worker = .blocked := hb
    refine hI.goto (p := .relock) rfl (by simp) (fun c hc => hc) rfl rfl ?_ (by simp)
    refine hI.owns.keep fun u => ?_
    cases u with
    | worker =>
      show WorkerPc.relock.locked ↔ s.worker.locked
      rw [hb]
      rfl
    | client d => exact Iff.rfl
  | client c =>
    have hb : s.client c = .blocked := hb
    refine hI.client (c := c) (p := .relock) rfl rfl rfl rfl rfl
      (owns_keep hI.owns rfl rfl rfl ?_) ?_ False.elim
    · rw [hb]
      rfl
    · rw [hb]
      exact False.elim

variable [DecidableEq J]

/-- What `notify_one` does. -/
theorem notifyOne_cases [Fintype C] {woken : Option (Thread C)}
    (h : s.notifyOne woken = some s') :
    (∃ t, woken = some t ∧ s.isBlocked t ∧ s' = s.wakeUp t) ∨ (s.worker ≠ .blocked ∧ s' = s) := by
  unfold State.notifyOne at h
  split at h
  · next t =>
    split at h
    · next hb => exact Or.inl ⟨t, rfl, hb, (Option.some.inj h).symm⟩
    · cases h
  · split at h
    · next hnone => exact Or.inr ⟨hnone.1, (Option.some.inj h).symm⟩
    · cases h

/-- `notify_one` does not touch a client that is not blocked, nor the flags. -/
theorem notifyOne_frame [Fintype C] {woken : Option (Thread C)}
    (h : s.notifyOne woken = some s') :
    (∀ c, s.client c ≠ .blocked → s'.client c = s.client c) ∧
      (∀ c, (s'.client c).execDue ↔ (s.client c).execDue) ∧ s'.workDone = s.workDone ∧
      s'.canTerminate = s.canTerminate ∧ (s'.worker = .blocked → s.worker = .blocked ∧
        woken ≠ some .worker) := by
  rcases notifyOne_cases h with ⟨t, rfl, hb, rfl⟩ | ⟨hne, rfl⟩
  · cases t with
    | worker =>
      exact ⟨fun _ _ => rfl, fun _ => Iff.rfl, rfl, rfl, fun hblocked => by cases hblocked⟩
    | client d =>
      have hb : s.client d = .blocked := hb
      refine ⟨fun c hc => ?_, fun c => ?_, rfl, rfl, fun hblocked => ⟨hblocked, by simp⟩⟩
      · have hne : c ≠ d := by
          rintro rfl
          exact hc hb
        exact Function.update_of_ne hne _ _
      · show (Function.update s.client d .relock c).execDue ↔ _
        by_cases hcd : c = d
        · subst hcd
          rw [Function.update_self, hb]
          rfl
        · rw [Function.update_of_ne hcd]
  · exact ⟨fun _ _ => rfl, fun _ => Iff.rfl, rfl, rfl, fun hblocked => absurd hblocked hne⟩

theorem Inv.notifyOne [Fintype C] (hI : Inv s) {woken : Option (Thread C)}
    (h : s.notifyOne woken = some s') : Inv s' := by
  rcases notifyOne_cases h with ⟨t, -, hb, rfl⟩ | ⟨-, rfl⟩
  · exact hI.wakeUp hb
  · exact hI

omit [DecidableEq C] in
theorem inv_workerStep (hI : Inv s) (h : s.workerStep = some s') : Inv s' := by
  unfold State.workerStep at h
  split at h
  case h_1 | h_2 =>
    obtain ⟨t, hlock, rfl⟩ := Option.map_eq_some_iff.mp h
    obtain ⟨hfree, rfl⟩ := lock_eq_some hlock
    refine hI.goto (p := .test) rfl (by simp) (fun c => id) rfl rfl ?_ (by simp)
    have howns := hI.owns
    rw [hfree] at howns
    refine Owns.acquire (t := .worker) howns ?_ (holds_of_ne_worker ?_)
    · trivial
    · exact fun d => Iff.rfl
  case h_3 =>
    next hpc =>
    obtain rfl := Option.some.inj h
    have hold : s.worker.locked := by
      rw [hpc]
      trivial
    refine hI.inside hold ?_ rfl rfl rfl rfl rfl fun hblock => ?_
    · split <;> trivial
    · split at hblock
      · cases hblock
      · next hfalse =>
        have hquiet : s.workDone = true ∧ s.canTerminate = false := by simpa using hfalse
        exact hquiet
  case h_4 =>
    next hpc =>
    obtain rfl := Option.some.inj h
    obtain ⟨hdone, hterm⟩ := hI.block hpc
    have hold : s.worker.locked := by
      rw [hpc]
      trivial
    refine ⟨owns_workerUnlock hI hold id rfl, fun hblock => (by cases hblock), ?_, ?_, hI.finiDue,
      hI.finiNotified⟩
    · intro _ hpending
      exact absurd (hdone.symm.trans hpending) (by simp)
    · intro _ htrue
      exact absurd (hterm.symm.trans htrue) (by simp)
  case h_5 =>
    next hpc =>
    have hold : s.worker.locked := by
      rw [hpc]
      trivial
    split at h
    · obtain rfl := Option.some.inj h
      exact hI.goto (p := .exited) rfl (by simp) (fun c => id) rfl rfl
        (owns_workerUnlock hI hold id rfl) (by simp)
    · obtain rfl := Option.some.inj h
      exact hI.inside hold (p := .exec) trivial rfl rfl rfl rfl rfl (by simp)
  case h_6 =>
    next hpc =>
    obtain ⟨job, -, rfl⟩ := Option.map_eq_some_iff.mp h
    exact hI.inside (by rw [hpc]; trivial) (p := .execReturn) trivial rfl rfl rfl rfl rfl (by simp)
  case h_7 =>
    next hpc =>
    obtain rfl := Option.some.inj h
    exact hI.inside (by rw [hpc]; trivial) (p := .setDone) trivial rfl rfl rfl rfl rfl (by simp)
  case h_8 =>
    next hpc =>
    obtain rfl := Option.some.inj h
    exact hI.inside (by rw [hpc]; trivial) (p := .unlock) trivial rfl rfl rfl rfl rfl (by simp)
  case h_9 =>
    next hpc =>
    obtain rfl := Option.some.inj h
    exact hI.goto (p := .notify) rfl (by simp) (fun c => id) rfl rfl
      (owns_workerUnlock hI (by rw [hpc]; trivial) id rfl) (by simp)
  case h_10 =>
    next hpc =>
    obtain rfl := Option.some.inj h
    -- a woken client was not in a critical section and is not
    have hwoken : ∀ c, (s.notifyAll.client c = s.client c) ∨
        s.client c = .blocked ∧ s.notifyAll.client c = .relock := by
      intro c
      by_cases hb : s.client c = .blocked
      · exact Or.inr ⟨hb, if_pos hb⟩
      · exact Or.inl (if_neg hb)
    refine hI.goto (p := .lock) rfl (by simp) (fun c hdue => ?_) rfl rfl ?_ (by simp)
    · rcases hwoken c with heq | ⟨hb, heq⟩
      · exact heq ▸ hdue
      · have hdue : (s.notifyAll.client c).finiDue := hdue
        rw [heq] at hdue
        exact hdue.elim
    · refine hI.owns.keep fun u => ?_
      cases u with
      | worker =>
        show WorkerPc.lock.locked ↔ s.worker.locked
        rw [hpc]
        rfl
      | client d =>
        show (s.notifyAll.client d).locked ↔ (s.client d).locked
        rcases hwoken d with heq | ⟨hb, heq⟩
        · rw [heq]
        · rw [heq, hb]
          rfl
  all_goals cases h

variable [Fintype C]

omit [DecidableEq J] [Fintype C] in
/-- A client locks the mutex. -/
theorem Inv.clientLock (hI : Inv s) {c : C} {t : State C J} {p : ClientPc J}
    (hlock : s.lock (.client c) = some t) (hlocked : p.locked)
    (hdue : ¬ (s.client c).execDue) (hfini : ¬ p.finiDue) : Inv (t.clientGoto c p) := by
  obtain ⟨hfree, rfl⟩ := lock_eq_some hlock
  exact hI.client (c := c) (p := p) rfl rfl rfl rfl rfl
    (owns_lock hI.owns hfree rfl rfl rfl hlocked) (fun h => absurd h hdue) fun h => absurd h hfini

omit [DecidableEq J] [Fintype C] in
/-- A client moves inside of its critical section or outside of it. -/
theorem Inv.clientMove (hI : Inv s) {c : C} {p : ClientPc J}
    (hlocked : p.locked ↔ (s.client c).locked) (hdue : (s.client c).execDue → p.execDue)
    (hfini : p.finiDue → s.canTerminate = true) : Inv (s.clientGoto c p) :=
  hI.client (c := c) (p := p) rfl rfl rfl rfl rfl (owns_keep hI.owns rfl rfl rfl hlocked)
    (fun h => Or.inl (hdue h)) hfini

omit [DecidableEq J] [Fintype C] in
/-- A client unlocks the mutex. -/
theorem Inv.clientUnlock (hI : Inv s) {c : C} {p : ClientPc J} (hold : (s.client c).locked)
    (hlocked : ¬ p.locked) (hdue : (s.client c).execDue → p.execDue)
    (hfini : p.finiDue → s.canTerminate = true) :
    Inv { s.clientGoto c p with mutex := none } :=
  hI.client (c := c) (p := p) rfl rfl rfl rfl rfl (owns_unlock hI.owns hold rfl rfl rfl hlocked)
    (fun h => Or.inl (hdue h)) hfini

theorem inv_clientStep (hI : Inv s) {c : C} {woken : Option (Thread C)}
    (hok : WakesWorker s (.client c woken)) (h : s.clientStep c woken = some s') : Inv s' := by
  unfold State.clientStep at h
  split at h
  case h_1 | h_6 | h_8 | h_12 =>
    next hpc =>
    obtain ⟨t, hlock, rfl⟩ := Option.map_eq_some_iff.mp h
    exact hI.clientLock hlock trivial (by rw [hpc]; exact id) id
  case h_2 =>
    next job hpc =>
    split at h
    · obtain rfl := Option.some.inj h
      exact hI.client (c := c) (p := .execClear) rfl rfl rfl rfl rfl
        (owns_keep hI.owns rfl rfl rfl (by rw [hpc]; rfl))
        (by rw [hpc]; exact False.elim) False.elim
    · cases h
  case h_3 =>
    -- the job is set, and this call will notify
    next hpc =>
    obtain rfl := Option.some.inj h
    have hold : (s.client c).locked := by
      rw [hpc]
      trivial
    refine ⟨owns_keep (c := c) (p := .execUnlock) hI.owns rfl rfl rfl (by rw [hpc]; rfl), ?_, ?_,
      hI.fini, ?_, hI.finiNotified⟩
    · exact fun hblock => absurd hblock (hI.not_block hold)
    · refine fun _ _ => ⟨c, ?_⟩
      show (Function.update s.client c .execUnlock c).execDue
      rw [Function.update_self]
      trivial
    · intro d hd
      by_cases hdc : d = c
      · subst hdc
        have hd : (Function.update s.client d .execUnlock d).finiDue := hd
        rw [Function.update_self] at hd
        exact hd.elim
      · have hd : (Function.update s.client c .execUnlock d).finiDue := hd
        rw [Function.update_of_ne hdc] at hd
        exact hI.finiDue d hd
  case h_4 =>
    next hpc =>
    obtain rfl := Option.some.inj h
    exact hI.clientUnlock (by rw [hpc]; trivial) id (fun _ => trivial) False.elim
  case h_5 =>
    next hpc =>
    obtain ⟨t, hnotify, rfl⟩ := Option.map_eq_some_iff.mp h
    obtain ⟨hclient, hdue, hdone, -, hblocked⟩ := notifyOne_frame hnotify
    have hpc' : t.client c = .execNotify := by
      rw [hclient c (by rw [hpc]; simp), hpc]
    refine (hI.notifyOne hnotify).client (c := c) (p := .idle) rfl rfl rfl rfl rfl
      (owns_keep (hI.notifyOne hnotify).owns rfl rfl rfl (by rw [hpc']; rfl)) ?_ False.elim
    refine fun _ => Or.inr fun hworker hpending => ?_
    obtain ⟨hworker, hwoken⟩ := hblocked hworker
    rw [hdone] at hpending
    obtain ⟨d, hdc, hd⟩ := (hok hworker hwoken).1 hpc hpending
    exact ⟨d, hdc, (hdue d).mpr hd⟩
  case h_7 =>
    next hpc =>
    obtain rfl := Option.some.inj h
    refine hI.clientMove ?_ (by rw [hpc]; exact False.elim) ?_
    · rw [hpc]
      split <;> rfl
    · split <;> exact False.elim
  case h_9 =>
    next hpc =>
    obtain rfl := Option.some.inj h
    refine hI.clientMove ?_ (by rw [hpc]; exact False.elim) ?_
    · rw [hpc]
      split <;> rfl
    · split <;> exact False.elim
  case h_10 | h_11 =>
    next hpc =>
    obtain rfl := Option.some.inj h
    exact hI.clientUnlock (by rw [hpc]; trivial) id (by rw [hpc]; exact False.elim) False.elim
  case h_13 =>
    -- the client holds the mutex, so the worker is not about to block
    next hpc =>
    obtain rfl := Option.some.inj h
    have hold : (s.client c).locked := by
      rw [hpc]
      trivial
    refine ⟨owns_keep (c := c) (p := .finiUnlock) hI.owns rfl rfl rfl (by rw [hpc]; rfl), ?_, ?_,
      ?_, fun _ _ => rfl, fun _ => rfl⟩
    · exact fun hblock => absurd hblock (hI.not_block hold)
    · intro hblocked hpending
      obtain ⟨d, hd⟩ := hI.job hblocked hpending
      have hdc : d ≠ c := by
        rintro rfl
        rw [hpc] at hd
        exact hd
      refine ⟨d, ?_⟩
      show (Function.update s.client c .finiUnlock d).execDue
      rw [Function.update_of_ne hdc]
      exact hd
    · intro hblocked _
      by_contra hnotified
      have hterm : s.canTerminate = true := hI.finiNotified (Bool.not_eq_false _ ▸ hnotified)
      exact hnotified (hI.fini hblocked hterm)
  case h_14 =>
    next hpc =>
    obtain rfl := Option.some.inj h
    have hterm : s.canTerminate = true := hI.finiDue c (by rw [hpc]; trivial)
    exact hI.clientUnlock (by rw [hpc]; trivial) id (by rw [hpc]; exact False.elim) fun _ => hterm
  case h_15 =>
    next hpc =>
    obtain ⟨t, hnotify, rfl⟩ := Option.map_eq_some_iff.mp h
    obtain ⟨hclient, hdue, hdone, hterm', hblocked⟩ := notifyOne_frame hnotify
    have hterm : s.canTerminate = true := hI.finiDue c (by rw [hpc]; trivial)
    have hpc' : t.client c = .finiNotify := by
      rw [hclient c (by rw [hpc]; simp), hpc]
    have hJ : Inv (t.clientGoto c .finiJoin) := (hI.notifyOne hnotify).clientMove
      (by rw [hpc']; rfl) (by rw [hpc']; exact False.elim) False.elim
    refine ⟨hJ.owns, hJ.block, hJ.job, fun hworker _ => ?_, hJ.finiDue, fun _ => ?_⟩
    · obtain ⟨hworker, hwoken⟩ := hblocked hworker
      exact absurd hpc (hok hworker hwoken).2
    · exact hterm'.trans hterm
  case h_16 =>
    next hpc =>
    split at h
    · obtain rfl := Option.some.inj h
      exact hI.clientMove (by rw [hpc]; rfl) (by rw [hpc]; exact False.elim) False.elim
    · cases h
  all_goals cases h

/-- **Every step keeps the worker covered.** -/
theorem inv_step (hI : Inv s) {a : Action C J} (hok : WakesWorker s a) (h : step s a = some s') :
    Inv s' := by
  have hcall : ∀ {c : C} {p : ClientPc J}, s.client c = .idle → ¬ p.locked → ¬ p.finiDue →
      Inv (s.clientGoto c p) := by
    intro c p hidle hlocked hfini
    refine hI.clientMove ⟨fun h => absurd h hlocked, ?_⟩ ?_ fun h => absurd h hfini
    · rw [hidle]
      exact False.elim
    · rw [hidle]
      exact False.elim
  cases a with
  | worker => exact inv_workerStep hI h
  | client c woken => exact inv_clientStep hI hok h
  | exec c job =>
    rw [step] at h
    split at h
    · next hidle =>
      obtain rfl := Option.some.inj h
      exact hcall hidle id id
    · cases h
  | wait c =>
    rw [step] at h
    split at h
    · next hidle =>
      obtain rfl := Option.some.inj h
      exact hcall hidle id id
    · cases h
  | fini c =>
    rw [step] at h
    split at h
    · next hidle =>
      obtain rfl := Option.some.inj h
      exact hcall hidle id id
    · cases h
  | wake t =>
    rw [step] at h
    split at h
    · next hb =>
      obtain rfl := Option.some.inj h
      exact hI.wakeUp hb
    · cases h

theorem inv_of_reaches (hs : (system C J).Reaches WakesWorker s) : Inv s := by
  refine hs.invariant ?_ fun s a s' _ hI hok h => inv_step hI hok h
  rintro s rfl
  refine ⟨fun t => ?_, fun h => (by cases h), fun h => (by cases h), fun h => (by cases h),
    fun c hc => hc.elim, fun h => (by cases h)⟩
  cases t <;> exact ⟨False.elim, fun h => (by cases h)⟩

end Steps

/-! ## The theorem -/

/-- **The worker does not sleep on a job**, nor on its termination, in any run in which no
`notify_one` goes to a client while the worker is blocked. -/
theorem not_asleep_of_wakesWorker [Fintype C] [DecidableEq C] [DecidableEq J] (s : State C J)
    (hs : (system C J).Reaches WakesWorker s) : ¬ SleepsOnJob s ∧ ¬ SleepsOnFini s := by
  have hI := inv_of_reaches hs
  constructor
  · intro hsleeps
    obtain ⟨c, hc⟩ := hI.job hsleeps.blocked hsleeps.workDone
    exact hsleeps.not_due c hc
  · intro hsleeps
    have hfalse := hI.fini hsleeps.blocked hsleeps.canTerminate
    exact absurd (hfalse.symm.trans hsleeps.finiNotified) (by simp)

/-- The worker blocks.  A client has set a job and will notify, and another client waits
for the end of the job and blocks. -/
def waitBeforeNotify : List (Action (Fin 2) ℕ) :=
  [.worker, .worker, .worker, .exec 0 7, .client 0 none, .client 0 none, .client 0 none,
    .client 0 none, .wait 1, .client 1 none, .client 1 none, .client 1 none, .client 1 none]

/-- The signal goes to the worker; later a client stops it. -/
def execWakesWorker : List (Action (Fin 2) ℕ) :=
  waitBeforeNotify ++ [.client 0 (some .worker), .worker, .worker, .worker, .worker, .worker,
    .worker, .worker, .worker, .worker, .worker, .worker, .fini 0, .client 0 none,
    .client 0 none, .client 0 none, .client 0 (some .worker)]

theorem not_asleep_execWakesWorker :
    let s := (system (Fin 2) ℕ).replayWithin WakesWorker initial execWakesWorker
    s.finiNotified = true ∧ s.worker = .relock ∧ ¬ SleepsOnJob s ∧ ¬ SleepsOnFini s := by
  exact ⟨by decide, by decide, not_asleep_of_wakesWorker _
    (TransitionSystem.Reaches.replayWithin (.start rfl) execWakesWorker (by decide))⟩

/-- The signal goes to the client that waits. -/
def execWakesClient : List (Action (Fin 2) ℕ) :=
  waitBeforeNotify ++ [.client 0 (some (.client 1))]

/-- **The worker sleeps on a pending job**: a reachable state in which the job has not
started, the worker is blocked and nobody will notify it. -/
theorem exec_wakes_client : ∃ s, (system (Fin 2) ℕ).Reachable s ∧ SleepsOnJob s :=
  ⟨(system (Fin 2) ℕ).replay initial execWakesClient,
    TransitionSystem.Reachable.replay (.start rfl) execWakesClient (by decide),
    by decide, by decide, by decide, by decide⟩

end AsyncWorker
end ThreadUtils
