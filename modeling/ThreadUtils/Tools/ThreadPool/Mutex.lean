import ThreadUtils.Tools.ThreadPool.Ledger
import ThreadUtils.Transition.Mutex

/-!
# The mutexes of the handles

A worker holds the mutex of a handle in `tu_tp_progress_op`, and a client in
`tu_tp_op_wait` unless it is blocked.  The critical sections exclude each other in every
run, also in those that do not keep to the protocol of the handles.

There is a mutex for each handle, and a thread is in the critical section of one handle at most.  So
an access keeps all mutexes, or locks or unlocks the one of its handle, and the rules of `Owns` for
tables say what this does to the invariant.  What is to be checked of an access is only how the
program counter of its thread changes with respect to one handle.

`notify_all` is the access that touches other threads.  It moves clients from their block to the
lock of the mutex, and at neither of the two places does a client hold it; so the worker that
notifies stays the only holder.
-/

namespace ThreadUtils
namespace ThreadPool

variable {C H W : Type*}

/-- The worker holds the mutex of the handle `h`. -/
def WorkerPc.locks (h : H) : WorkerPc H → Prop
  | .decrement op => op.handle = h
  | .test h' | .notify h' | .unlock h' => h' = h
  | _ => False

/-- The client holds the mutex of the handle `h`. -/
def ClientPc.locks (h : H) : ClientPc H W → Prop
  | .waitTest h' | .waitBlock h' | .waitReturn h' => h' = h
  | _ => False

/-- The thread holds the mutex of the handle `h`. -/
def State.Holds (s : State C H W) (h : H) : W ⊕ C → Prop
  | .inl w => (s.worker w).locks h
  | .inr c => (s.client c).locks h

variable {s s' : State C H W}

/-! ## Steps of a worker -/

section Worker

variable [DecidableEq W] {w : W} {pc : WorkerPc H}

theorem holds_worker (hworker : s'.worker = Function.update s.worker w pc) (h : H) :
    s'.Holds h (.inl w) ↔ pc.locks h := by
  rw [State.Holds, hworker, Function.update_self]

/-- The threads other than `w`, some of which may have been woken. -/
theorem holds_of_ne_worker (hworker : s'.worker = Function.update s.worker w pc)
    (hclient : ∀ c, s'.client c = s.client c ∨
      ∃ h, s.client c = .blocked h ∧ s'.client c = .relock h) (h : H) (t : W ⊕ C)
    (ht : t ≠ .inl w) : s'.Holds h t ↔ s.Holds h t := by
  cases t with
  | inl v =>
    have hv : v ≠ w := by
      rintro rfl
      exact ht rfl
    rw [State.Holds, State.Holds, hworker, Function.update_of_ne hv]
  | inr c =>
    rw [State.Holds, State.Holds]
    rcases hclient c with heq | ⟨h', hb, hb'⟩
    · rw [heq]
    · rw [hb, hb']
      rfl

/-- A worker neither locks nor unlocks. -/
theorem owns_worker (hown : ∀ h, Owns (s.Holds h) (s.mutex h))
    (hworker : s'.worker = Function.update s.worker w pc)
    (hclient : ∀ c, s'.client c = s.client c ∨
      ∃ h, s.client c = .blocked h ∧ s'.client c = .relock h)
    (hmutex : s'.mutex = s.mutex) (hlocks : ∀ h, pc.locks h ↔ (s.worker w).locks h) (h : H) :
    Owns (s'.Holds h) (s'.mutex h) := by
  rw [hmutex]
  refine (hown h).keep fun t => ?_
  by_cases ht : t = .inl w
  · subst ht
    rw [holds_worker hworker, hlocks]
    rfl
  · exact holds_of_ne_worker hworker hclient h t ht

/-- The worker locks the mutex of `h`. -/
theorem owns_worker_lock [DecidableEq H] (hown : ∀ h, Owns (s.Holds h) (s.mutex h)) {h : H}
    (hworker : s'.worker = Function.update s.worker w pc) (hclient : s'.client = s.client)
    (hfree : s.mutex h = none) (hmutex : s'.mutex = Function.update s.mutex h (some (.inl w)))
    (hlocks : ∀ h', pc.locks h' ↔ h = h') (hlocks' : ∀ h', ¬ (s.worker w).locks h') (h' : H) :
    Owns (s'.Holds h') (s'.mutex h') := by
  rw [hmutex]
  refine Owns.acquire_at hown hfree ?_ (fun j t ht => ?_) h'
  · rw [holds_worker hworker, hlocks]
  · by_cases htw : t = .inl w
    · subst htw
      rw [holds_worker hworker, hlocks]
      refine iff_of_false (fun heq => ?_) (hlocks' j)
      exact (ht.resolve_right (not_not.mpr rfl)) heq.symm
    · exact holds_of_ne_worker hworker (fun d => Or.inl (by rw [hclient])) j t htw

/-- The worker unlocks the mutex of `h`. -/
theorem owns_worker_unlock [DecidableEq H] (hown : ∀ h, Owns (s.Holds h) (s.mutex h)) {h : H}
    (hworker : s'.worker = Function.update s.worker w pc) (hclient : s'.client = s.client)
    (hmutex : s'.mutex = Function.update s.mutex h none)
    (hlocks : ∀ h', (s.worker w).locks h' ↔ h = h') (hlocks' : ∀ h', ¬ pc.locks h') (h' : H) :
    Owns (s'.Holds h') (s'.mutex h') := by
  rw [hmutex]
  refine Owns.release_at hown (t := .inl w) ?_ ?_ (fun j t ht => ?_) h'
  · exact (hlocks h).mpr rfl
  · rw [holds_worker hworker]
    exact hlocks' h
  · by_cases htw : t = .inl w
    · subst htw
      rw [holds_worker hworker, State.Holds, hlocks]
      refine iff_of_false (hlocks' j) (fun heq => ?_)
      exact (ht.resolve_right (not_not.mpr rfl)) heq.symm
    · exact holds_of_ne_worker hworker (fun d => Or.inl (by rw [hclient])) j t htw

end Worker

section WorkerStep

variable [DecidableEq H] [DecidableEq W] {w : W}

theorem owns_workerStep (hown : ∀ h, Owns (s.Holds h) (s.mutex h))
    (h : s.workerStep w = some s') : ∀ h, Owns (s'.Holds h) (s'.mutex h) := by
  have hsame : ∀ c, s.client c = s.client c ∨
      ∃ h, s.client c = .blocked h ∧ s.client c = .relock h := fun _ => Or.inl rfl
  unfold State.workerStep at h
  split at h
  case h_1 | h_3 =>
    next hpc =>
    split at h <;> cases h
    all_goals
      refine owns_worker (w := w) hown rfl hsame rfl ?_
      rw [hpc]
      exact fun _ => Iff.rfl
  case h_2 =>
    next hpc =>
    obtain rfl := Option.some.inj h
    refine owns_worker (w := w) hown rfl hsame rfl ?_
    rw [hpc]
    intro _
    split <;> exact Iff.rfl
  case h_6 =>
    next op hpc =>
    obtain ⟨t, hlock, rfl⟩ := Option.map_eq_some_iff.mp h
    obtain ⟨hfree, rfl⟩ := lock_eq_some hlock
    refine owns_worker_lock (w := w) hown rfl rfl hfree rfl
      (fun _ => Iff.rfl) ?_
    rw [hpc]
    exact fun _ => id
  case h_8 =>
    next handle hpc =>
    obtain rfl := Option.some.inj h
    refine owns_worker (w := w) hown rfl hsame rfl ?_
    rw [hpc]
    intro h'
    split <;> exact Iff.rfl
  case h_9 =>
    next handle hpc =>
    obtain rfl := Option.some.inj h
    refine owns_worker (w := w) hown rfl (notifyAll_client s handle) rfl ?_
    rw [hpc]
    exact fun _ => Iff.rfl
  case h_10 =>
    next handle hpc =>
    obtain rfl := Option.some.inj h
    refine owns_worker_unlock (w := w) (h := handle) hown rfl rfl rfl ?_ fun _ => id
    rw [hpc]
    exact fun _ => Iff.rfl
  case h_11 => cases h
  all_goals
    next hpc =>
    obtain rfl := Option.some.inj h
    refine owns_worker (w := w) hown rfl hsame rfl ?_
    rw [hpc]
    exact fun _ => Iff.rfl

end WorkerStep

/-! ## Steps of a client -/

section Client

variable [DecidableEq C] {c : C} {p : ClientPc H W}

theorem holds_client (hclient : s'.client = Function.update s.client c p) (h : H) :
    s'.Holds h (.inr c) ↔ p.locks h := by
  rw [State.Holds, hclient, Function.update_self]

theorem holds_of_ne_client (hclient : s'.client = Function.update s.client c p)
    (hworker : s'.worker = s.worker) (h : H) (t : W ⊕ C) (ht : t ≠ .inr c) :
    s'.Holds h t ↔ s.Holds h t := by
  cases t with
  | inl w => rw [State.Holds, State.Holds, hworker]
  | inr d =>
    have hd : d ≠ c := by
      rintro rfl
      exact ht rfl
    rw [State.Holds, State.Holds, hclient, Function.update_of_ne hd]

/-- A client neither locks nor unlocks. -/
theorem owns_client (hown : ∀ h, Owns (s.Holds h) (s.mutex h))
    (hclient : s'.client = Function.update s.client c p) (hworker : s'.worker = s.worker)
    (hmutex : s'.mutex = s.mutex) (hlocks : ∀ h, p.locks h ↔ (s.client c).locks h) (h : H) :
    Owns (s'.Holds h) (s'.mutex h) := by
  rw [hmutex]
  refine (hown h).keep fun t => ?_
  by_cases ht : t = .inr c
  · subst ht
    rw [holds_client hclient, hlocks]
    rfl
  · exact holds_of_ne_client hclient hworker h t ht

/-- The client locks the mutex of `h`. -/
theorem owns_client_lock [DecidableEq H] (hown : ∀ h, Owns (s.Holds h) (s.mutex h)) {h : H}
    (hclient : s'.client = Function.update s.client c p) (hworker : s'.worker = s.worker)
    (hfree : s.mutex h = none) (hmutex : s'.mutex = Function.update s.mutex h (some (.inr c)))
    (hlocks : ∀ h', p.locks h' ↔ h = h') (hlocks' : ∀ h', ¬ (s.client c).locks h') (h' : H) :
    Owns (s'.Holds h') (s'.mutex h') := by
  rw [hmutex]
  refine Owns.acquire_at hown hfree ?_ (fun j t ht => ?_) h'
  · rw [holds_client hclient, hlocks]
  · by_cases htc : t = .inr c
    · subst htc
      rw [holds_client hclient, hlocks]
      refine iff_of_false (fun heq => ?_) (hlocks' j)
      exact (ht.resolve_right (not_not.mpr rfl)) heq.symm
    · exact holds_of_ne_client hclient hworker j t htc

/-- The client unlocks the mutex of `h`. -/
theorem owns_client_unlock [DecidableEq H] (hown : ∀ h, Owns (s.Holds h) (s.mutex h)) {h : H}
    (hclient : s'.client = Function.update s.client c p) (hworker : s'.worker = s.worker)
    (hmutex : s'.mutex = Function.update s.mutex h none)
    (hlocks : ∀ h', (s.client c).locks h' ↔ h = h') (hlocks' : ∀ h', ¬ p.locks h') (h' : H) :
    Owns (s'.Holds h') (s'.mutex h') := by
  rw [hmutex]
  refine Owns.release_at hown (t := .inr c) ?_ ?_ (fun j t ht => ?_) h'
  · exact (hlocks h).mpr rfl
  · rw [holds_client hclient]
    exact hlocks' h
  · by_cases htc : t = .inr c
    · subst htc
      rw [holds_client hclient, State.Holds, hlocks]
      refine iff_of_false (hlocks' j) (fun heq => ?_)
      exact (ht.resolve_right (not_not.mpr rfl)) heq.symm
    · exact holds_of_ne_client hclient hworker j t htc

end Client

section ClientStep

variable [DecidableEq C] [DecidableEq H] [DecidableEq W] {pool : Pool C H W} {c : C}

theorem owns_clientStep (hown : ∀ h, Owns (s.Holds h) (s.mutex h))
    (h : s.clientStep pool c = some s') : ∀ h, Owns (s'.Holds h) (s'.mutex h) := by
  unfold State.clientStep at h
  split at h
  case h_1 | h_2 => cases h
  case h_7 | h_8 =>
    next handle hpc =>
    obtain ⟨t, hlock, rfl⟩ := Option.map_eq_some_iff.mp h
    obtain ⟨hfree, rfl⟩ := lock_eq_some hlock
    refine owns_client_lock (c := c) (p := .waitTest handle) hown rfl rfl hfree rfl
      (fun _ => Iff.rfl) ?_
    rw [hpc]
    exact fun _ => id
  case h_9 =>
    next handle hpc =>
    obtain rfl := Option.some.inj h
    refine owns_client (c := c) hown rfl rfl rfl fun h' => ?_
    rw [hpc]
    split <;> exact Iff.rfl
  case h_10 =>
    next handle hpc =>
    obtain rfl := Option.some.inj h
    refine owns_client_unlock (c := c) (p := .blocked handle) (h := handle) hown rfl rfl rfl ?_
      fun _ => id
    rw [hpc]
    exact fun _ => Iff.rfl
  case h_11 =>
    next handle hpc =>
    obtain rfl := Option.some.inj h
    refine owns_client_unlock (c := c) (p := .idle) (h := handle) hown rfl rfl rfl ?_ fun _ => id
    rw [hpc]
    exact fun _ => Iff.rfl
  case h_15 =>
    next hpc =>
    split at h
    · obtain rfl := Option.some.inj h
      refine owns_client (c := c) hown rfl rfl rfl fun h' => ?_
      rw [hpc]
      exact Iff.rfl
    · cases h
  all_goals
    next hpc =>
    obtain rfl := Option.some.inj h
    refine owns_client (c := c) hown rfl rfl rfl fun h' => ?_
    rw [hpc]
    exact Iff.rfl

/-- The critical sections exclude each other in every run. -/
theorem owns_of_reaches {ok : State C H W → Action C H W → Prop}
    (hs : (system pool).Reaches ok s) : ∀ h, Owns (s.Holds h) (s.mutex h) := by
  refine hs.invariant (I := fun s => ∀ h, Owns (s.Holds h) (s.mutex h)) ?_ ?_
  · rintro s rfl h t
    cases t with
    | inl w => exact iff_of_false id (by simp [initial])
    | inr c => exact iff_of_false id (by simp [initial])
  · intro s a s' _ hown _ h
    cases a with
    | worker w => exact owns_workerStep hown h
    | exec c handle | lauch c handle n | opWait c handle | fini c =>
      obtain ⟨hidle, hs'⟩ := Option.ite_none_right_eq_some.mp h
      obtain rfl := Option.some.inj hs'
      refine owns_client (c := c) hown rfl rfl rfl fun h' => ?_
      rw [hidle]
      exact Iff.rfl
    | client c => exact owns_clientStep hown h
    | wake c =>
      obtain ⟨handle, hb, rfl⟩ := wake_eq_some pool h
      refine owns_client (c := c) hown rfl rfl rfl fun h' => ?_
      rw [hb]
      exact Iff.rfl

end ClientStep

end ThreadPool
end ThreadUtils
