import ThreadUtils.Tools.ThreadPool.Counter
import ThreadUtils.Tools.ThreadPool.Mutex

/-!
# Waiting for the jobs of a handle

A client that waits tests the counter of its handle and blocks under the mutex of the
handle, and the workers decrement the counter under the same mutex.  So the counter is not
`0` when the client blocks, and the worker that decrements it to `0` will notify the client.

## No lost wake-up

There are two windows to look at.  Between the test of the client and its block a worker could bring
the counter to `0` and notify too early; but the client holds the mutex all the time, and a
worker that decrements needs it (`Waits.block`).  Between the decrement to `0` and `notify_all` a
blocked client waits for nothing any more; then the worker is on its way to the notification, which
is what `WorkerPc.due` says (`Waits.blocked`).

A launch stores the counter without the mutex, and could store `0` under a client that is blocked.
By the protocol of the handles its client is the owner of the handle, and nobody else waits for it.
-/

namespace ThreadUtils
namespace ThreadPool

variable {C H W : Type*}

/-- The worker has decremented the counter of `h` and has yet to test it or to notify. -/
def WorkerPc.due (h : H) : WorkerPc H → Prop
  | .test h' | .notify h' => h' = h
  | _ => False

/-- What a client that blocks, or is blocked, waits for. -/
structure Waits (s : State C H W) : Prop where
  block : ∀ c h, s.client c = .waitBlock h → s.processCount h ≠ 0
  blocked : ∀ c h, s.client c = .blocked h →
    s.processCount h ≠ 0 ∨ ∃ w, (s.worker w).due h

variable {s s' : State C H W}

/-! ## Steps of a worker -/

section Worker

variable [DecidableEq W] {w : W} {pc : WorkerPc H}

/-- What keeps the promise to the blocked clients. -/
theorem Waits.worker (hI : Waits s) (hown : ∀ h, Owns (s.Holds h) (s.mutex h))
    (hworker : s'.worker = Function.update s.worker w pc)
    (hclient : ∀ c, s'.client c = s.client c ∨
      ∃ h, s.client c = .blocked h ∧ s'.client c = .relock h)
    (hcount : ∀ h, s'.processCount h = s.processCount h ∨ (s.worker w).locks h ∧ pc.due h)
    (hdue : ∀ h, (s.worker w).due h →
      pc.due h ∨ s.processCount h ≠ 0 ∨ ∀ c, s'.client c ≠ .blocked h) : Waits s' := by
  have hback : ∀ c p, s'.client c = p → (∀ h, p ≠ .relock h) → s.client c = p := by
    intro c p hc hp
    rcases hclient c with heq | ⟨h, -, hr⟩
    · rw [← heq, hc]
    · exact absurd (hc.symm.trans hr) (hp h)
  refine ⟨fun c h hc => ?_, fun c h hc => ?_⟩
  · have hblock := hback c _ hc (by simp)
    rcases hcount h with heq | ⟨hlocks, -⟩
    · rw [heq]
      exact hI.block c h hblock
    · -- the client that is about to block excludes the worker from the mutex
      have hold : s.Holds h (.inr c) := by
        rw [State.Holds, hblock]
        rfl
      have hold' : s.Holds h (.inl w) := hlocks
      exact absurd ((hown h).unique hold hold') (by simp)
  · have hb := hback c _ hc (by simp)
    have hnew : pc.due h → ∃ v, (s'.worker v).due h := fun hpc =>
      ⟨w, by rw [hworker, Function.update_self]; exact hpc⟩
    rcases hcount h with heq | ⟨-, hpc⟩
    · rcases hI.blocked c h hb with hne | ⟨v, hv⟩
      · exact Or.inl (heq ▸ hne)
      · by_cases hvw : v = w
        · subst hvw
          rcases hdue h hv with hpc | hne | hnone
          · exact Or.inr (hnew hpc)
          · exact Or.inl (heq ▸ hne)
          · exact absurd hc (hnone c)
        · exact Or.inr ⟨v, by rw [hworker, Function.update_of_ne hvw]; exact hv⟩
    · exact Or.inr (hnew hpc)

/-- A step of a worker that is not due, and does not touch the counter. -/
theorem Waits.worker_local (hI : Waits s) (hworker : s'.worker = Function.update s.worker w pc)
    (hclient : s'.client = s.client) (hcount : s'.processCount = s.processCount)
    (hdue : ∀ h, ¬ (s.worker w).due h) : Waits s' := by
  refine ⟨?_, ?_⟩
  · rw [hclient, hcount]
    exact hI.block
  · rw [hclient, hcount]
    intro c h hc
    refine (hI.blocked c h hc).imp_right fun ⟨v, hv⟩ => ⟨v, ?_⟩
    have hvw : v ≠ w := by
      rintro rfl
      exact hdue h hv
    rw [hworker, Function.update_of_ne hvw]
    exact hv

end Worker

section WorkerStep

variable [DecidableEq H] [DecidableEq W] {w : W}

theorem waits_workerStep (hI : Waits s) (hown : ∀ h, Owns (s.Holds h) (s.mutex h))
    (h : s.workerStep w = some s') : Waits s' := by
  have hsame : ∀ c, s.client c = s.client c ∨
      ∃ h, s.client c = .blocked h ∧ s.client c = .relock h := fun _ => Or.inl rfl
  unfold State.workerStep at h
  split at h
  case h_1 | h_3 =>
    next hpc =>
    split at h <;> cases h
    all_goals
      refine hI.worker_local (w := w) rfl rfl rfl ?_
      rw [hpc]
      exact fun _ => id
  case h_6 =>
    next op hpc =>
    obtain ⟨t, hlock, rfl⟩ := Option.map_eq_some_iff.mp h
    obtain ⟨hfree, rfl⟩ := lock_eq_some hlock
    refine hI.worker_local (w := w) rfl rfl rfl ?_
    rw [hpc]
    exact fun _ => id
  case h_7 =>
    next op hpc =>
    obtain rfl := Option.some.inj h
    refine hI.worker (w := w) hown rfl hsame (fun h' => ?_) ?_
    · rw [hpc]
      by_cases hh : h' = op.handle
      · exact Or.inr ⟨hh.symm, hh.symm⟩
      · exact Or.inl (Function.update_of_ne hh _ _)
    · rw [hpc]
      exact fun _ hdue => hdue.elim
  case h_8 =>
    next handle hpc =>
    obtain rfl := Option.some.inj h
    refine hI.worker (w := w) hown rfl hsame (fun _ => Or.inl rfl) ?_
    rw [hpc]
    rintro h' rfl
    by_cases hdone : s.opDone handle
    · rw [if_pos hdone]
      exact Or.inl rfl
    · exact Or.inr (Or.inl fun hzero => hdone (decide_eq_true hzero))
  case h_9 =>
    next handle hpc =>
    obtain rfl := Option.some.inj h
    refine hI.worker (w := w) hown rfl (notifyAll_client s handle)
      (fun _ => Or.inl rfl) ?_
    rw [hpc]
    rintro h' rfl
    refine Or.inr (Or.inr fun c hc => ?_)
    have hc : (if s.client c = .blocked handle then .relock handle else s.client c) =
      .blocked handle := hc
    split at hc
    · cases hc
    · next hne => exact hne hc
  case h_11 => cases h
  all_goals
    next hpc =>
    obtain rfl := Option.some.inj h
    refine hI.worker_local (w := w) rfl rfl rfl ?_
    rw [hpc]
    exact fun _ => id

end WorkerStep

/-! ## Steps of a client -/

section ClientStep

variable [DecidableEq C] {c : C} {p : ClientPc H W}

/-- A step of a client that stores no counter. -/
theorem Waits.client (hI : Waits s) (hclient : s'.client = Function.update s.client c p)
    (hworker : s'.worker = s.worker) (hcount : s'.processCount = s.processCount)
    (hblock : ∀ h, p = .waitBlock h ∨ p = .blocked h → s.processCount h ≠ 0) : Waits s' := by
  refine ⟨?_, ?_⟩
  · rw [hclient, hcount]
    exact forall_update (P := fun _ (q : ClientPc H W) => ∀ h, q = .waitBlock h →
      s.processCount h ≠ 0) hI.block fun h heq => hblock h (Or.inl heq)
  · rw [hclient, hcount, hworker]
    exact forall_update (P := fun _ (q : ClientPc H W) => ∀ h, q = .blocked h →
      s.processCount h ≠ 0 ∨ ∃ w, (s.worker w).due h) hI.blocked
      fun h heq => Or.inl (hblock h (Or.inr heq))

variable [DecidableEq H] [DecidableEq W] {pool : Pool C H W}

theorem waits_clientStep (hI : Waits s) (hO : Owned pool s)
    (h : s.clientStep pool c = some s') : Waits s' := by
  unfold State.clientStep at h
  split at h
  case h_1 => cases h
  case h_2 => cases h
  case h_3 =>
    next handle n hpc =>
    obtain rfl := Option.some.inj h
    -- nobody else waits for the handle
    have hc : pool.owner handle = c := hO.owner c handle (by rw [hpc]; rfl)
    have hother : ∀ d p, Function.update s.client c
        (.push (launchedJobs s.issued handle n) n) d = p → p.handle? ≠ none →
        s.client d = p ∧ ∀ h', p.handle? = some h' → h' ≠ handle := by
      intro d p hd hp
      by_cases hdc : d = c
      · subst hdc
        rw [Function.update_self] at hd
        subst hd
        exact absurd rfl hp
      · rw [Function.update_of_ne hdc] at hd
        refine ⟨hd, ?_⟩
        rintro h' hh rfl
        exact hdc ((hO.owner d h' (by rw [hd]; exact hh)).symm.trans hc)
    refine ⟨fun d h' hd => ?_, fun d h' hd => ?_⟩
    · obtain ⟨hd', hne⟩ := hother d _ hd (by simp [ClientPc.handle?])
      show Function.update s.processCount handle (n : ℤ) h' ≠ 0
      rw [Function.update_of_ne (hne h' rfl)]
      exact hI.block d h' hd'
    · obtain ⟨hd', hne⟩ := hother d _ hd (by simp [ClientPc.handle?])
      show Function.update s.processCount handle (n : ℤ) h' ≠ 0 ∨ _
      rw [Function.update_of_ne (hne h' rfl)]
      exact hI.blocked d h' hd'
  case h_7 | h_8 =>
    next handle hpc =>
    obtain ⟨t, hlock, rfl⟩ := Option.map_eq_some_iff.mp h
    obtain ⟨hfree, rfl⟩ := lock_eq_some hlock
    exact hI.client (c := c) (p := .waitTest handle) rfl rfl rfl (by simp)
  case h_9 =>
    next handle hpc =>
    obtain rfl := Option.some.inj h
    refine hI.client (c := c) rfl rfl rfl ?_
    -- the client goes on to block when the predicate is false
    rintro h' (heq | heq)
    · split at heq
      · cases heq
      · next hdone =>
        cases heq
        exact fun hzero => hdone (decide_eq_true hzero)
    · split at heq <;> cases heq
  case h_10 =>
    next handle hpc =>
    obtain rfl := Option.some.inj h
    refine hI.client (c := c) (p := .blocked handle) rfl rfl rfl ?_
    rintro h' (heq | heq)
    · cases heq
    · cases heq
      exact hI.block c handle hpc
  case h_15 =>
    split at h
    · obtain rfl := Option.some.inj h
      exact hI.client (c := c) rfl rfl rfl (by simp)
    · cases h
  all_goals
    obtain rfl := Option.some.inj h
    exact hI.client (c := c) rfl rfl rfl (by simp)

theorem waits_of_reaches [Fintype C] [Fintype W]
    (hs : (system pool).Reaches (Disciplined pool) s) : Waits s := by
  refine TransitionSystem.Reaches.invariant ?_ ?_ hs
  · rintro s rfl
    exact ⟨fun c h hpc => (by cases hpc), fun c h hpc => (by cases hpc)⟩
  · intro s a s' hr hI hok h
    cases a with
    | worker w => exact waits_workerStep hI (owns_of_reaches hr) h
    | exec c handle | lauch c handle n | opWait c handle =>
      obtain ⟨hidle, hs'⟩ := Option.ite_none_right_eq_some.mp h
      obtain rfl := Option.some.inj hs'
      exact hI.client (c := c) rfl rfl rfl (by simp)
    | fini c => exact hok.elim
    | client c => exact waits_clientStep hI (counted_of_reaches hr).2 h
    | wake c =>
      obtain ⟨handle, -, rfl⟩ := wake_eq_some pool h
      exact hI.client (c := c) rfl rfl rfl (by simp)

end ClientStep

end ThreadPool
end ThreadUtils
