import ThreadUtils.TaskManager.Clients
import ThreadUtils.TaskManager.StateOwnership

/-!
# No operation is stranded

A permit does not belong to an operation: a worker drains many operations on one
permit, and a permit may wake a worker for nothing.  What is true of every group at
every time is that a non-empty queue has somebody in charge (`Covered`): a permit that
nobody has taken, a push that will still release one, or a worker that will still pop
before it parks.

## Why not count

One would like to say that there are as many permits as operations, or at least one for each
worker that could take one.  Neither is preserved.  A worker that acquired a permit takes the
operations of ten pushes with it, and the ten permits wake workers for nothing afterwards; and a
worker that is about to fail its last pop has a permit behind it and none before it.  Only the
disjunction survives, and every step has a clear part in it: a push enters the charge before its
operation can be popped and hands it to the semaphore with its release, an acquire hands it from
the semaphore to the worker, and a worker gives it up with a failing pop only.

## The failing pop

A worker leaves the drain loop when its pop fails.  The pop of the overflowing queue may
fail while there are elements, but then only because a push on that queue is not over;
that push releases a permit afterwards, so it is in charge.  The runs considered here
are those whose pops fail only so, and in which nobody shuts the manager down
(`Admitted`).  That the queue of the source answers in no other way is a matter of the queue, and
of `TaskManager.Group`, where the two are put together.

* `covered_step` --- every step keeps every queue covered.
* `nothing_stranded` --- where all workers sleep without a permit, nothing is left anywhere.
-/

namespace ThreadUtils
namespace TaskManager

variable {G W C S : Type*}

/-! ## The runs -/

/-- The call is inside `queue.push` of the group. -/
def PushPc.inQueue [DecidableEq G] (g : G) : PushPc G S → Bool
  | .enqueue g' _ _ | .complete g' _ => g' = g
  | _ => false

/-- A push on the queue of the group has not completed. -/
def State.pushOn [DecidableEq G] (s : State G W C S) (g : G) : Prop :=
  ∃ t, (s.push t).any (PushPc.inQueue g)

/-- The next access of the worker is a pop from the queue of its group. -/
def WorkerPc.popsGroup : WorkerPc S → Bool
  | .pop _ => true
  | _ => false

/-- A pop of a group queue fails only when the queue is empty or a push on it has not
completed, and `tu_tm_fini` is not called. -/
def Admitted [DecidableEq G] (tm : Groups G W) (s : State G W C S) : Action G W C S → Prop
  | .worker w none =>
      (s.worker w).popsGroup → s.queue (tm.group w) = [] ∨ s.pushOn (tm.group w)
  | .fini _ => False
  | _ => True

instance [DecidableEq G] [DecidableEq S] [Fintype W] [Fintype C] (tm : Groups G W)
    (s : State G W C S) (a : Action G W C S) : Decidable (Admitted tm s a) :=
  match a with
  | .worker w none => inferInstanceAs (Decidable ((s.worker w).popsGroup →
      s.queue (tm.group w) = [] ∨ ∃ t, (s.push t).any (PushPc.inQueue (tm.group w))))
  | .fini _ => inferInstanceAs (Decidable False)
  | .worker _ (some _) | .push _ _ _ | .pushTask _ _ | .pushing _ | .execReturn _ | .wait _
  | .client _ | .wake _ => inferInstanceAs (Decidable True)

/-- The client is inside `tu_tm_fini`. -/
def ClientPc.inFini : ClientPc G W → Prop
  | .finiStore _ _ _ | .finiRelease _ _ | .finiJoin _ _ => True
  | _ => False

/-- Nobody shuts the manager down. -/
structure Running (s : State G W C S) : Prop where
  canTerminate : ∀ w, s.canTerminate w = false
  client : ∀ c, ¬ (s.client c).inFini

/-! ## Who is in charge of a queue -/

/-- The push will release a permit of the group. -/
def PushPc.due (g : G) : PushPc G S → Prop
  | .enqueue g' _ _ | .complete g' _ | .release g' _ => g' = g
  | .count _ _ _ => False

/-- The worker will pop from the queue of its group before it parks. -/
def WorkerPc.awake : WorkerPc S → Prop
  | .park | .notify | .acquire | .sub _ | .check | .exited => False
  | _ => True

/-- Somebody is in charge of the queue of a group, unless it is empty. -/
def Covered (tm : Groups G W) (s : State G W C S) (g : G) : Prop :=
  s.queue g ≠ [] → 0 < s.sem g ∨ (∃ t pc, s.push t = some pc ∧ pc.due g) ∨
    ∃ w, tm.group w = g ∧ (s.worker w).awake

/-- A step that adds nothing to the queue and releases nobody of the charge. -/
theorem Covered.mono {tm : Groups G W} {s s' : State G W C S} {g : G} (h : Covered tm s g)
    (hqueue : s'.queue g ≠ [] → s.queue g ≠ []) (hsem : s.sem g ≤ s'.sem g)
    (hpush : ∀ t pc, s.push t = some pc → pc.due g →
      ∃ pc', s'.push t = some pc' ∧ pc'.due g)
    (hworker : ∀ w, (s.worker w).awake → (s'.worker w).awake) : Covered tm s' g := by
  intro hne
  rcases h (hqueue hne) with h | ⟨t, pc, ht, hdue⟩ | ⟨w, hw, hawake⟩
  · exact Or.inl (lt_of_lt_of_le h hsem)
  · obtain ⟨pc', ht', hdue'⟩ := hpush t pc ht hdue
    exact Or.inr (Or.inl ⟨t, pc', ht', hdue'⟩)
  · exact Or.inr (Or.inr ⟨w, hw, hworker w hawake⟩)

/-- A worker that stays awake when it was. -/
theorem awake_update [DecidableEq W] {worker : W → WorkerPc S} {w : W} {q : WorkerPc S}
    (h : (worker w).awake → q.awake) :
    ∀ w', (worker w').awake → (Function.update worker w q w').awake := by
  intro w' hw'
  by_cases hww : w' = w
  · subst hww
    rw [Function.update_self]
    exact h hw'
  · rw [Function.update_of_ne hww]
    exact hw'

/-- A thread that was in no push due for the group, or goes on with it. -/
theorem due_update [DecidableEq W] [DecidableEq C] {push : W ⊕ C → Option (PushPc G S)}
    {t : W ⊕ C} {p : Option (PushPc G S)} {g : G}
    (h : ∀ pc, push t = some pc → pc.due g → ∃ pc', p = some pc' ∧ pc'.due g) :
    ∀ t' pc, push t' = some pc → pc.due g →
      ∃ pc', Function.update push t p t' = some pc' ∧ pc'.due g := by
  intro t' pc ht' hdue
  by_cases htt : t' = t
  · subst htt
    rw [Function.update_self]
    exact h pc ht' hdue
  · rw [Function.update_of_ne htt]
    exact ⟨pc, ht', hdue⟩

section Steps

variable [DecidableEq G] [DecidableEq W] [DecidableEq C] [DecidableEq S]
variable {tm : Groups G W} {s s' : State G W C S}

/-! ## The pushes -/

omit [DecidableEq W] [DecidableEq C] [DecidableEq S] in
/-- A push that has not completed will release a permit. -/
theorem State.pushOn.due {g : G} (h : s.pushOn g) : ∃ t pc, s.push t = some pc ∧ pc.due g := by
  obtain ⟨t, ht⟩ := h
  cases hpc : s.push t with
  | none =>
    rw [hpc] at ht
    exact absurd ht (by simp)
  | some pc =>
    rw [hpc, Option.any_some] at ht
    refine ⟨t, pc, hpc, ?_⟩
    cases pc with
    | enqueue g' op call => exact (of_decide_eq_true ht : g' = g)
    | complete g' call => exact (of_decide_eq_true ht : g' = g)
    | count g' op call => exact absurd ht (by simp [PushPc.inQueue])
    | release g' call => exact absurd ht (by simp [PushPc.inQueue])

omit [DecidableEq S] in
theorem covered_pushTask {w : W} {g₀ : G} (hmay : s.mayPush (.inl w)) {g : G}
    (hc : Covered tm s g) : Covered tm (s.pushTask tm w g₀) g := by
  have hnone : ∀ {p : Option (PushPc G S)} pc, s.push (.inl w) = some pc → pc.due g →
      ∃ pc', p = some pc' ∧ pc'.due g := by
    intro p pc hpc
    rw [hmay.2] at hpc
    cases hpc
  rw [State.pushTask]
  split
  · exact hc.mono id le_rfl (due_update hnone) fun _ h => h
  · split
    · exact hc.mono id le_rfl (due_update hnone) fun _ h => h
    · exact hc.mono id le_rfl (fun _ pc ht hdue => ⟨pc, ht, hdue⟩) fun _ h => h

omit [DecidableEq S] in
theorem covered_pushing {t : W ⊕ C} (h : s.pushing t = some s') {g : G} (hc : Covered tm s g) :
    Covered tm s' g := by
  unfold State.pushing at h
  split at h
  · cases h
  · next g₀ op call hpc =>
    obtain rfl := Option.some.inj h
    refine hc.mono id le_rfl (due_update fun pc ht hdue => ?_) fun _ h => h
    rw [hpc] at ht
    obtain rfl := Option.some.inj ht
    exact hdue.elim
  · next g₀ op call hpc =>
    obtain rfl := Option.some.inj h
    by_cases hg : g₀ = g
    · -- the push that fills the queue is in charge of it
      exact fun _ => Or.inr (Or.inl ⟨t, .complete g₀ call, Function.update_self _ _ _, hg⟩)
    · have hsame : Function.update s.queue g₀ (s.queue g₀ ++ [op]) g = s.queue g :=
        Function.update_of_ne (Ne.symm hg) _ _
      refine hc.mono (fun hne hnil => hne (hsame.trans hnil)) le_rfl
        (due_update fun pc ht hdue => ?_) fun _ h => h
      rw [hpc] at ht
      obtain rfl := Option.some.inj ht
      exact absurd hdue hg
  · next g₀ call hpc =>
    obtain rfl := Option.some.inj h
    refine hc.mono id le_rfl (due_update fun pc ht hdue => ?_) fun _ h => h
    rw [hpc] at ht
    obtain rfl := Option.some.inj ht
    exact ⟨_, rfl, hdue⟩
  · next g₀ call hpc =>
    obtain rfl := Option.some.inj h
    by_cases hg : g₀ = g
    · subst hg
      refine fun _ => Or.inl ?_
      show 0 < Function.update s.sem g₀ (s.sem g₀ + 1) g₀
      rw [Function.update_self]
      exact Nat.succ_pos _
    · refine hc.mono id (le_update_add _ _ _ _) (due_update fun pc ht hdue => ?_) fun _ h => h
      rw [hpc] at ht
      obtain rfl := Option.some.inj ht
      exact absurd hdue hg

/-! ## The workers -/

omit [DecidableEq G] [DecidableEq C] [DecidableEq S] in
theorem covered_execReturn {w : W} (h : s.execReturn w = some s') {g : G}
    (hc : Covered tm s g) : Covered tm s' g := by
  unfold State.execReturn at h
  split at h
  · next op hrun =>
    split at h
    · obtain rfl := Option.some.inj h
      refine hc.mono id le_rfl (fun _ pc ht hdue => ⟨pc, ht, hdue⟩) (awake_update fun _ => ?_)
      cases hpc : s.worker w with
      | exec p op => trivial
      | stateExec p x n op => trivial
      | cacheExec p op => trivial
      | _ =>
        rw [hpc] at hrun
        exact absurd hrun (by simp [WorkerPc.running])
    · cases h
  · cases h

omit [DecidableEq C] [DecidableEq S] in
/-- A worker takes an element out of the queue of its group and stays awake. -/
theorem Covered.pop {g : G} (hc : Covered tm s g) {w : W} {g₀ : G} {k : ℕ} {q : WorkerPc S}
    (hqueue : s'.queue = Function.update s.queue g₀ ((s.queue g₀).eraseIdx k))
    (hsem : s'.sem = s.sem) (hpush : s'.push = s.push)
    (hworker : s'.worker = Function.update s.worker w q) (hq : q.awake) : Covered tm s' g := by
  refine hc.mono (fun hne hnil => hne ?_) (by rw [hsem]) (fun t pc ht hdue => ?_) ?_
  · rw [hqueue]
    by_cases hg : g = g₀
    · subst hg
      rw [Function.update_self, hnil]
      rfl
    · rw [Function.update_of_ne hg, hnil]
  · exact ⟨pc, by rw [hpush, ht], hdue⟩
  · rw [hworker]
    exact awake_update fun _ => hq

omit [DecidableEq C] in
theorem covered_workerStep {w : W} {pick : Option ℕ} (h : s.workerStep tm w pick = some s')
    (hok : Admitted tm s (.worker w pick)) (hrun : Running s) {g : G} (hc : Covered tm s g) :
    Covered tm s' g := by
  have hdue : ∀ t pc, s.push t = some pc → pc.due g → ∃ pc', s.push t = some pc' ∧ pc'.due g :=
    fun _ pc ht hdue => ⟨pc, ht, hdue⟩
  unfold State.workerStep at h
  split at h
  · next hpc =>
    obtain rfl := Option.some.inj h
    exact hc.mono id le_rfl hdue (awake_update fun hw => by rw [hpc] at hw; exact hw)
  · next hpc =>
    obtain rfl := Option.some.inj h
    exact hc.mono id le_rfl hdue (awake_update fun hw => by rw [hpc] at hw; exact hw)
  · next hpc =>
    split at h
    · obtain rfl := Option.some.inj h
      by_cases hg : tm.group w = g
      · -- the permit passes the charge on to the worker
        refine fun _ => Or.inr (Or.inr ⟨w, hg, ?_⟩)
        show (Function.update s.worker w .checkTerminate w).awake
        rw [Function.update_self]
        trivial
      · refine hc.mono id (le_of_eq ?_) hdue (awake_update fun _ => trivial)
        exact (Function.update_of_ne (Ne.symm hg) _ _).symm
    · cases h
  · next hpc =>
    obtain rfl := Option.some.inj h
    refine hc.mono id le_rfl hdue (awake_update fun _ => ?_)
    rw [hrun.canTerminate w]
    trivial
  · obtain rfl := Option.some.inj h
    exact hc.mono id le_rfl hdue (awake_update fun _ => trivial)
  · next p hpc =>
    split at h
    · obtain rfl := Option.some.inj h
      by_cases hg : tm.group w = g
      · -- the last pop failed: the queue is empty, or a push is in charge
        subst hg
        rcases hok (by rw [hpc]; rfl) with hnil | hpush
        · exact fun hne => absurd hnil hne
        · exact fun _ => Or.inr (Or.inl hpush.due)
      · intro hne
        rcases hc hne with h | h | ⟨w', hw', hawake⟩
        · exact Or.inl h
        · exact Or.inr (Or.inl h)
        · refine Or.inr (Or.inr ⟨w', hw', ?_⟩)
          have hww : w' ≠ w := by
            rintro rfl
            exact hg hw'
          show (Function.update s.worker w (.sub p) w').awake
          rw [Function.update_of_ne hww]
          exact hawake
    · next k =>
      obtain ⟨op, -, rfl⟩ := Option.map_eq_some_iff.mp h
      cases op.state with
      | none => exact hc.pop rfl rfl rfl rfl trivial
      | some x => exact hc.pop rfl rfl rfl rfl trivial
  · obtain rfl := Option.some.inj h
    exact hc.mono id le_rfl hdue (awake_update fun _ => trivial)
  · obtain rfl := Option.some.inj h
    refine hc.mono id le_rfl hdue (awake_update fun _ => ?_)
    split <;> trivial
  · split at h
    · obtain rfl := Option.some.inj h
      exact hc
    · obtain ⟨op, -, rfl⟩ := Option.map_eq_some_iff.mp h
      exact hc.mono id le_rfl hdue (awake_update fun _ => trivial)
  · split at h
    · obtain rfl := Option.some.inj h
      exact hc.mono id le_rfl hdue (awake_update fun _ => trivial)
    · obtain rfl := Option.some.inj h
      exact hc.mono id le_rfl hdue (awake_update fun _ => trivial)
  · split at h
    · obtain rfl := Option.some.inj h
      exact hc.mono id le_rfl hdue (awake_update fun _ => trivial)
    · obtain rfl := Option.some.inj h
      exact hc.mono id le_rfl hdue (awake_update fun _ => trivial)
  · next p hpc =>
    obtain rfl := Option.some.inj h
    exact hc.mono id le_rfl hdue (awake_update fun hw => by rw [hpc] at hw; exact hw)
  · next hpc =>
    split at h
    · obtain rfl := Option.some.inj h
      exact hc.mono id le_rfl hdue (awake_update fun hw => by rw [hpc] at hw; exact hw)
    · cases h
  all_goals cases h

/-! ## The clients -/

theorem running_clientStep {c : C} (h : s.clientStep tm c = some s') (hrun : Running s) :
    Running s' := by
  have hclient : ∀ {q : ClientPc G W}, ¬ q.inFini →
      ∀ c', ¬ (Function.update s.client c q c').inFini :=
    fun hq => forall_update (P := fun _ q => ¬ ClientPc.inFini q) hrun.client hq
  have hc := hrun.client c
  unfold State.clientStep at h
  split at h
  case h_1 | h_2 => cases h
  case h_3 | h_4 =>
    unfold State.beginTest at h
    split at h
    · cases h
    · obtain rfl := Option.some.inj h
      exact ⟨hrun.canTerminate, hclient id⟩
  case h_5 | h_6 =>
    obtain rfl := Option.some.inj h
    refine ⟨hrun.canTerminate, hclient ?_⟩
    split <;> exact id
  case h_7 | h_8 =>
    obtain rfl := Option.some.inj h
    exact ⟨hrun.canTerminate, hclient id⟩
  all_goals
    next hpc =>
    rw [hpc] at hc
    exact absurd trivial hc

/-- While nobody calls `tu_tm_fini` nobody is inside it. -/
theorem running_step {a : Action G W C S} (h : step tm s a = some s') (hok : Admitted tm s a)
    (hrun : Running s) : Running s' := by
  rcases clients_of_step h with hsame | ⟨w, pick, -, -, rfl⟩ | ⟨c, hact, -⟩
  · refine ⟨fun w => ?_, fun c => ?_⟩
    · rw [hsame.canTerminate]
      exact hrun.canTerminate w
    · rw [hsame.client]
      exact hrun.client c
  · refine ⟨hrun.canTerminate, fun c => ?_⟩
    show ¬ (if s.client c = .blocked then .relock else s.client c : ClientPc G W).inFini
    split
    · exact id
    · exact hrun.client c
  · have hclient : ∀ {c : C} {q : ClientPc G W}, ¬ q.inFini →
        ∀ c', ¬ (Function.update s.client c q c').inFini :=
      fun hq => forall_update (P := fun _ q => ¬ ClientPc.inFini q) hrun.client hq
    cases a with
    | wait c' =>
      rw [step] at h
      split at h
      · obtain rfl := Option.some.inj h
        exact ⟨hrun.canTerminate, hclient id⟩
      · cases h
    | wake c' =>
      rw [step] at h
      split at h
      · obtain rfl := Option.some.inj h
        exact ⟨hrun.canTerminate, hclient id⟩
      · cases h
    | client c' => exact running_clientStep h hrun
    | fini c' => exact hok.elim
    | _ => exact hact.elim

omit [DecidableEq G] [DecidableEq W] [DecidableEq C] [DecidableEq S] in
/-- A client takes the charge of nothing from anybody. -/
theorem ClientMove.covered {c : C} (h : ClientMove tm s s' c) {g : G} (hc : Covered tm s g) :
    Covered tm s' g := by
  have hled := h.toLedger
  refine hc.mono (fun hne => ?_) (h.sem g) (fun t pc ht hdue => ⟨pc, ?_, hdue⟩) fun w hw => ?_
  · rwa [show s'.queue = s.queue from congrArg Ledger.queue hled] at hne
  · rwa [show s'.push = s.push from congrArg Ledger.push hled]
  · rwa [show s'.worker = s.worker from congrArg Ledger.worker hled]

/-! ## Every run -/

/-- **Every step keeps every queue covered.** -/
theorem covered_step {a : Action G W C S} (h : step tm s a = some s') (hok : Admitted tm s a)
    (hrun : Running s) {g : G} (hc : Covered tm s g) : Covered tm s' g := by
  cases a with
  | push t g₀ state =>
    rw [step] at h
    split at h
    · next hmay =>
      obtain rfl := Option.some.inj h
      refine hc.mono id le_rfl (due_update fun pc ht _ => ?_) fun _ h => h
      have hnone : s.push t = none := by
        cases t with
        | inl w => exact hmay.2
        | inr c => exact hmay.2
      rw [hnone] at ht
      cases ht
    · cases h
  | pushTask w g₀ =>
    rw [step] at h
    split at h
    · next hmay =>
      obtain rfl := Option.some.inj h
      exact covered_pushTask hmay hc
    · cases h
  | pushing t => exact covered_pushing h hc
  | execReturn w => exact covered_execReturn h hc
  | worker w pick => exact covered_workerStep h hok hrun hc
  | wait c => exact (clientMove_of_step h (c := c) rfl).covered hc
  | fini c => exact hok.elim
  | client c => exact (clientMove_of_step h (c := c) rfl).covered hc
  | wake c => exact (clientMove_of_step h (c := c) rfl).covered hc

/-- The runs of `Admitted` keep every queue covered. -/
theorem covered_of_reaches (hs : (system tm C S).Reaches (Admitted tm) s) :
    Running s ∧ ∀ g, Covered tm s g := by
  refine hs.invariant (I := fun s => Running s ∧ ∀ g, Covered tm s g) ?_ ?_
  · rintro s rfl
    exact ⟨⟨fun _ => rfl, fun _ => id⟩, fun g hne => absurd rfl hne⟩
  · rintro s a s' - ⟨hrun, hc⟩ hok h
    exact ⟨running_step h hok hrun, fun g => covered_step h hok hrun (hc g)⟩

variable [Fintype G] [Fintype W] [Fintype C] [Fintype S]

/-- **No operation is stranded**, for any groups, workers, operations and interleaving
before `tu_tm_fini`: when no push is in progress and every worker of every group is
blocked in `sem.acquire` with no permit left, every place is empty and the counter is
`0`. -/
theorem nothing_stranded (tm : Groups G W) (s : State G W C S)
    (hs : (system tm C S).Reaches (Admitted tm) s) (hpush : ∀ t, s.push t = none)
    (hworker : ∀ w, s.worker w = .acquire) (hsem : ∀ g, s.sem g = 0) :
    (∀ g, s.queue g = []) ∧ (∀ w, s.cache w = []) ∧ (∀ x, s.stateQueue x = []) ∧
      s.operationCounter = 0 := by
  obtain ⟨-, hcovered⟩ := covered_of_reaches hs
  have hI := inv_of_reaches hs
  have hqueue : ∀ g, s.queue g = [] := by
    intro g
    by_contra hne
    rcases hcovered g hne with h | ⟨t, pc, ht, -⟩ | ⟨w, -, hawake⟩
    · rw [hsem g] at h
      exact lt_irrefl 0 h
    · rw [hpush t] at ht
      cases ht
    · rw [hworker w] at hawake
      exact hawake
  have hcache : ∀ w, s.cache w = [] := by
    intro w
    exact (hI.idle_of_owed (by rw [hworker w]; rfl)).1
  have hstate : ∀ x, s.stateQueue x = [] := by
    intro x
    refine ((stateInv_of_reaches hs x).quiescent fun w => ?_).2.1
    rw [hworker w]
    exact id
  refine ⟨hqueue, hcache, hstate, ?_⟩
  rw [hI.counter, (total_eq_zero_iff owed).mpr]
  · rfl
  · refine ⟨fun t => ?_, fun g => ?_, fun x => ?_, fun w => ?_, fun w => ?_⟩
    · rw [hpush t]
      rfl
    · rw [hqueue g]
      rfl
    · rw [hstate x]
      rfl
    · rw [hworker w]
      rfl
    · rw [hcache w]
      rfl

end Steps

/-- Two workers and one push: worker `0` drains the queue while the push of a second
operation is not over, and its pop fails although the operation can be popped already.
The permit of that push wakes worker `1`. -/
def unpublished : List (Action Unit (Fin 2) Unit Unit) :=
  pushByClient none ++ [.push (.inr ()) () none, .pushing (.inr ()), .worker 0 none,
    .worker 0 none, .worker 0 none, .worker 0 none, .worker 0 none, .worker 0 (some 0),
    .execReturn 0, .worker 0 none, .pushing (.inr ()), .worker 0 none, .worker 0 none,
    .worker 0 none, .worker 0 none, .worker 0 none, .pushing (.inr ()), .pushing (.inr ())] ++
    [.worker 1 none, .worker 1 none, .worker 1 none, .worker 1 none, .worker 1 none,
      .worker 1 (some 0), .execReturn 1, .worker 1 none, .worker 1 none, .worker 1 none,
      .worker 1 none, .worker 1 none, .worker 1 none]

theorem nothing_stranded_unpublished :
    let s : State Unit (Fin 2) Unit Unit :=
      (system twoWorkers Unit Unit).replayWithin (Admitted twoWorkers) initial unpublished
    s.executed = [0, 1] ∧ (∀ g, s.queue g = []) ∧ (∀ w, s.cache w = []) ∧
      (∀ x, s.stateQueue x = []) ∧ s.operationCounter = 0 := by
  exact ⟨by decide, nothing_stranded twoWorkers _
    (TransitionSystem.Reaches.replayWithin (.start rfl) unpublished (by decide))
    (by decide) (by decide) (by decide)⟩

end TaskManager
end ThreadUtils
