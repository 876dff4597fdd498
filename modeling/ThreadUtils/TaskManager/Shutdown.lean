import ThreadUtils.TaskManager.Clients
import ThreadUtils.TaskManager.StateOwnership
import ThreadUtils.Transition.Fairness
import ThreadUtils.Transition.Permits

/-!
# Shutdown of the task manager

`group_fini` stores `can_terminate` in every worker of a group, releases one permit for
each of them and joins them.  A worker that acquires a permit from then on reads the flag
and exits.  So each worker takes one more permit at most, and a worker that took its last
one before needs none: there are as many permits as workers that still have to take one.

## The permits

`ShutDown` is this inequality together with the flags.  It holds when the permits are released,
since then there is one for every worker of the group, and a step keeps it: an acquire takes a
permit, and the worker that took it owes none from then on, because its next access reads a flag
that is never cleared again.  Pushes that are still underway only add permits.  It would not do to
count the workers that are blocked in the acquire: a worker that drains its queue during the
shutdown comes back for a permit later, and one has to be left for it.

## The way to the exit

That every join returns takes two more steps.  The work that is left only gets less when
nobody pushes any more (`work`), and between two operations a worker moves down a fixed
order of its accesses (`rank`); so the workers of the group come to rest.  And a worker that
has not exited is not blocked.

The two measures are not one number.  An operation that returns lowers the work and takes its worker
up to the top of the order, and a worker of another group may move up and down as it likes, for it
is not shut down.  So a step descends (`Descends`) if it lowers the work, or keeps it and moves the
threads of the group down, or has nothing to do with them; and fairness lets the threads of the
group move again and again.  The queue of a state may answer to its owner that it is empty while an
operation is being put in; such an answer changes nothing, and fairness is asked for the others.

* `shutDown_step` --- every step keeps the permits.
* `Effect.descends` --- the variant.
* `enabled_of_shutDown` --- no worker of the group is blocked.
* `shutsDown_of_released` --- all joins return, in every fair run in which the pushes end.
-/

namespace ThreadUtils
namespace TaskManager

variable {G W C S : Type*}

/-! ## The permits -/

/-- The worker will call `sem.acquire()` again, once its flag is set. -/
def WorkerPc.owes : WorkerPc S → Bool
  | .checkTerminate | .exited => false
  | _ => true

/-- The group was shut down: its flags are stored and there is a permit for each of its
workers that has yet to return from an acquire. -/
structure ShutDown (tm : Groups G W) (g : G) (s : State G W C S) : Prop where
  canTerminate : ∀ w, tm.group w = g → s.canTerminate w = true
  permits : owing WorkerPc.owes (tm.workers g) s.worker ≤ s.sem g

/-- What `group_fini` has stored on its way. -/
def ClientPc.Stored (tm : Groups G W) (canTerminate : W → Bool) : ClientPc G W → Prop
  | .finiStore rest g _ => ∀ w, tm.group w = g → w ∈ rest ∨ canTerminate w = true
  | .finiRelease g _ => ∀ w, tm.group w = g → canTerminate w = true
  | _ => True

variable {tm : Groups G W} {s s' : State G W C S} {g : G}

theorem ClientPc.Stored.mono {canTerminate canTerminate' : W → Bool} {pc : ClientPc G W}
    (h : pc.Stored tm canTerminate)
    (hmono : ∀ w, canTerminate w = true → canTerminate' w = true) :
    pc.Stored tm canTerminate' := by
  cases pc with
  | finiStore rest g groups => exact fun w hw => (h w hw).imp_right (hmono w)
  | finiRelease g groups => exact fun w hw => hmono w (h w hw)
  | _ => trivial

variable [DecidableEq G] [DecidableEq W] [DecidableEq C] [DecidableEq S]

/-- The flags are never cleared. -/
theorem canTerminate_mono {a : Action G W C S} (h : step tm s a = some s') {w : W}
    (hw : s.canTerminate w = true) : s'.canTerminate w = true := by
  rcases clients_of_step h with hsame | ⟨v, pick, -, -, rfl⟩ | ⟨c, hact, -⟩
  · rw [hsame.canTerminate]
    exact hw
  · exact hw
  · cases a with
    | client c' =>
      change s.clientStep tm c' = some s' at h
      unfold State.clientStep at h
      split at h
      case h_3 | h_4 =>
        unfold State.beginTest at h
        split at h <;> cases h
        exact hw
      case h_9 =>
        next v rest g groups hpc =>
        obtain rfl := Option.some.inj h
        show Function.update s.canTerminate v true w = true
        by_cases hwv : w = v
        · rw [hwv, Function.update_self]
        · rw [Function.update_of_ne hwv]
          exact hw
      case h_12 =>
        split at h <;> cases h
        exact hw
      all_goals cases h <;> exact hw
    | wait c' | fini c' | wake c' =>
      obtain ⟨-, hs'⟩ := Option.ite_none_right_eq_some.mp h
      obtain rfl := Option.some.inj hs'
      exact hw
    | _ => exact hact.elim

omit [DecidableEq G] [DecidableEq W] [DecidableEq C] [DecidableEq S] in
theorem stored_finiNext (groups : List G) (canTerminate : W → Bool) :
    (finiNext tm groups).Stored tm canTerminate := by
  cases groups with
  | nil => trivial
  | cons g groups => exact fun w hw => Or.inl ((tm.mem_workers g w).mpr hw)

/-- A client keeps account of the flags it has stored. -/
theorem stored_clientStep {c : C} (hI : (s.client c).Stored tm s.canTerminate)
    (h : s.clientStep tm c = some s') : (s'.client c).Stored tm s'.canTerminate := by
  unfold State.clientStep at h
  split at h
  case h_1 | h_2 => cases h
  case h_3 | h_4 =>
    unfold State.beginTest at h
    split at h
    · cases h
    · obtain rfl := Option.some.inj h
      simp [ClientPc.Stored]
  case h_9 =>
    next v rest g groups hpc =>
    obtain rfl := Option.some.inj h
    rw [hpc] at hI
    simp only [Function.update_self]
    intro w hw
    by_cases hwv : w = v
    · rw [hwv, Function.update_self]
      exact Or.inr rfl
    · rw [Function.update_of_ne hwv]
      exact (hI w hw).imp_left fun hmem => (List.mem_cons.mp hmem).resolve_left hwv
  case h_10 =>
    next g groups hpc =>
    obtain rfl := Option.some.inj h
    rw [hpc] at hI
    simp only [Function.update_self]
    exact fun w hw => (hI w hw).resolve_left (List.not_mem_nil)
  case h_12 =>
    split at h
    · obtain rfl := Option.some.inj h
      simp [ClientPc.Stored]
    · cases h
  case h_13 =>
    obtain rfl := Option.some.inj h
    simp only [Function.update_self]
    exact stored_finiNext _ _
  case h_5 | h_6 =>
    obtain rfl := Option.some.inj h
    simp only [Function.update_self]
    split <;> trivial
  all_goals
    obtain rfl := Option.some.inj h
    simp [ClientPc.Stored]

theorem stored_of_reaches {ok : State G W C S → Action G W C S → Prop}
    (hs : (system tm C S).Reaches ok s) : ∀ c, (s.client c).Stored tm s.canTerminate := by
  refine hs.invariant (I := fun s => ∀ c, (s.client c).Stored tm s.canTerminate) ?_ ?_
  · rintro s rfl c
    trivial
  · intro s a s' _ hI _ h c
    have hkeep : s'.client c = s.client c → (s'.client c).Stored tm s'.canTerminate := by
      intro heq
      rw [heq]
      exact (hI c).mono fun w hw => canTerminate_mono h hw
    rcases clients_of_step h with hsame | ⟨v, pick, -, -, rfl⟩ | ⟨d, hact, hmove⟩
    · exact hkeep (by rw [hsame.client])
    · show (if s.client c = .blocked then ClientPc.relock else s.client c).Stored tm s.canTerminate
      split
      · trivial
      · exact hI c
    · by_cases hd : c = d
      · subst hd
        cases a with
        | client c' =>
          obtain rfl : c' = c := hact
          exact stored_clientStep (hI c') h
        | wait c' | wake c' =>
          obtain rfl : c' = c := hact
          obtain ⟨-, hs'⟩ := Option.ite_none_right_eq_some.mp h
          obtain rfl := Option.some.inj hs'
          simp [ClientPc.Stored]
        | fini c' =>
          obtain rfl : c' = c := hact
          obtain ⟨-, hs'⟩ := Option.ite_none_right_eq_some.mp h
          obtain rfl := Option.some.inj hs'
          simp only [Function.update_self]
          exact stored_finiNext _ _
        | _ => exact hact.elim
      · exact hkeep (hmove.other c hd).1

omit [DecidableEq G] [DecidableEq C] [DecidableEq S] in
/-- A step of a worker: it may only take its last permit. -/
theorem ShutDown.worker (hD : ShutDown tm g s) {w : W} {q : WorkerPc S}
    (hworker : s'.worker = Function.update s.worker w q)
    (hflags : s'.canTerminate = s.canTerminate) (hsem : s.sem g ≤ s'.sem g)
    (howes : tm.group w = g → q.owes = true → (s.worker w).owes = true) : ShutDown tm g s' := by
  refine ⟨fun v hv => ?_, ?_⟩
  · rw [hflags]
    exact hD.canTerminate v hv
  · rw [hworker]
    have hle : owing WorkerPc.owes (tm.workers g) (Function.update s.worker w q) ≤
        owing WorkerPc.owes (tm.workers g) s.worker :=
      owing_update_le fun hw => howes ((tm.mem_workers g w).mp hw)
    exact hle.trans (hD.permits.trans hsem)

omit [DecidableEq G] [DecidableEq C] [DecidableEq S] in
/-- A step from an access after which a permit is owed. -/
theorem ShutDown.worker_of_owes (hD : ShutDown tm g s) {w : W} {q : WorkerPc S}
    (hworker : s'.worker = Function.update s.worker w q)
    (hflags : s'.canTerminate = s.canTerminate) (hsem : s'.sem = s.sem)
    (howes : (s.worker w).owes = true) : ShutDown tm g s' :=
  hD.worker hworker hflags (by rw [hsem]) fun _ _ => howes

omit [DecidableEq C] in
theorem shutDown_workerStep (hD : ShutDown tm g s) {w : W} {pick : Option ℕ}
    (h : s.workerStep tm w pick = some s') : ShutDown tm g s' := by
  unfold State.workerStep at h
  split at h
  case h_3 =>
    next hpc =>
    split at h
    · next hsem =>
      obtain rfl := Option.some.inj h
      by_cases hg : tm.group w = g
      · -- the worker takes the permit that it owed
        subst hg
        refine ⟨hD.canTerminate, ?_⟩
        have hlt : owing WorkerPc.owes (tm.workers (tm.group w))
            (Function.update s.worker w .checkTerminate) <
              owing WorkerPc.owes (tm.workers (tm.group w)) s.worker :=
          owing_update_lt ((tm.mem_workers _ _).mpr rfl) (by rw [hpc]; rfl) rfl
        have hpermits := hD.permits
        show owing WorkerPc.owes _ (Function.update s.worker w .checkTerminate) ≤
          Function.update s.sem (tm.group w) (s.sem (tm.group w) - 1) (tm.group w)
        rw [Function.update_self]
        omega
      · refine hD.worker (w := w) rfl rfl ?_ fun heq => absurd heq hg
        show s.sem g ≤ Function.update s.sem (tm.group w) _ g
        rw [Function.update_of_ne (Ne.symm hg)]
    · cases h
  case h_4 =>
    next hpc =>
    obtain rfl := Option.some.inj h
    refine hD.worker (w := w) rfl rfl le_rfl fun hg howes => ?_
    rw [if_pos (hD.canTerminate w hg)] at howes
    cases howes
  case h_6 =>
    next hpc =>
    split at h
    · obtain rfl := Option.some.inj h
      exact hD.worker_of_owes (w := w) rfl rfl rfl (by rw [hpc]; rfl)
    · obtain ⟨op, -, h⟩ := Option.map_eq_some_iff.mp h
      split at h
      all_goals
        subst h
        exact hD.worker_of_owes (w := w) rfl rfl rfl (by rw [hpc]; rfl)
  case h_9 =>
    next hpc =>
    split at h
    · obtain rfl := Option.some.inj h
      exact hD
    · obtain ⟨op, -, rfl⟩ := Option.map_eq_some_iff.mp h
      exact hD.worker_of_owes (w := w) rfl rfl rfl (by rw [hpc]; rfl)
  case h_10 | h_11 =>
    next hpc =>
    split at h
    all_goals
      obtain rfl := Option.some.inj h
      exact hD.worker_of_owes (w := w) rfl rfl rfl (by rw [hpc]; rfl)
  case h_13 =>
    next hpc =>
    split at h
    · obtain rfl := Option.some.inj h
      exact hD.worker_of_owes (w := w) rfl rfl rfl (by rw [hpc]; rfl)
    · cases h
  case h_14 | h_15 | h_16 | h_17 => cases h
  all_goals
    next hpc =>
    obtain rfl := Option.some.inj h
    exact hD.worker_of_owes (w := w) rfl rfl rfl (by rw [hpc]; rfl)

/-- A step that leaves the workers alone and takes no permit. -/
theorem ShutDown.same (hD : ShutDown tm g s) {a : Action G W C S} (h : step tm s a = some s')
    (hworker : s'.worker = s.worker) (hsem : s.sem g ≤ s'.sem g) : ShutDown tm g s' := by
  refine ⟨fun w hw => canTerminate_mono h (hD.canTerminate w hw), ?_⟩
  rw [hworker]
  exact hD.permits.trans hsem

omit [DecidableEq S] in
theorem pushTask_worker_sem (w : W) (g : G) :
    (s.pushTask tm w g).worker = s.worker ∧ (s.pushTask tm w g).sem = s.sem := by
  rw [State.pushTask]
  split
  · exact ⟨rfl, rfl⟩
  · split <;> exact ⟨rfl, rfl⟩

omit [DecidableEq S] in
theorem pushing_worker_sem {t : W ⊕ C} (h : s.pushing t = some s') :
    s'.worker = s.worker ∧ ∀ g, s.sem g ≤ s'.sem g := by
  unfold State.pushing at h
  split at h
  · cases h
  case h_5 =>
    obtain rfl := Option.some.inj h
    exact ⟨rfl, fun g => le_update_add _ _ _ g⟩
  all_goals
    obtain rfl := Option.some.inj h
    exact ⟨rfl, fun _ => le_rfl⟩

/-- **Every step keeps the permits.** -/
theorem shutDown_step (hD : ShutDown tm g s) {a : Action G W C S}
    (h : step tm s a = some s') : ShutDown tm g s' := by
  have hstep := h
  cases a with
  | push t g' state =>
    obtain ⟨-, hs'⟩ := Option.ite_none_right_eq_some.mp h
    obtain rfl := Option.some.inj hs'
    exact hD.same hstep rfl le_rfl
  | pushTask w g' =>
    obtain ⟨-, hs'⟩ := Option.ite_none_right_eq_some.mp h
    obtain rfl := Option.some.inj hs'
    obtain ⟨hworker, hsem⟩ : (s.pushTask tm w g').worker = s.worker ∧
        (s.pushTask tm w g').sem = s.sem := pushTask_worker_sem w g'
    exact hD.same hstep hworker (by rw [hsem])
  | pushing t =>
    obtain ⟨hworker, hsem⟩ := pushing_worker_sem h
    exact hD.same hstep hworker (hsem g)
  | execReturn w =>
    change s.execReturn w = some s' at h
    unfold State.execReturn at h
    split at h
    · next op hrun =>
      split at h
      · obtain rfl := Option.some.inj h
        refine hD.worker_of_owes (w := w) rfl rfl rfl ?_
        cases hpc : s.worker w with
        | exec | stateExec | cacheExec => rfl
        | _ =>
          rw [hpc] at hrun
          cases hrun
      · cases h
    · cases h
  | worker w pick => exact shutDown_workerStep hD h
  | client c =>
    have hmove := clientMove_of_step (c := c) h rfl
    exact hD.same hstep (by rw [hmove.toLedger]) (hmove.sem g)
  | wait c | fini c | wake c =>
    obtain ⟨-, hs'⟩ := Option.ite_none_right_eq_some.mp h
    obtain rfl := Option.some.inj hs'
    exact hD.same hstep rfl le_rfl

/-- `group->sem.release(group->workers.size())`, when the flags are stored. -/
theorem shutDown_release {c : C} {groups : List G}
    (hstored : (s.client c).Stored tm s.canTerminate) (hpc : s.client c = .finiRelease g groups)
    (h : s.clientStep tm c = some s') :
    ShutDown tm g s' ∧ s'.client c = .finiJoin (tm.workers g) groups := by
  rw [State.clientStep, hpc] at h
  obtain rfl := Option.some.inj h
  rw [hpc] at hstored
  refine ⟨⟨hstored, ?_⟩, Function.update_self ..⟩
  show owing _ _ _ ≤ Function.update s.sem g (s.sem g + (tm.workers g).length) g
  rw [Function.update_self]
  exact owing_le_length.trans (Nat.le_add_left _ _)

/-! ## The variant -/

/-- The work that a place contributes: an operation is moved once, from the queue of a
group to the queue of its state, before it is executed. -/
def work : Weights G S where
  push
    | .count _ _ _ | .enqueue _ _ _ => 2
    | .complete _ _ | .release _ _ => 0
  queued _ := 2
  stateQueued _ _ := 1
  worker
    | .statePush _ _ _ => 1
    | _ => 0
  cached _ := 1

/-- The order in which a worker passes its accesses between two operations. -/
def WorkerPc.rank : WorkerPc S → ℕ
  | .exited => 0
  | .checkTerminate => 1
  | .acquire => 2
  | .notify => 3
  | .park => 4
  | .check => 5
  | .sub _ => 6
  | .pop _ => 7
  | .unpark => 8
  | .cachePop _ => 9
  | .statePop _ _ _ => 10
  | .stateSub _ _ _ | .stateAdd _ _ => 11
  | .statePush _ _ _ | .exec _ _ | .stateExec _ _ _ _ | .cacheExec _ _ => 12

/-- The accesses that are left of a push. -/
def pushRank : Option (PushPc G S) → ℕ
  | none => 0
  | some (.release _ _) => 1
  | some (.complete _ _) => 2
  | some (.enqueue _ _ _) => 3
  | some (.count _ _ _) => 4

section Variant

variable [Fintype G] [Fintype W] [Fintype C] [Fintype S] {L L' : Ledger G W C S}

/-- The ranks of the workers of a group. -/
def Ledger.ranks (tm : Groups G W) (g : G) (L : Ledger G W C S) : ℕ :=
  ∑ w, if tm.group w = g then (L.worker w).rank + pushRank (L.push (.inl w)) else 0

/-- A step that leaves less work, or moves a worker of the group down, or does not move the
workers of the group. -/
def Descends (tm : Groups G W) (g : G) (L L' : Ledger G W C S) : Prop :=
  L'.total work < L.total work ∨ L'.total work ≤ L.total work ∧
    (L'.ranks tm g < L.ranks tm g ∨ ∀ w, tm.group w = g →
      L'.worker w = L.worker w ∧ L'.push (.inl w) = L.push (.inl w))

omit [DecidableEq C] [DecidableEq S] in
theorem Descends.worker {w : W} {q : WorkerPc S} {old new : ℕ}
    (hwork : L'.total work + old = L.total work + new)
    (hworker : L'.worker = Function.update L.worker w q) (hpush : L'.push = L.push)
    (hle : new ≤ old) (hrank : tm.group w = g → new < old ∨ q.rank < (L.worker w).rank) :
    Descends tm g L L' := by
  by_cases hg : tm.group w = g
  · rcases hrank hg with hlt | hlt
    · exact Or.inl (by omega)
    · refine Or.inr ⟨by omega, Or.inl ?_⟩
      have hsum := sum_update_exchange_index (fun v pc =>
        if tm.group v = g then WorkerPc.rank pc + pushRank (L.push (.inl v)) else 0) L.worker w q
      rw [if_pos hg, if_pos hg] at hsum
      rw [Ledger.ranks, Ledger.ranks, hworker, hpush]
      omega
  · refine Or.inr ⟨by omega, Or.inr fun v hv => ⟨?_, by rw [hpush]⟩⟩
    rw [hworker, Function.update_of_ne]
    rintro rfl
    exact hg hv

omit [DecidableEq S] in
theorem Descends.push {t : W ⊕ C} {p : Option (PushPc G S)} {old new : ℕ}
    (hwork : L'.total work + old = L.total work + new)
    (hpush : L'.push = Function.update L.push t p) (hworker : L'.worker = L.worker)
    (hle : new ≤ old) (hrank : pushRank p < pushRank (L.push t)) : Descends tm g L L' := by
  refine Or.inr ⟨by omega, ?_⟩
  have hother : ∀ v, t ≠ .inl v → L'.push (.inl v) = L.push (.inl v) := by
    intro v hv
    rw [hpush, Function.update_of_ne (Ne.symm hv)]
  by_cases ht : ∃ w, t = .inl w ∧ tm.group w = g
  · obtain ⟨w, rfl, hg⟩ := ht
    left
    refine Finset.sum_lt_sum (fun v _ => ?_) ⟨w, Finset.mem_univ w, ?_⟩
    · rw [hworker]
      by_cases hv : v = w
      · subst hv
        rw [hpush, Function.update_self, if_pos hg, if_pos hg]
        omega
      · rw [hother v fun heq => hv (Sum.inl.inj heq).symm]
    · rw [hworker, hpush, Function.update_self, if_pos hg, if_pos hg]
      omega
  · right
    intro v hv
    exact ⟨by rw [hworker], hother v fun heq => ht ⟨v, heq, hv⟩⟩

omit [DecidableEq G] [DecidableEq W] [DecidableEq C] [DecidableEq S] [Fintype G] [Fintype W]
  [Fintype C] [Fintype S] in
theorem LocalMove.work_eq {pc q : WorkerPc S} (h : LocalMove pc q) :
    (work : Weights G S).worker q = (work : Weights G S).worker pc := by
  cases h <;> rfl

omit [DecidableEq G] [DecidableEq W] [DecidableEq C] [DecidableEq S] [Fintype G] [Fintype W]
  [Fintype C] [Fintype S] in
theorem LocalMove.rank_lt {pc q : WorkerPc S} (h : LocalMove pc q)
    (hne : pc = .checkTerminate → q ≠ .unpark) : q.rank < pc.rank := by
  cases h with
  | woken => exact absurd rfl (hne rfl)
  | _ => simp [WorkerPc.rank]

omit [DecidableEq G] [DecidableEq W] [DecidableEq C] [DecidableEq S] [Fintype G] [Fintype W]
  [Fintype C] [Fintype S] in
theorem rank_afterExec {pc : WorkerPc S} {op : Operation S} (h : pc.running = some op) :
    (work : Weights G S).worker pc.afterExec = (work : Weights G S).worker pc ∧
      pc.afterExec.rank < pc.rank := by
  cases pc with
  | exec | stateExec | cacheExec =>
    exact ⟨rfl, by simp [WorkerPc.afterExec, WorkerPc.rank]⟩
  | _ => cases h

/-- **The variant.**  A step of a manager to which nobody pushes descends, when it does not
begin another pass of a worker of the group. -/
theorem Effect.descends (h : Effect L L') (hissued : L'.issued = L.issued)
    (hflag : ∀ w, tm.group w = g → L.worker w = .checkTerminate → L'.worker w ≠ .unpark) :
    Descends tm g L L' := by
  cases h with
  | same => exact Or.inr ⟨le_rfl, Or.inr fun _ _ => ⟨rfl, rfl⟩⟩
  | pushOp | cached | evicted => exact absurd hissued (Nat.succ_ne_self _)
  | count t g' op call hpc =>
    exact .push (total_push L work) rfl rfl (by simp [hpc, work, Weights.pushing])
      (by simp [hpc, pushRank])
  | enqueue t g' op call hpc =>
    exact .push (total_push_queue L work) rfl rfl
      (by simp [hpc, work, Weights.pushing]; omega) (by simp [hpc, pushRank])
  | complete t g' call hpc =>
    exact .push (total_push L work) rfl rfl (by simp [hpc, work, Weights.pushing])
      (by simp [hpc, pushRank])
  | release t g' call hpc =>
    exact .push (total_push L work) rfl rfl (by simp [hpc, work, Weights.pushing])
      (by simp [hpc, pushRank])
  | execReturn w op hrun hpush =>
    obtain ⟨hwork, hrank⟩ := rank_afterExec (G := G) hrun
    exact .worker (total_worker L work) rfl rfl hwork.le fun _ => Or.inr hrank
  | move w q hmove =>
    refine .worker (total_worker L work) rfl rfl hmove.work_eq.le fun hg => Or.inr ?_
    refine hmove.rank_lt fun hpc => ?_
    have hne : Function.update L.worker w q w ≠ .unpark := hflag w hg hpc
    rwa [Function.update_self] at hne
  | popTask w g' k p op hpc hop hstate =>
    have hq := weigh_eraseIdx (fun _ => 2) hop
    exact .worker (total_worker_queue L work) rfl rfl (by simp [hpc, work]; omega)
      fun _ => Or.inl (by simp [hpc, work]; omega)
  | popState w g' k p op x hpc hop hstate =>
    have hq := weigh_eraseIdx (fun _ => 2) hop
    exact .worker (total_worker_queue L work) rfl rfl (by simp [hpc, work]; omega)
      fun _ => Or.inl (by simp [hpc, work]; omega)
  | statePush w p op x hpc =>
    exact .worker (total_worker_stateQueue L work) rfl rfl
      (by simp only [hpc, work, weigh_append, weigh_cons, weigh_nil]; omega)
      fun _ => Or.inr (by simp [hpc, WorkerPc.rank])
  | stateAdd w p x hpc =>
    have hwork : (work : Weights G S).worker
        (if L.counter x = 0 then .statePop p x 0 else .cachePop p) = 0 := by
      split
      · rfl
      · rfl
    have hrank : WorkerPc.rank (if L.counter x = 0 then .statePop p x 0 else .cachePop p) <
        (L.worker w).rank := by
      rw [hpc]
      split
      · exact Nat.lt_succ_self _
      · simp [WorkerPc.rank]
    exact .worker (total_worker L work) rfl rfl (by rw [hwork]; exact Nat.zero_le _)
      fun _ => Or.inr hrank
  | statePop w k p x n op hpc hop =>
    have hq := weigh_eraseIdx (fun _ => 1) hop
    exact .worker (total_worker_stateQueue L work) rfl rfl (by simp [hpc, work]; omega)
      fun _ => Or.inl (by simp [hpc, work]; omega)
  | stateLeave w p x n hpc hone =>
    exact .worker (total_worker L work) rfl rfl (by simp [hpc, work])
      fun _ => Or.inr (by simp [hpc, WorkerPc.rank])
  | stateKeep w p x n hpc hone =>
    exact .worker (total_worker L work) rfl rfl (by simp [hpc, work])
      fun _ => Or.inr (by simp [hpc, WorkerPc.rank])
  | cacheEmpty w p hpc hcache =>
    exact .worker (total_worker L work) rfl rfl (by simp [hpc, work])
      fun _ => Or.inr (by simp [hpc, WorkerPc.rank])
  | cachePop w p op hpc hlast =>
    have hq := weigh_dropLast (fun _ => 1) hlast
    exact .worker (total_worker_cache L work) rfl rfl (by simp [hpc, work]; omega)
      fun _ => Or.inl (by simp [hpc, work]; omega)
  | sub w p hpc =>
    exact .worker (total_worker L work) rfl rfl (by simp [hpc, work])
      fun _ => Or.inr (by simp [hpc, WorkerPc.rank])

end Variant

/-! ## The workers are not blocked -/

/-- The steps of a worker and of the operation that runs on it.  An answer of the queue of a
state that it is empty is not counted. -/
def Moves (w : W) (s : State G W C S) : Action G W C S → Prop
  | .worker v pick => v = w ∧ ((∃ p x n, s.worker w = .statePop p x n) → pick ≠ none)
  | .execReturn v => v = w
  | .pushing t => t = .inl w
  | _ => False

/-- A worker that moves comes to another access, its own or that of its push. -/
theorem ne_of_moves {a : Action G W C S} {w : W} (h : step tm s a = some s')
    (hmoves : Moves w s a) : ¬ (s'.worker w = s.worker w ∧ s'.push (.inl w) = s.push (.inl w)) := by
  rintro ⟨hworker, hpush⟩
  cases a with
  | worker v pick =>
    obtain ⟨rfl, hpick⟩ := hmoves
    change s.workerStep tm v pick = some s' at h
    unfold State.workerStep at h
    split at h
    case h_3 | h_13 =>
      next hpc =>
      split at h
      · obtain rfl := Option.some.inj h
        simp [hpc] at hworker
      · cases h
    case h_4 =>
      next hpc =>
      obtain rfl := Option.some.inj h
      simp only [Function.update_self, hpc] at hworker
      split at hworker <;> cases hworker
    case h_6 =>
      next hpc =>
      split at h
      · obtain rfl := Option.some.inj h
        simp [hpc] at hworker
      · obtain ⟨op, -, h⟩ := Option.map_eq_some_iff.mp h
        split at h
        all_goals
          subst h
          simp [hpc] at hworker
    case h_8 =>
      next hpc =>
      obtain rfl := Option.some.inj h
      simp only [Function.update_self, hpc] at hworker
      split at hworker <;> cases hworker
    case h_9 =>
      next p x n hpc =>
      split at h
      · exact hpick ⟨p, x, n, hpc⟩ rfl
      · obtain ⟨op, -, rfl⟩ := Option.map_eq_some_iff.mp h
        simp [hpc] at hworker
    case h_10 | h_11 =>
      next hpc =>
      split at h
      all_goals
        obtain rfl := Option.some.inj h
        simp [hpc] at hworker
    case h_14 | h_15 | h_16 | h_17 => cases h
    all_goals
      next hpc =>
      obtain rfl := Option.some.inj h
      simp [hpc] at hworker
  | execReturn v =>
    obtain rfl : v = w := hmoves
    change s.execReturn v = some s' at h
    unfold State.execReturn at h
    split at h
    · next op hrun =>
      split at h
      · obtain rfl := Option.some.inj h
        simp only [Function.update_self] at hworker
        have hlt := (rank_afterExec (G := G) hrun).2
        rw [hworker] at hlt
        exact lt_irrefl _ hlt
      · cases h
    · cases h
  | pushing t =>
    obtain rfl : t = .inl w := hmoves
    change s.pushing (.inl w) = some s' at h
    unfold State.pushing at h
    split at h
    · cases h
    all_goals
      next hpc =>
      obtain rfl := Option.some.inj h
      simp [hpc] at hpush
  | _ => exact hmoves

variable [Fintype G] [Fintype W] [Fintype C] [Fintype S]

omit [DecidableEq G] [DecidableEq W] [DecidableEq C] [Fintype G] [Fintype C] [Fintype S] in
/-- The owner of a state finds an operation in the queue of the state. -/
theorem StateInv.queue_ne_nil {L : Ledger G W C S} {x : S} (hI : StateInv x L) {w : W} {p n : ℕ}
    (hpc : L.worker w = .statePop p x n) : 0 < (L.stateQueue x).length := by
  have hown : (L.worker w).owning x = 1 := by
    rw [hpc]
    exact if_pos rfl
  have hcounter := hI.counter_ne_zero hown
  have hpopped : ∑ v, (L.worker v).popped x = 0 := by
    refine (sum_eq_zero_iff_forall _).mpr fun v => ?_
    by_contra hne
    have hv : (L.worker v).owning x = 1 := by
      cases hq : L.worker v with
      | stateExec q y m op | stateSub q y m =>
        rw [hq] at hne
        have hy : y = x := by
          by_contra hy
          exact hne (if_neg hy)
        exact if_pos hy
      | _ =>
        rw [hq] at hne
        exact absurd rfl hne
    obtain rfl := hI.one_owner hv hown
    rw [hpc] at hne
    exact hne rfl
  have hbalance := hI.balance
  omega

/-- **No worker of the group is blocked.** -/
theorem enabled_of_shutDown (hs : (system tm C S).Reachable s) (hD : ShutDown tm g s) {w : W}
    (hg : tm.group w = g) (hw : s.worker w ≠ .exited) : (system tm C S).Enabled (Moves w) s := by
  have hworker : ∀ pick, (s.workerStep tm w pick).isSome →
      (∀ p x n, s.worker w ≠ .statePop p x n) → (system tm C S).Enabled (Moves w) s := by
    intro pick h hne
    exact TransitionSystem.enabled_of_isSome (a := .worker w pick)
      ⟨rfl, fun ⟨p, x, n, hpc⟩ => absurd hpc (hne p x n)⟩ h
  have hrunning : (s.worker w).running.isSome → (system tm C S).Enabled (Moves w) s := by
    intro hrun
    obtain ⟨op, hop⟩ := Option.isSome_iff_exists.mp hrun
    cases hpush : s.push (.inl w) with
    | none =>
      refine TransitionSystem.enabled_of_isSome (a := .execReturn w) rfl ?_
      show (s.execReturn w).isSome
      simp [State.execReturn, hop, hpush]
    | some pc =>
      refine TransitionSystem.enabled_of_isSome (a := .pushing (.inl w)) rfl ?_
      show (s.pushing (.inl w)).isSome
      cases pc <;> simp [State.pushing, hpush]
  cases hpc : s.worker w with
  | acquire =>
    have hpos : 0 < s.sem (tm.group w) := by
      rw [hg]
      refine (owing_pos ((tm.mem_workers g w).mpr hg) ?_).trans_le hD.permits
      rw [hpc]
      rfl
    exact hworker none (by simp [State.workerStep, hpc, hpos]) (by simp [hpc])
  | check =>
    have hcounter : 0 ≤ s.operationCounter := by
      rw [(inv_of_reaches hs).counter]
      exact Int.natCast_nonneg _
    exact hworker none (by simp [State.workerStep, hpc, hcounter]) (by simp [hpc])
  | statePop p x n =>
    have hpos := (stateInv_of_reaches hs x).queue_ne_nil hpc
    refine TransitionSystem.enabled_of_isSome (a := .worker w (some 0)) ⟨rfl, by simp⟩ ?_
    show (s.workerStep tm w (some 0)).isSome
    simp [State.workerStep, hpc, List.getElem?_eq_getElem hpos]
  | exec | stateExec | cacheExec =>
    refine hrunning ?_
    rw [hpc]
    rfl
  | stateSub p x n =>
    refine hworker none ?_ (by simp [hpc])
    rw [State.workerStep, hpc]
    dsimp only
    split <;> rfl
  | cachePop p =>
    refine hworker none ?_ (by simp [hpc])
    rw [State.workerStep, hpc]
    dsimp only
    split <;> rfl
  | exited => exact absurd hpc hw
  | _ => exact hworker none (by simp [State.workerStep, hpc]) (by simp [hpc])

/-! ## The result -/

/-- The state after `group_fini` has released the permits of the group `g`, in a shutdown by
the client `c`. -/
def Released (tm : Groups G W) (c : C) (g : G) (groups : List G) (s₁ : State G W C S) : Prop :=
  ∃ s₀, (system tm C S).Reachable s₀ ∧ s₀.client c = .finiRelease g groups ∧
    step tm s₀ (.client c) = some s₁

/-- What shutting down a group has to achieve. -/
structure ShutsDown (tm : Groups G W) (c : C) (g : G) (groups : List G) (s₁ : State G W C S) :
    Prop where
  /-- There are always as many permits as workers that have yet to return from an acquire. -/
  permits : ∀ trace s, (system tm C S).Path (fun _ _ => True) s₁ trace s →
    owing WorkerPc.owes (tm.workers g) s.worker ≤ s.sem g
  /-- No worker is blocked. -/
  not_blocked : ∀ trace s, (system tm C S).Path (fun _ _ => True) s₁ trace s →
    ∀ w ∈ tm.workers g, s.worker w ≠ .exited → (system tm C S).Enabled (Moves w) s
  /-- When the threads move, and no push function is called any more, all joins return. -/
  joins_return : ∀ r : (system tm C S).Run, r.state 0 = s₁ →
    (∀ w ∈ tm.workers g, r.Fair (Moves w)) → r.Fair (fun _ a => a = .client c) →
    (∃ n, ∀ m, n ≤ m → (r.state m).issued = (r.state n).issued) →
    (∃ n, ∀ w ∈ tm.workers g, (r.state n).worker w = .exited) ∧
      ∃ n, (r.state n).client c = .finiJoin [] groups

omit [Fintype G] [Fintype W] [Fintype C] [Fintype S] in
/-- A worker only goes on when its flag is not set. -/
theorem unpark_of_step {a : Action G W C S} (h : step tm s a = some s') {w : W}
    (hw : s'.worker w = .unpark) : s.worker w = .unpark ∨ s.canTerminate w = false := by
  have hsame : s'.worker = s.worker → s.worker w = .unpark ∨ s.canTerminate w = false :=
    fun heq => Or.inl (heq ▸ hw)
  have hupdate : ∀ v q, s'.worker = Function.update s.worker v q →
      (q = .unpark → s.canTerminate v = false) →
        s.worker w = .unpark ∨ s.canTerminate w = false := by
    intro v q heq hq
    rw [heq] at hw
    by_cases hwv : w = v
    · subst hwv
      rw [Function.update_self] at hw
      exact Or.inr (hq hw)
    · rw [Function.update_of_ne hwv] at hw
      exact Or.inl hw
  cases a with
  | push t g' state =>
    obtain ⟨-, hs'⟩ := Option.ite_none_right_eq_some.mp h
    obtain rfl := Option.some.inj hs'
    exact hsame rfl
  | pushTask v g' =>
    obtain ⟨-, hs'⟩ := Option.ite_none_right_eq_some.mp h
    obtain rfl := Option.some.inj hs'
    exact hsame (pushTask_worker_sem v g').1
  | pushing t => exact hsame (pushing_worker_sem h).1
  | execReturn v =>
    change s.execReturn v = some s' at h
    unfold State.execReturn at h
    split at h
    · next op hrun =>
      split at h
      · obtain rfl := Option.some.inj h
        refine hupdate v _ rfl fun heq => ?_
        have hlt := (rank_afterExec (G := G) hrun).1
        cases hpc : s.worker v with
        | exec | stateExec | cacheExec =>
          rw [hpc] at heq
          cases heq
        | _ =>
          rw [hpc] at hrun
          cases hrun
      · cases h
    · cases h
  | worker v pick =>
    change s.workerStep tm v pick = some s' at h
    unfold State.workerStep at h
    split at h
    case h_3 | h_13 =>
      split at h
      · obtain rfl := Option.some.inj h
        exact hupdate v _ rfl (by simp)
      · cases h
    case h_4 =>
      obtain rfl := Option.some.inj h
      refine hupdate v _ rfl fun heq => ?_
      split at heq
      · cases heq
      · next hfalse => exact Bool.not_eq_true _ ▸ hfalse
    case h_6 =>
      split at h
      · obtain rfl := Option.some.inj h
        exact hupdate v _ rfl (by simp)
      · obtain ⟨op, -, h⟩ := Option.map_eq_some_iff.mp h
        split at h
        all_goals
          subst h
          exact hupdate v _ rfl (by simp)
    case h_8 =>
      obtain rfl := Option.some.inj h
      refine hupdate v _ rfl fun heq => ?_
      split at heq <;> cases heq
    case h_9 =>
      split at h
      · obtain rfl := Option.some.inj h
        exact hsame rfl
      · obtain ⟨op, -, rfl⟩ := Option.map_eq_some_iff.mp h
        exact hupdate v _ rfl (by simp)
    case h_10 | h_11 =>
      split at h
      all_goals
        obtain rfl := Option.some.inj h
        exact hupdate v _ rfl (by simp)
    case h_14 | h_15 | h_16 | h_17 => cases h
    all_goals
      obtain rfl := Option.some.inj h
      exact hupdate v _ rfl (by simp)
  | client c => exact hsame (by rw [(clientMove_of_step (c := c) h rfl).toLedger])
  | wait c | fini c | wake c =>
    obtain ⟨-, hs'⟩ := Option.ite_none_right_eq_some.mp h
    obtain rfl := Option.some.inj hs'
    exact hsame rfl

section Joins

variable {c : C} {l : List W} {groups : List G}

omit [Fintype G] [Fintype W] [Fintype C] [Fintype S] in
/-- Nobody else moves a client that joins workers. -/
theorem client_of_finiJoin {a : Action G W C S} (h : step tm s a = some s')
    (hpc : s.client c = .finiJoin l groups) (ha : a ≠ .client c) :
    s'.client c = .finiJoin l groups := by
  rcases clients_of_step h with hsame | ⟨v, pick, -, -, rfl⟩ | ⟨d, hact, hmove⟩
  · rw [hsame.client, hpc]
  · show (if s.client c = .blocked then ClientPc.relock else s.client c) = _
    rw [hpc]
    simp
  · by_cases hd : c = d
    · subst hd
      cases a with
      | client c' =>
        obtain rfl : c' = c := hact
        exact absurd rfl ha
      | wait c' | fini c' =>
        obtain rfl : c' = c := hact
        obtain ⟨hmay, -⟩ := Option.ite_none_right_eq_some.mp h
        exact absurd (hpc.symm.trans hmay.1) (by simp)
      | wake c' =>
        obtain rfl : c' = c := hact
        obtain ⟨hblocked, -⟩ := Option.ite_none_right_eq_some.mp h
        exact absurd (hpc.symm.trans hblocked) (by simp)
      | _ => exact hact.elim
    · rw [(hmove.other c hd).1, hpc]

end Joins

/-- **Shutdown.** -/
theorem shutsDown_of_released {c : C} {groups : List G} {s₁ : State G W C S}
    (h : Released tm c g groups s₁) : ShutsDown tm c g groups s₁ := by
  obtain ⟨s₀, hs₀, hpc, hrelease⟩ := h
  have hstep₁ : (system tm C S).step s₀ (.client c) = some s₁ := hrelease
  have hs₁ : (system tm C S).Reachable s₁ := .next hs₀ trivial hstep₁
  obtain ⟨hD₁, hjoin⟩ := shutDown_release (stored_of_reaches hs₀ c) hpc hrelease
  have hpath : ∀ trace s, (system tm C S).Path (fun _ _ => True) s₁ trace s → ShutDown tm g s :=
    fun trace s p => p.invariant (I := fun _ s => ShutDown tm g s) hD₁
      fun _ _ _ _ hD _ hstep => shutDown_step hD hstep
  refine ⟨fun trace s p => (hpath trace s p).permits, fun trace s p w hw hne =>
    enabled_of_shutDown (p.reachable hs₁) (hpath trace s p) ((tm.mem_workers g w).mp hw) hne, ?_⟩
  rintro r hr hfair hclient ⟨n₀, hquiet⟩
  have hreach : ∀ n, (system tm C S).Reachable (r.state n) := r.reachable (hr ▸ hs₁)
  have hD : ∀ n, ShutDown tm g (r.state n) := fun n =>
    r.invariant_from (I := ShutDown tm g) (hr ▸ hD₁) (fun m _ hD => shutDown_step hD (r.step m))
      (Nat.zero_le n)
  have hdescends : ∀ n, n₀ ≤ n →
      Descends tm g (r.state n).toLedger (r.state (n + 1)).toLedger := by
    intro n hn
    refine (effect_step (r.step n)).descends ?_ fun w hw hcheck hunpark => ?_
    · rw [hquiet (n + 1) (by omega), hquiet n hn]
    · rcases unpark_of_step (r.step n) hunpark with heq | hfalse
      · exact absurd (hcheck.symm.trans heq) (by simp)
      · exact absurd (((hD n).canTerminate w hw).symm.trans hfalse) (by simp)
  -- the workers of the group come to rest
  obtain ⟨n₁, -, hrest⟩ := r.exists_forall_not_lex
    (P := fun s a => ∃ w, tm.group w = g ∧ Moves w s a)
    (fun s => s.toLedger.total work) (fun s => s.toLedger.ranks tm g)
    (fun n hn => (hdescends n hn).imp_right fun ⟨hwork, hcases⟩ => ⟨hwork, hcases.elim Nat.le_of_lt
      fun hsame => (Finset.sum_congr rfl fun w _ => by
        split
        · next hw => rw [(hsame w hw).1, (hsame w hw).2]
        · rfl).le⟩)
    (fun n hn ⟨w, hw, hmoves⟩ => (hdescends n hn).imp_right fun ⟨hwork, hcases⟩ =>
      ⟨hwork, hcases.resolve_right fun hsame => ne_of_moves (r.step n) hmoves (hsame w hw)⟩)
  have hexited : ∀ w ∈ tm.workers g, ∃ N, ∀ m, N ≤ m → (r.state m).worker w = .exited := by
    intro w hw
    have hg : tm.group w = g := (tm.mem_workers g w).mp hw
    obtain ⟨N, hN⟩ := (hfair w hw).disabled fun m hm hmoves => hrest m hm ⟨w, hg, hmoves⟩
    refine ⟨N, fun m hm => ?_⟩
    by_contra hne
    exact hN m hm (enabled_of_shutDown (hreach m) (hD m) hg hne)
  refine ⟨?_, ?_⟩
  · obtain ⟨N, hN⟩ := r.eventually_all (D := fun w s => s.worker w = .exited) hexited
    exact ⟨N, hN N le_rfl⟩
  · have hmove : ∀ n w l, (r.state n).client c = .finiJoin (w :: l) groups →
        r.action n = .client c → (r.state (n + 1)).client c = .finiJoin l groups := by
      intro n w l hJ ha
      have hstep := r.step n
      rw [ha] at hstep
      change (r.state n).clientStep tm c = _ at hstep
      rw [State.clientStep, hJ] at hstep
      obtain ⟨-, hs'⟩ := Option.ite_none_right_eq_some.mp hstep
      rw [← Option.some.inj hs']
      exact Function.update_self ..
    have henabled : ∀ n w l, (r.state n).client c = .finiJoin (w :: l) groups →
        (r.state n).worker w = .exited →
          (system tm C S).Enabled (fun _ a => a = .client c) (r.state n) := by
      intro n w l hJ hw
      refine TransitionSystem.enabled_of_isSome (a := .client c) rfl ?_
      show ((r.state n).clientStep tm c).isSome
      simp [State.clientStep, hJ, hw]
    obtain ⟨m, -, hend⟩ := TransitionSystem.Run.joined hclient
      (J := fun l s => s.client c = .finiJoin l groups) (D := fun w s => s.worker w = .exited)
      (fun n l hJ ha => client_of_finiJoin (r.step n) hJ ha) hmove henabled (n := 0) (hr ▸ hjoin)
      hexited
    exact ⟨m, hend⟩

end TaskManager
end ThreadUtils
