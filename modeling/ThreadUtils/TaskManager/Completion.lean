import ThreadUtils.TaskManager.Clients
import ThreadUtils.TaskManager.Invariant

/-!
# Completion is sound

When `operation_counter` is `0` nothing is owed, so every place of the manager is empty
but for pushes that are not counted yet.  Those have not returned: a client pushes the
operation it was called for, and a worker that pushes still owes the operation that
runs on it.  Hence every operation whose push has returned was executed
(`executed_of_counter_eq_zero`), and a client that leaves `tu_tm_wait_completion` has
read the `0` after it had seen those operations return.

## An instant in the past

The client returns some time after it has read the `0`, and by then there may be new operations.  So
the promise is about the operations that had returned when the client began to evaluate its
predicate for the last time.  They are recorded at that instant (`seen`), they were executed when
the counter was read as `0`, and what is executed stays executed (`Witnessed`).

The counter is read without a lock, and it is one number for all groups.  It need not be `0`
for longer than an instant; what makes the instant enough is that the counter is raised before an
operation can be popped and lowered after it has returned, so it is never too small.
-/

namespace ThreadUtils
namespace TaskManager

variable {G W C S : Type*}

/-! ## A counter of zero -/

theorem WorkerPc.cacheBudget_le_owed (pc : WorkerPc S) : pc.cacheBudget ≤ pc.owed := by
  cases pc <;> simp [WorkerPc.cacheBudget, WorkerPc.owed]

section Zero

variable [Fintype G] [Fintype W] [Fintype C] [Fintype S] {L : Ledger G W C S}

/-- A worker that owes nothing has a cache that is empty, and nothing runs on it. -/
theorem Inv.idle_of_owed (hI : Inv L) {w : W} (h : (L.worker w).owed = 0) :
    L.cache w = [] ∧ (L.worker w).running = none ∧ (L.worker w).inHand = none := by
  have hbudget := (L.worker w).cacheBudget_le_owed
  refine ⟨?_, ?_, ?_⟩
  · by_contra hne
    have := hI.caches.budget w hne
    omega
  · by_contra hne
    have := hI.caches.budget_of_running (Option.ne_none_iff_isSome.mp hne)
    omega
  · cases hpc : L.worker w with
    | exec p op => exact absurd h (by simp [hpc, WorkerPc.owed])
    | statePush p op x => exact absurd h (by simp [hpc, WorkerPc.owed])
    | stateExec p x n op => exact absurd h (by simp [hpc, WorkerPc.owed])
    | cacheExec p op =>
      have hp := hI.caches.cacheExec w p op hpc
      rw [hpc] at h
      have h : p = 0 := h
      omega
    | _ => rfl

/-- **A counter of `0` means that every push that returned was executed.** -/
theorem executed_of_counter_eq_zero (hI : Inv L) (h0 : L.operationCounter = 0) {u : ℕ}
    (hu : u ∈ L.returned) : L.executed.count u = 1 := by
  have htotal : L.total owed = 0 := by
    have h := hI.counter
    omega
  obtain ⟨ht, hq, hx, hw, -⟩ := (total_eq_zero_iff owed).mp htotal
  have hzero : L.total (placeOf u) = 0 := by
    refine (total_eq_zero_iff _).mpr ⟨fun t => ?_, fun g => ?_, fun x => ?_, fun w => ?_,
      fun w => ?_⟩
    · cases hpc : L.push t with
      | none => rfl
      | some pc =>
        cases pc with
        | count g op call =>
          cases t with
          | inl w =>
            have hrun := hI.pushing w (by rw [hpc]; exact Option.some_ne_none _)
            rw [(hI.idle_of_owed (hw w)).2.1] at hrun
            exact absurd hrun (by simp)
          | inr c =>
            have hcall := hI.calls.own c g op call hpc
            have hret := hI.calls.not_returned _ _ hpc
            refine if_neg ?_
            rintro rfl
            rw [hcall] at hu
            exact hret hu
        | enqueue g op call =>
          have h := ht t
          rw [hpc] at h
          exact absurd h (by simp [Weights.pushing, owed])
        | complete g call => rfl
        | release g call => rfl
    · have h := hq g
      rw [owed, weigh_one, List.length_eq_zero_iff] at h
      rw [h, weigh_nil]
    · have h := hx x
      rw [owed, weigh_one, List.length_eq_zero_iff] at h
      rw [h, weigh_nil]
    · show ((L.worker w).inHand.map (Operation.mark u)).getD 0 = 0
      rw [(hI.idle_of_owed (hw w)).2.2]
      rfl
    · rw [(hI.idle_of_owed (hw w)).1, weigh_nil]
  have hplaced := hI.placed u
  rw [hzero, if_pos (hI.calls.returned_lt u hu), Nat.zero_add] at hplaced
  exact hplaced

theorem Inv.executed_le (hI : Inv L) (u : ℕ) : L.executed.count u ≤ 1 := by
  have h := hI.placed u
  split at h <;> omega

/-- An operation that runs is in the hands of a worker. -/
theorem total_runningOf_le (u : ℕ) : L.total (runningOf u) ≤ L.total (placeOf u) := by
  refine total_le_total (fun p => ?_) (fun l => ?_) (fun x l => ?_) (fun pc => ?_) fun l => ?_
  · cases p <;> exact Nat.zero_le _
  · rw [runningOf, weigh_zero]
    exact Nat.zero_le _
  · rw [runningOf, weigh_zero]
    exact Nat.zero_le _
  · cases pc with
    | statePush p op x => exact Nat.zero_le _
    | _ => exact le_rfl
  · rw [runningOf, weigh_zero]
    exact Nat.zero_le _

theorem Inv.started_le (hI : Inv L) (u : ℕ) : L.started.count u ≤ 1 := by
  have h := hI.placed u
  have h' := hI.started u
  have hle := total_runningOf_le (L := L) u
  split at h <;> omega

end Zero

/-! ## The waiting clients -/

section Waiting

variable [DecidableEq G] [DecidableEq W] [DecidableEq C] [DecidableEq S]
variable {tm : Groups G W} {s s' : State G W C S}

/-- The history only grows. -/
theorem Effect.grows {L L' : Ledger G W C S} (h : Effect L L') :
    L.returned ⊆ L'.returned ∧ ∀ u, L.executed.count u ≤ L'.executed.count u := by
  cases h with
  | cached w hpush hrun => exact ⟨Finset.subset_insert _ _, fun _ => le_rfl⟩
  | release t g call hpc => exact ⟨Finset.subset_insert _ _, fun _ => le_rfl⟩
  | execReturn w op hrun hpush =>
    refine ⟨Finset.Subset.refl _, fun u => ?_⟩
    rw [List.count_append]
    exact Nat.le_add_right _ _
  | _ => exact ⟨Finset.Subset.refl _, fun _ => le_rfl⟩

variable [Fintype G] [Fintype W] [Fintype C] [Fintype S]

/-- What a client has seen had returned, and was executed when the client leaves. -/
def Witnessed (s : State G W C S) (c : C) : Prop :=
  s.seen c ⊆ s.returned ∧
    (s.client c = .waitReturn → ∀ u ∈ s.seen c, s.executed.count u = 1)

omit [DecidableEq G] [DecidableEq W] [DecidableEq C] [DecidableEq S] [Fintype G] [Fintype W]
  [Fintype C] [Fintype S] in
/-- A client that a step leaves alone, or only wakes. -/
theorem Witnessed.of_grows {c : C} (hw : Witnessed s c) (hseen : s'.seen c = s.seen c)
    (hclient : s'.client c = .waitReturn → s.client c = .waitReturn)
    (hret : s.returned ⊆ s'.returned) (hex : ∀ u, s.executed.count u ≤ s'.executed.count u)
    (hle : ∀ u, s'.executed.count u ≤ 1) : Witnessed s' c := by
  refine ⟨?_, fun hc u hu => ?_⟩
  · rw [hseen]
    exact hw.1.trans hret
  · rw [hseen] at hu
    have hold := hw.2 (hclient hc) u hu
    have hgrow := hex u
    have hone := hle u
    omega

theorem witnessed_step {a : Action G W C S} (hI : Inv s.toLedger) (h : step tm s a = some s')
    (hw : ∀ c, Witnessed s c) (c : C) : Witnessed s' c := by
  have hgrows := (effect_step h).grows
  have hI' := (effect_step h).inv hI
  rcases clients_of_step h with hsame | ⟨w, pick, -, -, rfl⟩ | ⟨d, -, hmove⟩
  · exact (hw c).of_grows (by rw [hsame.seen]) (by rw [hsame.client]; exact id) hgrows.1 hgrows.2
      hI'.executed_le
  · refine (hw c).of_grows rfl (fun hc => ?_) hgrows.1 hgrows.2 hI'.executed_le
    change (if s.client c = .blocked then .relock else s.client c) = .waitReturn at hc
    split at hc
    · cases hc
    · exact hc
  · by_cases hcd : c = d
    · subst hcd
      have hled := hmove.toLedger
      rcases hmove.seen with hseen | ⟨hseen, hnew⟩
      · rw [Witnessed, hseen, hled]
        refine ⟨(hw c).1, fun hc u hu => ?_⟩
        exact executed_of_counter_eq_zero hI (hmove.waitReturn hc) ((hw c).1 hu)
      · rw [Witnessed, hseen, hled, hnew]
        exact ⟨Finset.Subset.refl _, fun hc => absurd hc (by simp)⟩
    · obtain ⟨hclient, hseen⟩ := hmove.other c hcd
      exact (hw c).of_grows hseen (by rw [hclient]; exact id) hgrows.1 hgrows.2 hI'.executed_le

theorem witnessed_of_reachable (hs : (system tm C S).Reachable s) : ∀ c, Witnessed s c := by
  refine hs.invariant (I := fun s => ∀ c, Witnessed s c) ?_ fun s a s' hr hw _ h =>
    witnessed_step (inv_of_reaches hr) h hw
  rintro s rfl c
  exact ⟨Finset.Subset.refl _, fun hc => absurd hc (by simp [initial])⟩

end Waiting

/-! ## The theorem -/

/-- What completion promises. -/
structure CompletionSound (s : State G W C S) : Prop where
  counter_nonneg : 0 ≤ s.operationCounter
  /-- No operation is executed twice: no execution begins twice or ends twice. -/
  at_most_once : ∀ u, s.started.count u ≤ 1 ∧ s.executed.count u ≤ 1
  /-- When the counter is `0`, every operation whose push has returned was executed. -/
  complete : s.operationCounter = 0 → ∀ u ∈ s.returned, s.executed.count u = 1
  /-- A client that leaves `tu_tm_wait_completion` has been waiting for all operations
  whose push had returned before it evaluated the predicate for the last time. -/
  waited : ∀ c, s.client c = .waitReturn → ∀ u ∈ s.seen c, s.executed.count u = 1

section Main

variable [DecidableEq G] [DecidableEq W] [DecidableEq C] [DecidableEq S]
variable [Fintype G] [Fintype W] [Fintype C] [Fintype S]

/-- **Completion is sound** for any groups, workers, clients and states, any operations
and any interleaving. -/
theorem completionSound_of_reachable (tm : Groups G W) (s : State G W C S)
    (hs : (system tm C S).Reachable s) : CompletionSound s := by
  have hI := inv_of_reaches hs
  refine ⟨?_, fun u => ⟨hI.started_le u, hI.executed_le u⟩,
    fun h0 u hu => executed_of_counter_eq_zero hI h0 hu,
    fun c hc => (witnessed_of_reachable hs c).2 hc⟩
  rw [hI.counter]
  exact Int.natCast_nonneg _

end Main

/-- A task manager with one group of one worker. -/
def oneWorker : Groups Unit Unit where
  groups := [()]
  workers := fun _ => [()]
  group := id
  mem_groups := mem_unit
  mem_workers := by decide
  nodup_workers := by decide

/-- A client pushes a task that caches another one, and waits; the single worker
executes both. -/
def cachedTask : List (Action Unit Unit Unit Unit) :=
  [.push (.inr ()) () none, .pushing (.inr ()), .pushing (.inr ()), .pushing (.inr ()),
    .pushing (.inr ()), .worker () none, .worker () none, .worker () none, .worker () none,
    .worker () none, .worker () (some 0), .pushTask () (), .execReturn (), .worker () none,
    .wait (), .client (), .execReturn (), .worker () none, .worker () none, .worker () none,
    .worker () none, .worker () none, .client (), .client ()]

theorem completionSound_cachedTask :
    let s := (system oneWorker Unit Unit).replay initial cachedTask
    s.client () = .waitReturn ∧ s.seen () = {0, 1} ∧ CompletionSound s := by
  exact ⟨by decide, by decide, completionSound_of_reachable oneWorker _
    (TransitionSystem.Reachable.replay (.start rfl) cachedTask (by decide))⟩

end TaskManager
end ThreadUtils
