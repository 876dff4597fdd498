import ThreadUtils.TaskManager.Ledger

/-!
# What the counter counts

The counter of the manager is explained by a total: every operation that was counted is
in a queue of a group, in a queue of a state or on a worker, and a worker owes what it
has processed and not subtracted (`owed`).  A second total finds every operation: from
the call that issues it until it was executed it is in exactly one place (`placeOf`).

## The two totals

A worker subtracts from the counter once for a whole round of its drain loop.  So the counter is
not the number of operations that are left, and no statement about the queues alone is preserved:
an operation that was executed long ago may still be counted.  The weight `owed` of a worker is the
local variable with which it will subtract, together with the operation in its hand, and the sum of
the weights is the counter, exactly and at every access.

The other total is taken for one operation at a time.  Each place contributes the number of times
the operation is there, so `Inv.placed` says at once that no operation is lost, that none is in two
places, and that none is executed twice.

## The caches

Cached operations are not counted.  They are safe all the same: a worker with a
non-empty cache still owes the operation during which it filled the cache
(`Inv.cache`), so the counter is not `0` while a cache holds anything.  For the same
reason a counter of `0` leaves no operation that was driven out of a cache and not
counted again.

The invariant is proved along `Effect`, the list of what a step may do to the ledger, one lemma for
each of its parts: `Effect.counter`, `Effect.placed`, `Effect.started`, `Effect.caches` and
`Effect.calls`.  The modules on the completion, on states and on the shutdown start from
`inv_of_reaches`, which asks nothing of the steps.
-/

namespace ThreadUtils
namespace TaskManager

variable {G W C S : Type*}

/-! ## The weights -/

/-- What a worker will subtract from the counter for the operations it has taken from
the queue of its group, or from the queue of a state. -/
def WorkerPc.owed : WorkerPc S → ℕ
  | .pop p | .stateAdd p _ | .cachePop p | .cacheExec p _ | .sub p => p
  | .exec p _ | .statePush p _ _ => p + 1
  | .statePop p _ n | .stateSub p _ n => p + n
  | .stateExec p _ n _ => p + n + 1
  | _ => 0

/-- The operations that were counted. -/
def owed : Weights G S where
  push
    | .enqueue _ _ _ => 1
    | _ => 0
  queued _ := 1
  stateQueued _ _ := 1
  worker := WorkerPc.owed
  cached _ := 0

/-- `1` for the operation `u`. -/
def Operation.mark (u : ℕ) (op : Operation S) : ℕ :=
  if op.uid = u then 1 else 0

/-- The operation a worker has in hand. -/
def WorkerPc.inHand : WorkerPc S → Option (Operation S)
  | .exec _ op | .statePush _ op _ | .stateExec _ _ _ op | .cacheExec _ op => some op
  | _ => none

/-- The places where the operation `u` is. -/
def placeOf (u : ℕ) : Weights G S where
  push
    | .count _ op _ | .enqueue _ op _ => op.mark u
    | _ => 0
  queued := Operation.mark u
  stateQueued _ := Operation.mark u
  worker pc := (pc.inHand.map (Operation.mark u)).getD 0
  cached := Operation.mark u

/-- The workers on which the operation `u` runs. -/
def runningOf (u : ℕ) : Weights G S where
  push _ := 0
  queued _ := 0
  stateQueued _ _ := 0
  worker pc := (pc.running.map (Operation.mark u)).getD 0
  cached _ := 0

/-- What a worker owes in those parts of the drain loop in which its cache may be filled. -/
def WorkerPc.cacheBudget : WorkerPc S → ℕ
  | .exec p _ => p + 1
  | .statePop p _ n | .stateSub p _ n => p + n
  | .stateExec p _ n _ => p + n + 1
  | .cachePop p | .cacheExec p _ => p
  | _ => 0

/-- The push whose call a thread is in. -/
def PushPc.call : PushPc G S → ℕ
  | .count _ _ call | .enqueue _ _ call | .complete _ call | .release _ call => call

/-! ## The invariant -/

/-- The calls of the push functions: those in progress are different, were issued and
have not returned. -/
structure CallsOk (push : W ⊕ C → Option (PushPc G S)) (issued : ℕ) (returned : Finset ℕ) :
    Prop where
  returned_lt : ∀ u ∈ returned, u < issued
  call_lt : ∀ t pc, push t = some pc → pc.call < issued
  not_returned : ∀ t pc, push t = some pc → pc.call ∉ returned
  distinct : ∀ t t' pc pc', push t = some pc → push t' = some pc' → pc.call = pc'.call → t = t'
  /-- A client pushes the operation that it was called for. -/
  own : ∀ c g op call, push (.inr c) = some (.count g op call) → op.uid = call

/-- The caches: a worker whose cache is filled owes an operation. -/
structure CachesOk (worker : W → WorkerPc S) (cache : W → List (Operation S)) : Prop where
  budget : ∀ w, cache w ≠ [] → 1 ≤ (worker w).cacheBudget
  cacheExec : ∀ w p op, worker w = .cacheExec p op → 1 ≤ p

/-- The invariant of the ledger. -/
structure Inv [Fintype G] [Fintype W] [Fintype C] [Fintype S] (L : Ledger G W C S) : Prop where
  /-- `operation_counter` is what was counted and not subtracted. -/
  counter : L.operationCounter = L.total owed
  /-- An issued operation is in exactly one place or was executed once. -/
  placed : ∀ u, L.total (placeOf u) + L.executed.count u = if u < L.issued then 1 else 0
  started : ∀ u, L.started.count u = L.executed.count u + L.total (runningOf u)
  caches : CachesOk L.worker L.cache
  /-- A worker pushes only while an operation runs on it. -/
  pushing : ∀ w, L.push (.inl w) ≠ none → (L.worker w).running.isSome
  calls : CallsOk L.push L.issued L.returned

theorem weigh_zero (ops : List (Operation S)) : weigh (fun _ => 0) ops = 0 := by
  induction ops with
  | nil => rfl
  | cons op ops ih => rw [weigh_cons, ih]

theorem weigh_one (ops : List (Operation S)) : weigh (fun _ => 1) ops = ops.length := by
  induction ops with
  | nil => rfl
  | cons op ops ih => rw [weigh_cons, ih, List.length_cons, Nat.add_comm]

theorem mark_issued (state : Option S) (n u : ℕ) :
    (if u < n + 1 then 1 else 0) =
      (if u < n then 1 else 0) + Operation.mark u (⟨n, state⟩ : Operation S) := by
  show _ = _ + if n = u then 1 else 0
  split <;> split <;> split <;> omega

theorem count_append_uid (l : List ℕ) (op : Operation S) (u : ℕ) :
    (l ++ [op.uid]).count u = l.count u + op.mark u := by
  rw [List.count_append, List.count_singleton, Operation.mark]
  by_cases h : op.uid = u
  · rw [if_pos h, if_pos (by simpa using h)]
  · rw [if_neg h, if_neg (by simpa using h)]

/-! ## What is preserved by every effect -/

theorem LocalMove.owed_eq {q q' : WorkerPc S} (h : LocalMove q q') : q'.owed = q.owed := by
  cases h <;> rfl

theorem LocalMove.inHand_eq {q q' : WorkerPc S} (h : LocalMove q q') : q'.inHand = q.inHand := by
  cases h <;> rfl

theorem LocalMove.running_eq {q q' : WorkerPc S} (h : LocalMove q q') :
    q'.running = q.running := by
  cases h <;> rfl

theorem LocalMove.cacheBudget_eq {q q' : WorkerPc S} (h : LocalMove q q') :
    q'.cacheBudget = q.cacheBudget := by
  cases h <;> rfl

theorem LocalMove.ne_cacheExec {q q' : WorkerPc S} (h : LocalMove q q') (p : ℕ)
    (op : Operation S) : q' ≠ .cacheExec p op := by
  cases h <;> simp

theorem LocalMove.not_running {q q' : WorkerPc S} (h : LocalMove q q') : q.running = none := by
  cases h <;> rfl

theorem owed_afterExec {q : WorkerPc S} {op : Operation S} (h : q.running = some op) :
    q.afterExec.owed = q.owed := by
  cases q with
  | exec p op => rfl
  | stateExec p x n op => rfl
  | cacheExec p op => rfl
  | _ => exact absurd h (by simp [WorkerPc.running])

theorem inHand_of_running {q : WorkerPc S} {op : Operation S} (h : q.running = some op) :
    q.inHand = some op ∧ q.afterExec.inHand = none ∧ q.afterExec.running = none := by
  cases q with
  | exec p op => exact ⟨h, rfl, rfl⟩
  | stateExec p x n op => exact ⟨h, rfl, rfl⟩
  | cacheExec p op => exact ⟨h, rfl, rfl⟩
  | _ => exact absurd h (by simp [WorkerPc.running])

section Effects

variable [Fintype G] [Fintype W] [Fintype C] [Fintype S] {L L' : Ledger G W C S}

theorem counter_exchange {old new : ℕ} (hL : L.operationCounter = L.total owed)
    (h : L'.total owed + old = L.total owed + new)
    (hn : L'.operationCounter + old = L.operationCounter + new) :
    L'.operationCounter = L'.total owed := by
  omega

theorem placed_exchange {u old new : ℕ}
    (hL : L.total (placeOf u) + L.executed.count u = if u < L.issued then 1 else 0)
    (h : L'.total (placeOf u) + old = L.total (placeOf u) + new)
    (hn : L'.executed.count u + new + (if u < L.issued then 1 else 0) =
      L.executed.count u + old + (if u < L'.issued then 1 else 0)) :
    L'.total (placeOf u) + L'.executed.count u = if u < L'.issued then 1 else 0 := by
  omega

/-- A new operation comes into the hand of the thread that pushes it. -/
theorem placed_issue {u old new : ℕ} (state : Option S)
    (hL : L.total (placeOf u) + L.executed.count u = if u < L.issued then 1 else 0)
    (h : L'.total (placeOf u) + old = L.total (placeOf u) + new)
    (hissued : L'.issued = L.issued + 1) (hexecuted : L'.executed = L.executed)
    (hn : new = old + Operation.mark u (⟨L.issued, state⟩ : Operation S)) :
    L'.total (placeOf u) + L'.executed.count u = if u < L'.issued then 1 else 0 := by
  have hu := mark_issued state L.issued u
  rw [hissued, hexecuted]
  omega

theorem started_exchange {u old new : ℕ}
    (hL : L.started.count u = L.executed.count u + L.total (runningOf u))
    (h : L'.total (runningOf u) + old = L.total (runningOf u) + new)
    (hn : L'.started.count u + (old + L.executed.count u) =
      L.started.count u + (new + L'.executed.count u)) :
    L'.started.count u = L'.executed.count u + L'.total (runningOf u) := by
  omega

variable [DecidableEq G] [DecidableEq W] [DecidableEq C] [DecidableEq S]

/-- The counter is explained after every step. -/
theorem Effect.counter (h : Effect L L') (hL : L.operationCounter = L.total owed) :
    L'.operationCounter = L'.total owed := by
  cases h with
  | same => exact hL
  | pushOp t g state hpush hrun =>
    exact counter_exchange hL (total_push L owed)
      (by simp [hpush, owed, Weights.pushing])
  | cached w hpush hrun =>
    exact counter_exchange hL (total_cache L owed) (by simp [owed, weigh_zero])
  | evicted w g old rest hpush hrun hcache =>
    exact counter_exchange hL (total_push_cache L owed)
      (by simp [hpush, owed, Weights.pushing, weigh_zero])
  | count t g op call hpc =>
    exact counter_exchange hL (total_push L owed)
      (by simp [hpc, owed, Weights.pushing])
  | enqueue t g op call hpc =>
    exact counter_exchange hL (total_push_queue L owed)
      (by simp [hpc, owed, Weights.pushing]; omega)
  | complete t g call hpc =>
    exact counter_exchange hL (total_push L owed)
      (by simp [hpc, owed, Weights.pushing])
  | release t g call hpc =>
    exact counter_exchange hL (total_push L owed)
      (by simp [hpc, owed, Weights.pushing])
  | execReturn w op hrun hpush =>
    exact counter_exchange hL (total_worker L owed)
      (by simp [owed, owed_afterExec hrun])
  | move w q hmove =>
    exact counter_exchange hL (total_worker L owed)
      (by simp [owed, hmove.owed_eq])
  | popTask w g k p op hpc hop hstate =>
    have hq := weigh_eraseIdx (fun _ => 1) hop
    exact counter_exchange hL (total_worker_queue L owed)
      (by simp [hpc, owed, WorkerPc.owed]; omega)
  | popState w g k p op x hpc hop hstate =>
    have hq := weigh_eraseIdx (fun _ => 1) hop
    exact counter_exchange hL (total_worker_queue L owed)
      (by simp [hpc, owed, WorkerPc.owed]; omega)
  | statePush w p op x hpc =>
    exact counter_exchange hL (total_worker_stateQueue L owed)
      (by simp [hpc, owed, WorkerPc.owed]; omega)
  | stateAdd w p x hpc =>
    exact counter_exchange hL (total_worker L owed)
      (by simp [hpc, owed]; split <;> simp [WorkerPc.owed])
  | statePop w k p x n op hpc hop =>
    have hq := weigh_eraseIdx (fun _ => 1) hop
    exact counter_exchange hL (total_worker_stateQueue L owed)
      (by simp [hpc, owed, WorkerPc.owed]; omega)
  | stateLeave w p x n hpc hone =>
    exact counter_exchange hL (total_worker L owed)
      (by simp [hpc, owed, WorkerPc.owed])
  | stateKeep w p x n hpc hone =>
    exact counter_exchange hL (total_worker L owed)
      (by simp [hpc, owed, WorkerPc.owed])
  | cacheEmpty w p hpc hcache =>
    exact counter_exchange hL (total_worker L owed)
      (by simp [hpc, owed, WorkerPc.owed])
  | cachePop w p op hpc hlast =>
    exact counter_exchange hL (total_worker_cache L owed)
      (by simp [hpc, owed, WorkerPc.owed, weigh_zero])
  | sub w p hpc =>
    exact counter_exchange hL (total_worker L owed)
      (by simp [hpc, owed, WorkerPc.owed])

/-- Every operation is accounted for after every step. -/
theorem Effect.placed (h : Effect L L') (u : ℕ)
    (hL : L.total (placeOf u) + L.executed.count u = if u < L.issued then 1 else 0) :
    L'.total (placeOf u) + L'.executed.count u = if u < L'.issued then 1 else 0 := by
  cases h with
  | same => exact hL
  | pushOp t g state hpush hrun =>
    exact placed_issue state hL (total_push L (placeOf u)) rfl rfl
      (by simp [hpush, placeOf, Weights.pushing])
  | cached w hpush hrun =>
    exact placed_issue none hL (total_cache L (placeOf u)) rfl rfl
      (by simp [placeOf])
  | evicted w g old rest hpush hrun hcache =>
    exact placed_issue none hL (total_push_cache L (placeOf u)) rfl rfl
      (by simp [hpush, hcache, placeOf, Weights.pushing]; omega)
  | count t g op call hpc =>
    exact placed_exchange hL (total_push L (placeOf u))
      (by simp [hpc, placeOf, Weights.pushing])
  | enqueue t g op call hpc =>
    exact placed_exchange hL (total_push_queue L (placeOf u))
      (by simp [hpc, placeOf, Weights.pushing]; omega)
  | complete t g call hpc =>
    exact placed_exchange hL (total_push L (placeOf u))
      (by simp [hpc, placeOf, Weights.pushing])
  | release t g call hpc =>
    exact placed_exchange hL (total_push L (placeOf u))
      (by simp [hpc, placeOf, Weights.pushing])
  | execReturn w op hrun hpush =>
    obtain ⟨hold, hnew, -⟩ := inHand_of_running hrun
    have hcount := count_append_uid L.executed op u
    exact placed_exchange hL (total_worker L (placeOf u))
      (by simp only [placeOf, hold, hnew, Option.map_some, Option.map_none, Option.getD]; omega)
  | move w q hmove =>
    exact placed_exchange hL (total_worker L (placeOf u))
      (by simp [placeOf, hmove.inHand_eq])
  | popTask w g k p op hpc hop hstate =>
    have hq := weigh_eraseIdx (Operation.mark u) hop
    exact placed_exchange hL (total_worker_queue L (placeOf u))
      (by simp [hpc, placeOf, WorkerPc.inHand]; omega)
  | popState w g k p op x hpc hop hstate =>
    have hq := weigh_eraseIdx (Operation.mark u) hop
    exact placed_exchange hL (total_worker_queue L (placeOf u))
      (by simp [hpc, placeOf, WorkerPc.inHand]; omega)
  | statePush w p op x hpc =>
    exact placed_exchange hL (total_worker_stateQueue L (placeOf u))
      (by simp [hpc, placeOf, WorkerPc.inHand]; omega)
  | stateAdd w p x hpc =>
    exact placed_exchange hL (total_worker L (placeOf u))
      (by simp [hpc, placeOf]; split <;> simp [WorkerPc.inHand])
  | statePop w k p x n op hpc hop =>
    have hq := weigh_eraseIdx (Operation.mark u) hop
    exact placed_exchange hL (total_worker_stateQueue L (placeOf u))
      (by simp [hpc, placeOf, WorkerPc.inHand]; omega)
  | stateLeave w p x n hpc hone =>
    exact placed_exchange hL (total_worker L (placeOf u))
      (by simp [hpc, placeOf, WorkerPc.inHand])
  | stateKeep w p x n hpc hone =>
    exact placed_exchange hL (total_worker L (placeOf u))
      (by simp [hpc, placeOf, WorkerPc.inHand])
  | cacheEmpty w p hpc hcache =>
    exact placed_exchange hL (total_worker L (placeOf u))
      (by simp [hpc, placeOf, WorkerPc.inHand])
  | cachePop w p op hpc hlast =>
    have hq := weigh_dropLast (Operation.mark u) hlast
    exact placed_exchange hL (total_worker_cache L (placeOf u))
      (by simp [hpc, placeOf, WorkerPc.inHand]; omega)
  | sub w p hpc =>
    exact placed_exchange hL (total_worker L (placeOf u))
      (by simp [hpc, placeOf, WorkerPc.inHand])

/-- An execution that began is going on or has ended. -/
theorem Effect.started (h : Effect L L') (u : ℕ)
    (hL : L.started.count u = L.executed.count u + L.total (runningOf u)) :
    L'.started.count u = L'.executed.count u + L'.total (runningOf u) := by
  cases h with
  | same => exact hL
  | pushOp t g state hpush hrun =>
    exact started_exchange hL (total_push L (runningOf u))
      (by simp [hpush, runningOf, Weights.pushing])
  | cached w hpush hrun =>
    exact started_exchange hL (total_cache L (runningOf u))
      (by simp [runningOf, weigh_zero])
  | evicted w g old rest hpush hrun hcache =>
    exact started_exchange hL (total_push_cache L (runningOf u))
      (by simp [hpush, runningOf, Weights.pushing, weigh_zero])
  | count t g op call hpc =>
    exact started_exchange hL (total_push L (runningOf u))
      (by simp [hpc, runningOf, Weights.pushing])
  | enqueue t g op call hpc =>
    exact started_exchange hL (total_push_queue L (runningOf u))
      (by simp [hpc, runningOf, Weights.pushing])
  | complete t g call hpc =>
    exact started_exchange hL (total_push L (runningOf u))
      (by simp [hpc, runningOf, Weights.pushing])
  | release t g call hpc =>
    exact started_exchange hL (total_push L (runningOf u))
      (by simp [hpc, runningOf, Weights.pushing])
  | execReturn w op hrun hpush =>
    obtain ⟨-, -, hnew⟩ := inHand_of_running hrun
    have hcount := count_append_uid L.executed op u
    exact started_exchange hL (total_worker L (runningOf u))
      (by simp only [runningOf, hrun, hnew, Option.map_some, Option.map_none, Option.getD]; omega)
  | move w q hmove =>
    exact started_exchange hL (total_worker L (runningOf u))
      (by simp [runningOf, hmove.running_eq])
  | popTask w g k p op hpc hop hstate =>
    have hcount := count_append_uid L.started op u
    exact started_exchange hL (total_worker_queue L (runningOf u))
      (by simp [hpc, runningOf, WorkerPc.running, weigh_zero] at hcount ⊢; omega)
  | popState w g k p op x hpc hop hstate =>
    exact started_exchange hL (total_worker_queue L (runningOf u))
      (by simp [hpc, runningOf, WorkerPc.running, weigh_zero])
  | statePush w p op x hpc =>
    exact started_exchange hL (total_worker_stateQueue L (runningOf u))
      (by simp [hpc, runningOf, WorkerPc.running])
  | stateAdd w p x hpc =>
    exact started_exchange hL (total_worker L (runningOf u))
      (by simp [hpc, runningOf]; split <;> simp [WorkerPc.running])
  | statePop w k p x n op hpc hop =>
    have hcount := count_append_uid L.started op u
    exact started_exchange hL (total_worker_stateQueue L (runningOf u))
      (by simp [hpc, runningOf, WorkerPc.running, weigh_zero] at hcount ⊢; omega)
  | stateLeave w p x n hpc hone =>
    exact started_exchange hL (total_worker L (runningOf u))
      (by simp [hpc, runningOf, WorkerPc.running])
  | stateKeep w p x n hpc hone =>
    exact started_exchange hL (total_worker L (runningOf u))
      (by simp [hpc, runningOf, WorkerPc.running])
  | cacheEmpty w p hpc hcache =>
    exact started_exchange hL (total_worker L (runningOf u))
      (by simp [hpc, runningOf, WorkerPc.running])
  | cachePop w p op hpc hlast =>
    have hcount := count_append_uid L.started op u
    exact started_exchange hL (total_worker_cache L (runningOf u))
      (by simp [hpc, runningOf, WorkerPc.running, weigh_zero] at hcount ⊢; omega)
  | sub w p hpc =>
    exact started_exchange hL (total_worker L (runningOf u))
      (by simp [hpc, runningOf, WorkerPc.running])

end Effects

/-! ## The caches -/

section Caches

variable {worker : W → WorkerPc S} {cache : W → List (Operation S)}

/-- A running operation is owed for. -/
theorem CachesOk.budget_of_running (hC : CachesOk worker cache) {w : W}
    (hrun : (worker w).running.isSome) : 1 ≤ (worker w).cacheBudget := by
  cases hpc : worker w with
  | exec p op => exact Nat.le_add_left 1 p
  | stateExec p x n op => exact Nat.le_add_left 1 (p + n)
  | cacheExec p op => exact hC.cacheExec w p op hpc
  | _ =>
    rw [hpc] at hrun
    exact absurd hrun (by simp [WorkerPc.running])

theorem cacheBudget_afterExec {q : WorkerPc S} (hrun : q.running.isSome) :
    q.afterExec.cacheBudget = q.cacheBudget ∧ ∀ p op, q.afterExec ≠ .cacheExec p op := by
  cases q with
  | exec p op => exact ⟨rfl, by simp [WorkerPc.afterExec]⟩
  | stateExec p x n op => exact ⟨rfl, by simp [WorkerPc.afterExec]⟩
  | cacheExec p op => exact ⟨rfl, by simp [WorkerPc.afterExec]⟩
  | _ => exact absurd hrun (by simp [WorkerPc.running])

variable [DecidableEq W]

/-- A worker whose program counter changes, without a look at its cache. -/
theorem CachesOk.move (hC : CachesOk worker cache) {w : W} {q : WorkerPc S}
    (hq : 1 ≤ (worker w).cacheBudget → 1 ≤ q.cacheBudget)
    (hexec : ∀ p op, q = .cacheExec p op → 1 ≤ p) :
    CachesOk (Function.update worker w q) cache := by
  refine ⟨fun w' hw' => ?_, fun w' p op hw' => ?_⟩
  · by_cases h : w' = w
    · subst h
      rw [Function.update_self]
      exact hq (hC.budget _ hw')
    · rw [Function.update_of_ne h]
      exact hC.budget w' hw'
  · by_cases h : w' = w
    · subst h
      rw [Function.update_self] at hw'
      exact hexec p op hw'
    · rw [Function.update_of_ne h] at hw'
      exact hC.cacheExec w' p op hw'

/-- A running operation fills the cache of its worker. -/
theorem CachesOk.fill (hC : CachesOk worker cache) {w : W} (hrun : (worker w).running.isSome)
    (l : List (Operation S)) : CachesOk worker (Function.update cache w l) := by
  refine ⟨fun w' hw' => ?_, hC.cacheExec⟩
  by_cases h : w' = w
  · subst h
    exact hC.budget_of_running hrun
  · rw [Function.update_of_ne h] at hw'
    exact hC.budget w' hw'

/-- The cache of a worker gives out an element. -/
theorem CachesOk.take (hC : CachesOk worker cache) {w : W} {p : ℕ} {op : Operation S}
    (hpc : worker w = .cachePop p) (hne : cache w ≠ []) (l : List (Operation S)) :
    CachesOk (Function.update worker w (.cacheExec p op)) (Function.update cache w l) := by
  have hp : 1 ≤ p := by
    have h := hC.budget w hne
    rw [hpc] at h
    exact h
  refine ⟨fun w' hw' => ?_, fun w' p' op' hw' => ?_⟩
  · by_cases h : w' = w
    · subst h
      rw [Function.update_self]
      exact hp
    · rw [Function.update_of_ne h] at hw' ⊢
      exact hC.budget w' hw'
  · by_cases h : w' = w
    · subst h
      rw [Function.update_self] at hw'
      obtain ⟨rfl, -⟩ := WorkerPc.cacheExec.inj hw'
      exact hp
    · rw [Function.update_of_ne h] at hw'
      exact hC.cacheExec w' p' op' hw'

/-- A worker that finds its cache empty. -/
theorem CachesOk.leave (hC : CachesOk worker cache) {w : W} {p : ℕ} (hnil : cache w = []) :
    CachesOk (Function.update worker w (.pop p)) cache := by
  refine ⟨fun w' hw' => ?_, fun w' p' op' hw' => ?_⟩
  · have h : w' ≠ w := by
      rintro rfl
      exact hw' hnil
    rw [Function.update_of_ne h]
    exact hC.budget w' hw'
  · by_cases h : w' = w
    · subst h
      rw [Function.update_self] at hw'
      exact absurd hw' (by simp)
    · rw [Function.update_of_ne h] at hw'
      exact hC.cacheExec w' p' op' hw'

variable [DecidableEq G] [DecidableEq C] [DecidableEq S] {L L' : Ledger G W C S}

theorem Effect.caches (h : Effect L L') (hC : CachesOk L.worker L.cache) :
    CachesOk L'.worker L'.cache := by
  cases h with
  | same => exact hC
  | pushOp t g state hpush hrun => exact hC
  | cached w hpush hrun => exact hC.fill hrun _
  | evicted w g old rest hpush hrun hcache => exact hC.fill hrun _
  | count t g op call hpc => exact hC
  | enqueue t g op call hpc => exact hC
  | complete t g call hpc => exact hC
  | release t g call hpc => exact hC
  | execReturn w op hrun hpush =>
    obtain ⟨hbudget, hne⟩ := cacheBudget_afterExec (q := L.worker w) (by rw [hrun]; rfl)
    exact hC.move (fun h => by rw [hbudget]; exact h) fun p op h => absurd h (hne p op)
  | move w q hmove =>
    exact hC.move (fun h => by rw [hmove.cacheBudget_eq]; exact h) fun p op h =>
      absurd h (hmove.ne_cacheExec p op)
  | popTask w g k p op hpc hop hstate =>
    exact hC.move (fun _ => Nat.le_add_left 1 p) (by simp)
  | popState w g k p op x hpc hop hstate =>
    exact hC.move (fun h => by rw [hpc] at h; exact h) (by simp)
  | statePush w p op x hpc => exact hC.move (fun h => by rw [hpc] at h; exact h) (by simp)
  | stateAdd w p x hpc =>
    refine hC.move (fun h => ?_) fun p' op' h => ?_
    · rw [hpc] at h
      exact absurd h (by simp [WorkerPc.cacheBudget])
    · split at h <;> exact absurd h (by simp)
  | statePop w k p x n op hpc hop => exact hC.move (fun _ => Nat.le_add_left 1 _) (by simp)
  | stateLeave w p x n hpc hone => exact hC.move (fun h => by rw [hpc] at h; exact h) (by simp)
  | stateKeep w p x n hpc hone => exact hC.move (fun h => by rw [hpc] at h; exact h) (by simp)
  | cacheEmpty w p hpc hcache => exact hC.leave hcache
  | cachePop w p op hpc hlast =>
    refine hC.take hpc (fun hnil => ?_) _
    rw [hnil] at hlast
    exact absurd hlast (by simp)
  | sub w p hpc => exact hC.move (fun h => by rw [hpc] at h; exact h) (by simp)

end Caches

/-! ## The calls of the push functions -/

section Calls

variable {push : W ⊕ C → Option (PushPc G S)} {issued : ℕ} {returned : Finset ℕ}

/-- A worker with no running operation is in no push. -/
theorem push_eq_none_of_running {worker : W → WorkerPc S}
    (hP : ∀ w, push (.inl w) ≠ none → (worker w).running.isSome) {w : W} {pc : WorkerPc S}
    (hpc : worker w = pc) (hrun : pc.running = none) : push (.inl w) = none := by
  by_contra hne
  have h := hP w hne
  rw [hpc, hrun] at h
  exact absurd h (by simp)

/-- A worker that is in no push makes a step. -/
theorem pushing_worker [DecidableEq W] {worker : W → WorkerPc S}
    (hP : ∀ w, push (.inl w) ≠ none → (worker w).running.isSome) {w : W} {q : WorkerPc S}
    (hnone : push (.inl w) = none) :
    ∀ w', push (.inl w') ≠ none → (Function.update worker w q w').running.isSome := by
  intro w' hw'
  have h : w' ≠ w := by
    rintro rfl
    exact hw' hnone
  rw [Function.update_of_ne h]
  exact hP w' hw'

/-- A thread changes its push while an operation runs on it. -/
theorem pushing_push [DecidableEq W] [DecidableEq C] {worker : W → WorkerPc S}
    (hP : ∀ w, push (.inl w) ≠ none → (worker w).running.isSome) {t : W ⊕ C}
    {p : Option (PushPc G S)} (ht : ∀ w, t = .inl w → (worker w).running.isSome) :
    ∀ w', Function.update push t p (.inl w') ≠ none → (worker w').running.isSome := by
  intro w' hw'
  by_cases h : .inl w' = t
  · exact ht w' h.symm
  · rw [Function.update_of_ne h] at hw'
    exact hP w' hw'

/-- A task is cached and its push returns. -/
theorem CallsOk.cached (hC : CallsOk push issued returned) :
    CallsOk push (issued + 1) (insert issued returned) := by
  refine ⟨fun u hu => ?_, fun t pc h => (hC.call_lt t pc h).trans (Nat.lt_succ_self _),
    fun t pc h hmem => ?_, hC.distinct, hC.own⟩
  · rcases Finset.mem_insert.mp hu with rfl | hu
    · exact Nat.lt_succ_self _
    · exact (hC.returned_lt u hu).trans (Nat.lt_succ_self _)
  · rcases Finset.mem_insert.mp hmem with heq | hmem
    · exact absurd (hC.call_lt t pc h) (by rw [heq]; exact lt_irrefl _)
    · exact hC.not_returned t pc h hmem

variable [DecidableEq W] [DecidableEq C]

/-- A push function is called. -/
theorem CallsOk.begin (hC : CallsOk push issued returned) {t : W ⊕ C} {g : G}
    {op : Operation S} (hown : ∀ c, t = .inr c → op.uid = issued) :
    CallsOk (Function.update push t (some (.count g op issued))) (issued + 1) returned := by
  have hcall : ∀ {t' pc}, Function.update push t (some (.count g op issued)) t' = some pc →
      (t' = t ∧ pc = .count g op issued) ∨ (t' ≠ t ∧ push t' = some pc) := by
    intro t' pc h
    by_cases ht : t' = t
    · subst ht
      rw [Function.update_self] at h
      exact Or.inl ⟨rfl, (Option.some.inj h).symm⟩
    · rw [Function.update_of_ne ht] at h
      exact Or.inr ⟨ht, h⟩
  refine ⟨fun u hu => (hC.returned_lt u hu).trans (Nat.lt_succ_self _), fun t' pc h => ?_,
    fun t' pc h hmem => ?_, fun t' t'' pc pc' h h' heq => ?_, fun c g' op' call h => ?_⟩
  · rcases hcall h with ⟨-, rfl⟩ | ⟨-, h⟩
    · exact Nat.lt_succ_self _
    · exact (hC.call_lt t' pc h).trans (Nat.lt_succ_self _)
  · rcases hcall h with ⟨-, rfl⟩ | ⟨-, h⟩
    · exact absurd (hC.returned_lt _ hmem) (lt_irrefl _)
    · exact hC.not_returned t' pc h hmem
  · rcases hcall h with ⟨rfl, rfl⟩ | ⟨-, hold⟩ <;> rcases hcall h' with ⟨rfl, rfl⟩ | ⟨-, hold'⟩
    · rfl
    · have hlt := hC.call_lt _ _ hold'
      rw [← heq] at hlt
      exact absurd hlt (lt_irrefl _)
    · have hlt := hC.call_lt _ _ hold
      rw [heq] at hlt
      exact absurd hlt (lt_irrefl _)
    · exact hC.distinct _ _ _ _ hold hold' heq
  · rcases hcall h with ⟨ht, heq⟩ | ⟨-, h⟩
    · obtain ⟨-, rfl, rfl⟩ := PushPc.count.inj heq
      exact hown c ht.symm
    · exact hC.own c g' op' call h

/-- A call goes on. -/
theorem CallsOk.advance (hC : CallsOk push issued returned) {t : W ⊕ C} {pc pc' : PushPc G S}
    (h : push t = some pc) (hcall : pc'.call = pc.call)
    (hcount : ∀ g op call, pc' ≠ .count g op call) :
    CallsOk (Function.update push t (some pc')) issued returned := by
  have hold : ∀ {t' p}, Function.update push t (some pc') t' = some p →
      ∃ p', push t' = some p' ∧ p'.call = p.call := by
    intro t' p hp
    by_cases ht : t' = t
    · subst ht
      rw [Function.update_self] at hp
      exact ⟨pc, h, hcall.symm.trans (congrArg PushPc.call (Option.some.inj hp))⟩
    · rw [Function.update_of_ne ht] at hp
      exact ⟨p, hp, rfl⟩
  refine ⟨hC.returned_lt, fun t' p hp => ?_, fun t' p hp => ?_, fun t' t'' p p' hp hp' heq => ?_,
    fun c g op call hp => ?_⟩
  · obtain ⟨p', hp', hc⟩ := hold hp
    exact hc ▸ hC.call_lt t' p' hp'
  · obtain ⟨p', hp', hc⟩ := hold hp
    exact hc ▸ hC.not_returned t' p' hp'
  · obtain ⟨q, hq, hc⟩ := hold hp
    obtain ⟨q', hq', hc'⟩ := hold hp'
    exact hC.distinct t' t'' q q' hq hq' (hc.trans (heq.trans hc'.symm))
  · by_cases ht : .inr c = t
    · subst ht
      rw [Function.update_self] at hp
      exact absurd (Option.some.inj hp) (hcount g op call)
    · rw [Function.update_of_ne ht] at hp
      exact hC.own c g op call hp

/-- A call returns. -/
theorem CallsOk.finish (hC : CallsOk push issued returned) {t : W ⊕ C} {pc : PushPc G S}
    (h : push t = some pc) :
    CallsOk (Function.update push t none) issued (insert pc.call returned) := by
  have hold : ∀ {t' p}, Function.update push t none t' = some p → t' ≠ t ∧ push t' = some p := by
    intro t' p hp
    by_cases ht : t' = t
    · subst ht
      rw [Function.update_self] at hp
      exact absurd hp (by simp)
    · rw [Function.update_of_ne ht] at hp
      exact ⟨ht, hp⟩
  refine ⟨fun u hu => ?_, fun t' p hp => hC.call_lt t' p (hold hp).2, fun t' p hp hmem => ?_,
    fun t' t'' p p' hp hp' => hC.distinct t' t'' p p' (hold hp).2 (hold hp').2,
    fun c g op call hp => hC.own c g op call (hold hp).2⟩
  · rcases Finset.mem_insert.mp hu with rfl | hu
    · exact hC.call_lt t pc h
    · exact hC.returned_lt u hu
  · obtain ⟨ht, hp⟩ := hold hp
    rcases Finset.mem_insert.mp hmem with heq | hmem
    · exact ht (hC.distinct t' t p pc hp h heq)
    · exact hC.not_returned t' p hp hmem

variable [DecidableEq G] [DecidableEq S] {L L' : Ledger G W C S}

theorem Effect.calls (h : Effect L L') (hC : CallsOk L.push L.issued L.returned) :
    CallsOk L'.push L'.issued L'.returned := by
  cases h with
  | pushOp t g state hpush hrun => exact hC.begin fun _ _ => rfl
  | cached w hpush hrun => exact hC.cached
  | evicted w g old rest hpush hrun hcache => exact hC.begin fun c hc => absurd hc (by simp)
  | count t g op call hpc => exact hC.advance hpc rfl (by simp)
  | enqueue t g op call hpc => exact hC.advance hpc rfl (by simp)
  | complete t g call hpc => exact hC.advance hpc rfl (by simp)
  | release t g call hpc => exact hC.finish hpc
  | _ => exact hC

theorem Effect.pushing (h : Effect L L')
    (hP : ∀ w, L.push (.inl w) ≠ none → (L.worker w).running.isSome) :
    ∀ w, L'.push (.inl w) ≠ none → (L'.worker w).running.isSome := by
  have inside : ∀ {t : W ⊕ C} {pc}, L.push t = some pc →
      ∀ w, t = .inl w → (L.worker w).running.isSome := by
    rintro t pc hpc w rfl
    exact hP w (by rw [hpc]; simp)
  cases h with
  | same => exact hP
  | pushOp t g state hpush hrun => exact pushing_push hP hrun
  | cached w hpush hrun => exact hP
  | evicted w g old rest hpush hrun hcache =>
    exact pushing_push hP fun w' hw' => Sum.inl.inj hw' ▸ hrun
  | count t g op call hpc => exact pushing_push hP (inside hpc)
  | enqueue t g op call hpc => exact pushing_push hP (inside hpc)
  | complete t g call hpc => exact pushing_push hP (inside hpc)
  | release t g call hpc => exact pushing_push hP (inside hpc)
  | execReturn w op hrun hpush => exact pushing_worker hP hpush
  | move w q hmove =>
    exact pushing_worker hP (push_eq_none_of_running hP rfl hmove.not_running)
  | popTask w g k p op hpc => exact pushing_worker hP (push_eq_none_of_running hP hpc rfl)
  | popState w g k p op x hpc => exact pushing_worker hP (push_eq_none_of_running hP hpc rfl)
  | statePush w p op x hpc => exact pushing_worker hP (push_eq_none_of_running hP hpc rfl)
  | stateAdd w p x hpc => exact pushing_worker hP (push_eq_none_of_running hP hpc rfl)
  | statePop w k p x n op hpc => exact pushing_worker hP (push_eq_none_of_running hP hpc rfl)
  | stateLeave w p x n hpc => exact pushing_worker hP (push_eq_none_of_running hP hpc rfl)
  | stateKeep w p x n hpc => exact pushing_worker hP (push_eq_none_of_running hP hpc rfl)
  | cacheEmpty w p hpc => exact pushing_worker hP (push_eq_none_of_running hP hpc rfl)
  | cachePop w p op hpc => exact pushing_worker hP (push_eq_none_of_running hP hpc rfl)
  | sub w p hpc => exact pushing_worker hP (push_eq_none_of_running hP hpc rfl)

end Calls

/-! ## The invariant in every run -/

section Runs

variable [DecidableEq G] [DecidableEq W] [DecidableEq C] [DecidableEq S]
variable [Fintype G] [Fintype W] [Fintype C] [Fintype S]

theorem Effect.inv {L L' : Ledger G W C S} (h : Effect L L') (hI : Inv L) : Inv L' :=
  ⟨h.counter hI.counter, fun u => h.placed u (hI.placed u), fun u => h.started u (hI.started u),
    h.caches hI.caches, h.pushing hI.pushing, h.calls hI.calls⟩

omit [DecidableEq G] [DecidableEq W] [DecidableEq C] [DecidableEq S] in
theorem inv_initial : Inv (initial : State G W C S).toLedger := by
  refine ⟨?_, fun u => ?_, fun u => ?_, ⟨fun w h => absurd rfl h, fun w p op h => ?_⟩,
    fun w h => absurd rfl h, ⟨?_, ?_, ?_, ?_, ?_⟩⟩
  · simp [initial, Ledger.total, owed, Weights.pushing, WorkerPc.owed]
  · simp [initial, Ledger.total, placeOf, Weights.pushing, WorkerPc.inHand]
  · simp [initial, Ledger.total, runningOf, Weights.pushing, WorkerPc.running]
  · exact absurd h (by simp [initial])
  · exact fun u hu => absurd hu (Finset.notMem_empty u)
  all_goals simp [initial]

/-- The invariant holds in every reachable state. -/
theorem inv_of_reaches {tm : Groups G W} {ok : State G W C S → Action G W C S → Prop}
    {s : State G W C S} (hs : (system tm C S).Reaches ok s) : Inv s.toLedger := by
  refine hs.invariant (I := fun s => Inv s.toLedger) ?_ fun s a s' _ hI _ h =>
    (effect_step h).inv hI
  rintro s rfl
  exact inv_initial

end Runs

end TaskManager
end ThreadUtils
