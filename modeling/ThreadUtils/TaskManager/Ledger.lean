import ThreadUtils.TaskManager.Model
import ThreadUtils.Transition.Accounting
import ThreadUtils.Transition.Bag

/-!
# The ledger of operations

Where an operation is, how many operations a worker still has to subtract from
`operation_counter`, how many belong to a state: every such number is a sum over the
places of the task manager --- pushes in progress, queues of the groups, queues of the
states, workers, caches --- of a weight.  `Ledger.total` is that sum for arbitrary
weights, and the exchange laws say how it changes when one place changes.

`Effect` lists what a step does to the ledger, once for all invariants.  The steps that
are about parking, semaphores and waiting do nothing to it, or move one worker to a
program counter that owes and holds the same (`LocalMove`).

## Why weights

The numbers that the invariants speak of differ in what they count and agree in where they count it.
With the weight one for the operation `u` and zero for all others the total is the number of places
that hold `u`; with the weight of what is not subtracted it is what the counter should be; with
the weight of the operations of a state it is what that state has to do.  The exchange laws are
proved once for all weights, and an invariant has only to say what its weight does in each case of
`Effect`.

A step touches at most two places, a worker and a queue for instance.  Everything else is the rest
of the sum and cancels, so a law says that the total after the step plus what the place weighed
before is the total before plus what it weighs now.
-/

namespace ThreadUtils
namespace TaskManager

variable {G W C S : Type*}

/-! ## Totals -/

/-- What each place contributes to a total. -/
structure Weights (G S : Type*) where
  push : PushPc G S → ℕ
  queued : Operation S → ℕ
  stateQueued : S → Operation S → ℕ
  worker : WorkerPc S → ℕ
  cached : Operation S → ℕ

/-- The weight of a list of operations. -/
def weigh (f : Operation S → ℕ) (ops : List (Operation S)) : ℕ :=
  (ops.map f).sum

@[simp] theorem weigh_nil (f : Operation S → ℕ) : weigh f [] = 0 := rfl

@[simp] theorem weigh_append (f : Operation S → ℕ) (l l' : List (Operation S)) :
    weigh f (l ++ l') = weigh f l + weigh f l' := by
  rw [weigh, List.map_append, List.sum_append]
  rfl

@[simp] theorem weigh_cons (f : Operation S → ℕ) (op : Operation S) (l : List (Operation S)) :
    weigh f (op :: l) = f op + weigh f l := by
  rw [weigh, List.map_cons, List.sum_cons]
  rfl

/-- A queue gives out one of its elements. -/
theorem weigh_eraseIdx (f : Operation S → ℕ) {l : List (Operation S)} {k : ℕ} {op : Operation S}
    (h : l[k]? = some op) : weigh f (l.eraseIdx k) + f op = weigh f l :=
  (sum_map_eraseIdx h f).symm

/-- A cache gives out its last element. -/
theorem weigh_dropLast (f : Operation S → ℕ) {l : List (Operation S)} {op : Operation S}
    (h : l.getLast? = some op) : weigh f l.dropLast + f op = weigh f l := by
  obtain ⟨l', rfl⟩ := List.getLast?_eq_some_iff.mp h
  rw [List.dropLast_concat, weigh_append, weigh_cons, weigh_nil]
  rfl

/-- The weight of the call of `tu_tm_push_op` of a thread. -/
def Weights.pushing (φ : Weights G S) : Option (PushPc G S) → ℕ
  | none => 0
  | some pc => φ.push pc

section Totals

variable [Fintype G] [Fintype W] [Fintype C] [Fintype S]

/-- The sum of the weights over all places. -/
def Ledger.total (φ : Weights G S) (L : Ledger G W C S) : ℕ :=
  ∑ t, φ.pushing (L.push t) + ∑ g, weigh φ.queued (L.queue g) +
    ∑ x, weigh (φ.stateQueued x) (L.stateQueue x) +
    ∑ w, φ.worker (L.worker w) + ∑ w, weigh φ.cached (L.cache w)

variable {L : Ledger G W C S} (φ : Weights G S)

/-- A total vanishes exactly when every place has weight `0`. -/
theorem total_eq_zero_iff : L.total φ = 0 ↔
    (∀ t, φ.pushing (L.push t) = 0) ∧ (∀ g, weigh φ.queued (L.queue g) = 0) ∧
      (∀ x, weigh (φ.stateQueued x) (L.stateQueue x) = 0) ∧ (∀ w, φ.worker (L.worker w) = 0) ∧
      ∀ w, weigh φ.cached (L.cache w) = 0 := by
  rw [Ledger.total, Nat.add_eq_zero_iff, Nat.add_eq_zero_iff, Nat.add_eq_zero_iff,
    Nat.add_eq_zero_iff, sum_eq_zero_iff_forall, sum_eq_zero_iff_forall, sum_eq_zero_iff_forall,
    sum_eq_zero_iff_forall, sum_eq_zero_iff_forall]
  constructor
  · rintro ⟨⟨⟨⟨ht, hq⟩, hx⟩, hw⟩, hc⟩
    exact ⟨ht, hq, hx, hw, hc⟩
  · rintro ⟨ht, hq, hx, hw, hc⟩
    exact ⟨⟨⟨⟨ht, hq⟩, hx⟩, hw⟩, hc⟩

/-- Greater weights, greater total. -/
theorem total_le_total {φ ψ : Weights G S} (ht : ∀ p, φ.pushing p ≤ ψ.pushing p)
    (hq : ∀ l, weigh φ.queued l ≤ weigh ψ.queued l)
    (hx : ∀ x l, weigh (φ.stateQueued x) l ≤ weigh (ψ.stateQueued x) l)
    (hw : ∀ pc, φ.worker pc ≤ ψ.worker pc) (hc : ∀ l, weigh φ.cached l ≤ weigh ψ.cached l) :
    L.total φ ≤ L.total ψ := by
  refine Nat.add_le_add (Nat.add_le_add (Nat.add_le_add (Nat.add_le_add ?_ ?_) ?_) ?_) ?_
  · exact Finset.sum_le_sum fun t _ => ht (L.push t)
  · exact Finset.sum_le_sum fun g _ => hq (L.queue g)
  · exact Finset.sum_le_sum fun x _ => hx x (L.stateQueue x)
  · exact Finset.sum_le_sum fun w _ => hw (L.worker w)
  · exact Finset.sum_le_sum fun w _ => hc (L.cache w)

variable (L)

/-- A push in progress makes a step. -/
theorem total_push [DecidableEq W] [DecidableEq C] {t : W ⊕ C} {p : Option (PushPc G S)} :
    { L with push := Function.update L.push t p }.total φ + φ.pushing (L.push t) =
      L.total φ + φ.pushing p := by
  have h := sum_update_exchange φ.pushing L.push t p
  unfold Ledger.total
  dsimp only
  omega

/-- A push in progress and a queue of a group change. -/
theorem total_push_queue [DecidableEq G] [DecidableEq W] [DecidableEq C] {t : W ⊕ C}
    {p : Option (PushPc G S)} {g : G} {l : List (Operation S)} :
    { L with
      push := Function.update L.push t p
      queue := Function.update L.queue g l }.total φ +
        (φ.pushing (L.push t) + weigh φ.queued (L.queue g)) =
      L.total φ + (φ.pushing p + weigh φ.queued l) := by
  have h := sum_update_exchange φ.pushing L.push t p
  have h' := sum_update_exchange (weigh φ.queued) L.queue g l
  unfold Ledger.total
  dsimp only
  omega

/-- A cache changes, with or without a push. -/
theorem total_cache [DecidableEq W] {w : W} {l : List (Operation S)} :
    { L with cache := Function.update L.cache w l }.total φ + weigh φ.cached (L.cache w) =
      L.total φ + weigh φ.cached l := by
  have h := sum_update_exchange (weigh φ.cached) L.cache w l
  unfold Ledger.total
  dsimp only
  omega

theorem total_push_cache [DecidableEq W] [DecidableEq C] {t : W ⊕ C}
    {p : Option (PushPc G S)} {w : W} {l : List (Operation S)} :
    { L with
      push := Function.update L.push t p
      cache := Function.update L.cache w l }.total φ +
        (φ.pushing (L.push t) + weigh φ.cached (L.cache w)) =
      L.total φ + (φ.pushing p + weigh φ.cached l) := by
  have h := sum_update_exchange φ.pushing L.push t p
  have h' := sum_update_exchange (weigh φ.cached) L.cache w l
  unfold Ledger.total
  dsimp only
  omega

/-- A worker makes a step. -/
theorem total_worker [DecidableEq W] {w : W} {q : WorkerPc S} :
    { L with worker := Function.update L.worker w q }.total φ + φ.worker (L.worker w) =
      L.total φ + φ.worker q := by
  have h := sum_update_exchange φ.worker L.worker w q
  unfold Ledger.total
  dsimp only
  omega

/-- A worker makes a step and a queue of a group changes. -/
theorem total_worker_queue [DecidableEq G] [DecidableEq W] {w : W} {q : WorkerPc S} {g : G}
    {l : List (Operation S)} :
    { L with
      queue := Function.update L.queue g l
      worker := Function.update L.worker w q }.total φ +
        (φ.worker (L.worker w) + weigh φ.queued (L.queue g)) =
      L.total φ + (φ.worker q + weigh φ.queued l) := by
  have h := sum_update_exchange φ.worker L.worker w q
  have h' := sum_update_exchange (weigh φ.queued) L.queue g l
  unfold Ledger.total
  dsimp only
  omega

/-- A worker makes a step and the queue of a state changes. -/
theorem total_worker_stateQueue [DecidableEq W] [DecidableEq S] {w : W} {q : WorkerPc S} {x : S}
    {l : List (Operation S)} :
    { L with
      stateQueue := Function.update L.stateQueue x l
      worker := Function.update L.worker w q }.total φ +
        (φ.worker (L.worker w) + weigh (φ.stateQueued x) (L.stateQueue x)) =
      L.total φ + (φ.worker q + weigh (φ.stateQueued x) l) := by
  have h := sum_update_exchange φ.worker L.worker w q
  have h' := sum_update_exchange_index (fun x => weigh (φ.stateQueued x)) L.stateQueue x l
  unfold Ledger.total
  dsimp only
  omega

/-- A worker makes a step and its cache changes. -/
theorem total_worker_cache [DecidableEq W] {w : W} {q : WorkerPc S} {l : List (Operation S)} :
    { L with
      worker := Function.update L.worker w q
      cache := Function.update L.cache w l }.total φ +
        (φ.worker (L.worker w) + weigh φ.cached (L.cache w)) =
      L.total φ + (φ.worker q + weigh φ.cached l) := by
  have h := sum_update_exchange φ.worker L.worker w q
  have h' := sum_update_exchange (weigh φ.cached) L.cache w l
  unfold Ledger.total
  dsimp only
  omega

end Totals

/-! ## What a step does to the ledger -/

/-- The moves of a worker that neither take nor finish an operation. -/
inductive LocalMove : WorkerPc S → WorkerPc S → Prop
  | parked : LocalMove .park .notify
  | notified : LocalMove .notify .acquire
  | acquired : LocalMove .acquire .checkTerminate
  | terminated : LocalMove .checkTerminate .exited
  | woken : LocalMove .checkTerminate .unpark
  | unparked : LocalMove .unpark (.pop 0)
  | drained (p : ℕ) : LocalMove (.pop p) (.sub p)
  | checked : LocalMove .check .park

variable [DecidableEq G] [DecidableEq W] [DecidableEq C] [DecidableEq S]

/-- What a step does to the ledger. -/
inductive Effect (L : Ledger G W C S) : Ledger G W C S → Prop
  | same : Effect L L
  /-- `tu_tm_push_op` is called. -/
  | pushOp (t : W ⊕ C) (g : G) (state : Option S) : L.push t = none →
      (∀ w, t = .inl w → (L.worker w).running.isSome) →
      Effect L { L with
        push := Function.update L.push t (some (.count g ⟨L.issued, state⟩ L.issued))
        issued := L.issued + 1 }
  /-- `tu_tm_push_task` caches the task. -/
  | cached (w : W) : L.push (.inl w) = none → (L.worker w).running.isSome →
      Effect L { L with
        cache := Function.update L.cache w (L.cache w ++ [⟨L.issued, none⟩])
        issued := L.issued + 1, returned := insert L.issued L.returned }
  /-- `tu_tm_push_task` caches the task and pushes the oldest one of the cache. -/
  | evicted (w : W) (g : G) (old : Operation S) (rest : List (Operation S)) :
      L.push (.inl w) = none → (L.worker w).running.isSome → L.cache w = old :: rest →
      Effect L { L with
        push := Function.update L.push (.inl w) (some (.count g old L.issued))
        cache := Function.update L.cache w (rest ++ [⟨L.issued, none⟩])
        issued := L.issued + 1 }
  | count (t : W ⊕ C) (g : G) (op : Operation S) (call : ℕ) :
      L.push t = some (.count g op call) →
      Effect L { L with
        operationCounter := L.operationCounter + 1
        push := Function.update L.push t (some (.enqueue g op call)) }
  | enqueue (t : W ⊕ C) (g : G) (op : Operation S) (call : ℕ) :
      L.push t = some (.enqueue g op call) →
      Effect L { L with
        queue := Function.update L.queue g (L.queue g ++ [op])
        push := Function.update L.push t (some (.complete g call)) }
  | complete (t : W ⊕ C) (g : G) (call : ℕ) : L.push t = some (.complete g call) →
      Effect L { L with push := Function.update L.push t (some (.release g call)) }
  | release (t : W ⊕ C) (g : G) (call : ℕ) : L.push t = some (.release g call) →
      Effect L { L with
        push := Function.update L.push t none, returned := insert call L.returned }
  | execReturn (w : W) (op : Operation S) : (L.worker w).running = some op →
      L.push (.inl w) = none →
      Effect L { L with
        worker := Function.update L.worker w (L.worker w).afterExec
        executed := L.executed ++ [op.uid] }
  | move (w : W) (q : WorkerPc S) : LocalMove (L.worker w) q →
      Effect L { L with worker := Function.update L.worker w q }
  /-- A task is popped from the queue of a group. -/
  | popTask (w : W) (g : G) (k p : ℕ) (op : Operation S) : L.worker w = .pop p →
      (L.queue g)[k]? = some op → op.state = none →
      Effect L { L with
        queue := Function.update L.queue g ((L.queue g).eraseIdx k)
        worker := Function.update L.worker w (.exec p op)
        started := L.started ++ [op.uid] }
  /-- An operation of a state is popped from the queue of a group. -/
  | popState (w : W) (g : G) (k p : ℕ) (op : Operation S) (x : S) : L.worker w = .pop p →
      (L.queue g)[k]? = some op → op.state = some x →
      Effect L { L with
        queue := Function.update L.queue g ((L.queue g).eraseIdx k)
        worker := Function.update L.worker w (.statePush p op x)
        given := Function.update L.given x (L.given x + 1) }
  | statePush (w : W) (p : ℕ) (op : Operation S) (x : S) : L.worker w = .statePush p op x →
      Effect L { L with
        stateQueue := Function.update L.stateQueue x (L.stateQueue x ++ [op])
        worker := Function.update L.worker w (.stateAdd p x) }
  /-- `fetch_add` on the counter of a state: the worker takes the ownership of the state
  or leaves its operation to the owner. -/
  | stateAdd (w : W) (p : ℕ) (x : S) : L.worker w = .stateAdd p x →
      Effect L { L with
        counter := Function.update L.counter x (L.counter x + 1)
        worker := Function.update L.worker w
          (if L.counter x = 0 then .statePop p x 0 else .cachePop p) }
  | statePop (w : W) (k p : ℕ) (x : S) (n : ℕ) (op : Operation S) :
      L.worker w = .statePop p x n → (L.stateQueue x)[k]? = some op →
      Effect L { L with
        stateQueue := Function.update L.stateQueue x ((L.stateQueue x).eraseIdx k)
        worker := Function.update L.worker w (.stateExec p x n op)
        started := L.started ++ [op.uid] }
  /-- `fetch_sub` by the owner of a state that gives the ownership up. -/
  | stateLeave (w : W) (p : ℕ) (x : S) (n : ℕ) : L.worker w = .stateSub p x n →
      L.counter x = 1 →
      Effect L { L with
        counter := Function.update L.counter x (L.counter x - 1)
        worker := Function.update L.worker w (.cachePop (p + n))
        yielded := Function.update L.yielded x (L.yielded x + n) }
  /-- `fetch_sub` by the owner of a state that keeps it. -/
  | stateKeep (w : W) (p : ℕ) (x : S) (n : ℕ) : L.worker w = .stateSub p x n →
      L.counter x ≠ 1 →
      Effect L { L with
        counter := Function.update L.counter x (L.counter x - 1)
        worker := Function.update L.worker w (.statePop p x n) }
  | cacheEmpty (w : W) (p : ℕ) : L.worker w = .cachePop p → L.cache w = [] →
      Effect L { L with worker := Function.update L.worker w (.pop p) }
  | cachePop (w : W) (p : ℕ) (op : Operation S) : L.worker w = .cachePop p →
      (L.cache w).getLast? = some op →
      Effect L { L with
        cache := Function.update L.cache w (L.cache w).dropLast
        worker := Function.update L.worker w (.cacheExec p op)
        started := L.started ++ [op.uid] }
  | sub (w : W) (p : ℕ) : L.worker w = .sub p →
      Effect L { L with
        operationCounter := L.operationCounter - p
        worker := Function.update L.worker w .check }

section Steps

variable {tm : Groups G W} {s s' : State G W C S}

theorem effect_pushTask (w : W) (g : G) (h : s.mayPush (.inl w)) :
    Effect s.toLedger (s.pushTask tm w g).toLedger := by
  obtain ⟨hrun, hpush⟩ := h
  rw [State.pushTask]
  split
  · refine .pushOp (.inl w) g none hpush fun w' hw' => ?_
    rw [← Sum.inl.inj hw']
    exact hrun
  · split
    · next cache old hcache =>
      rw [cacheInsert] at hcache
      split at hcache
      · obtain ⟨hl, hold⟩ := Prod.mk.inj hcache
        subst hl
        obtain ⟨rest, hrest⟩ := List.head?_eq_some_iff.mp hold
        rw [hrest]
        exact .evicted w g old rest hpush hrun hrest
      · exact absurd (Prod.mk.inj hcache).2 (by simp)
    · next cache hcache =>
      rw [cacheInsert] at hcache
      split at hcache
      · next hfull =>
        -- a full cache has an oldest element
        have hnil := List.head?_eq_none_iff.mp (Prod.mk.inj hcache).2
        rw [hnil] at hfull
        exact absurd hfull (by simp [cacheSize])
      · obtain ⟨hl, -⟩ := Prod.mk.inj hcache
        subst hl
        exact .cached w hpush hrun

theorem effect_pushing {t : W ⊕ C} (h : s.pushing t = some s') :
    Effect s.toLedger s'.toLedger := by
  unfold State.pushing at h
  split at h
  · exact absurd h (by simp)
  · next g op call hpc =>
    obtain rfl := Option.some.inj h
    exact .count t g op call hpc
  · next g op call hpc =>
    obtain rfl := Option.some.inj h
    exact .enqueue t g op call hpc
  · next g call hpc =>
    obtain rfl := Option.some.inj h
    exact .complete t g call hpc
  · next g call hpc =>
    obtain rfl := Option.some.inj h
    exact .release t g call hpc

theorem effect_execReturn {w : W} (h : s.execReturn w = some s') :
    Effect s.toLedger s'.toLedger := by
  unfold State.execReturn at h
  split at h
  · next op hrun =>
    split at h
    · next hpush =>
      obtain rfl := Option.some.inj h
      exact .execReturn w op hrun hpush
    · exact absurd h (by simp)
  · exact absurd h (by simp)

theorem effect_workerStep {w : W} {pick : Option ℕ} (h : s.workerStep tm w pick = some s') :
    Effect s.toLedger s'.toLedger := by
  unfold State.workerStep at h
  split at h
  · next hpc =>
    obtain rfl := Option.some.inj h
    exact .move w _ (hpc ▸ .parked)
  · next hpc =>
    obtain rfl := Option.some.inj h
    exact .move w _ (hpc ▸ .notified)
  · next hpc =>
    split at h
    · obtain rfl := Option.some.inj h
      exact .move w _ (hpc ▸ .acquired)
    · exact absurd h (by simp)
  · next hpc =>
    obtain rfl := Option.some.inj h
    refine .move w _ ?_
    rw [hpc]
    split
    · exact .terminated
    · exact .woken
  · next hpc =>
    obtain rfl := Option.some.inj h
    exact .move w _ (hpc ▸ .unparked)
  · next p hpc =>
    split at h
    · obtain rfl := Option.some.inj h
      exact .move w _ (hpc ▸ .drained p)
    · next k =>
      obtain ⟨op, hop, rfl⟩ := Option.map_eq_some_iff.mp h
      cases hx : op.state with
      | none => exact .popTask w _ k p op hpc hop hx
      | some x => exact .popState w _ k p op x hpc hop hx
  · next p op x hpc =>
    obtain rfl := Option.some.inj h
    exact .statePush w p op x hpc
  · next p x hpc =>
    obtain rfl := Option.some.inj h
    exact .stateAdd w p x hpc
  · next p x n hpc =>
    split at h
    · obtain rfl := Option.some.inj h
      exact .same
    · next k =>
      obtain ⟨op, hop, rfl⟩ := Option.map_eq_some_iff.mp h
      exact .statePop w k p x n op hpc hop
  · next p x n hpc =>
    split at h
    · next hone =>
      obtain rfl := Option.some.inj h
      exact .stateLeave w p x n hpc hone
    · next hone =>
      obtain rfl := Option.some.inj h
      exact .stateKeep w p x n hpc hone
  · next p hpc =>
    split at h
    · next hlast =>
      obtain rfl := Option.some.inj h
      exact .cacheEmpty w p hpc (List.getLast?_eq_none_iff.mp hlast)
    · next op hlast =>
      obtain rfl := Option.some.inj h
      exact .cachePop w p op hpc hlast
  · next p hpc =>
    obtain rfl := Option.some.inj h
    exact .sub w p hpc
  · next hpc =>
    split at h
    · obtain rfl := Option.some.inj h
      exact .move w _ (hpc ▸ .checked)
    · exact absurd h (by simp)
  all_goals exact absurd h (by simp)

/-- A client that waits or shuts down does not touch the ledger. -/
theorem toLedger_clientStep {c : C} (h : s.clientStep tm c = some s') :
    s'.toLedger = s.toLedger := by
  unfold State.clientStep at h
  split at h
  case h_3 | h_4 =>
    unfold State.beginTest at h
    split at h
    · exact absurd h (by simp)
    · obtain rfl := Option.some.inj h
      rfl
  case h_12 =>
    split at h
    · obtain rfl := Option.some.inj h
      rfl
    · exact absurd h (by simp)
  all_goals cases h <;> rfl

/-- **The effect of a step on the ledger.** -/
theorem effect_step {a : Action G W C S} (h : step tm s a = some s') :
    Effect s.toLedger s'.toLedger := by
  cases a with
  | push t g state =>
    rw [step] at h
    split at h
    · next hmay =>
      obtain rfl := Option.some.inj h
      cases t with
      | inl w =>
        refine .pushOp (.inl w) g state hmay.2 fun w' hw' => ?_
        rw [← Sum.inl.inj hw']
        exact hmay.1
      | inr c => exact .pushOp (.inr c) g state hmay.2 fun w' hw' => absurd hw' (by simp)
    · exact absurd h (by simp)
  | pushTask w g =>
    rw [step] at h
    split at h
    · next hmay =>
      obtain rfl := Option.some.inj h
      exact effect_pushTask w g hmay
    · exact absurd h (by simp)
  | pushing t => exact effect_pushing h
  | execReturn w => exact effect_execReturn h
  | worker w pick => exact effect_workerStep h
  | wait c =>
    rw [step] at h
    split at h
    · obtain rfl := Option.some.inj h
      exact .same
    · exact absurd h (by simp)
  | fini c =>
    rw [step] at h
    split at h
    · obtain rfl := Option.some.inj h
      exact .same
    · exact absurd h (by simp)
  | client c =>
    rw [toLedger_clientStep h]
    exact .same
  | wake c =>
    rw [step] at h
    split at h
    · obtain rfl := Option.some.inj h
      exact .same
    · exact absurd h (by simp)

end Steps

end TaskManager
end ThreadUtils
