import ThreadUtils.TaskManager.Invariant
import ThreadUtils.TaskManager.Completion

/-!
# The operations of a state are serialized

A worker that is given an operation of a state puts it in the queue of the state and
then adds `1` to the counter of the state.  Between the two steps the operation can
already be popped by the owner, so the counter is neither the length of the queue nor
the number of operations in it.  The balance that every crossing keeps is

  counter + workers about to add = queue + operations popped and not subtracted,

and the counter is `0` exactly when nobody owns the state (`StateInv`).  Nobody inside
the ownership protocol means that both sides are `0`.

## How the ownership passes

The worker whose `fetch_add` finds `0` becomes the owner, and it stops being the owner when its
`fetch_sub` finds `1`.  In between the owner may have executed an operation of somebody who has not
added yet: then it leaves with an operation in the queue, and it is the other one that becomes the
owner and finds it.  The balance says that this always works out: when an owner comes to its pop,
nothing is popped and not subtracted, so all that the counter counts is in the queue.

## The parts of the proof

Each summand is a weight of a worker (`adding`, `popped`, `owning`, `share`), and a step moves one
worker, so `StateInv.update` asks of a step only the balance of what it changes.  Most steps are
outside of the protocol of a given state; for these it is enough that the weights are the same
(`SameWeights`).  That an operation meets the state it belongs to is kept apart (`TypedInv`): it is
about the contents of the places, and not about how many there are.

* `stateSerialized_of_reachable` --- one owner, no two operations of a state at the same time, none
  executed twice, and nothing left behind when nobody is inside.
-/

namespace ThreadUtils
namespace TaskManager

variable {G W C S : Type*} [DecidableEq S]

/-! ## The positions of a worker relative to a state -/

/-- `1` for a worker that has pushed its operation and not added to the counter. -/
def WorkerPc.adding (x : S) : WorkerPc S → ℕ
  | .stateAdd _ y => if y = x then 1 else 0
  | _ => 0

/-- `1` for a worker that has popped an operation and not subtracted from the counter. -/
def WorkerPc.popped (x : S) : WorkerPc S → ℕ
  | .stateExec _ y _ _ | .stateSub _ y _ => if y = x then 1 else 0
  | _ => 0

/-- `1` for a worker in the ownership loop. -/
def WorkerPc.owning (x : S) : WorkerPc S → ℕ
  | .statePop _ y _ | .stateExec _ y _ _ | .stateSub _ y _ => if y = x then 1 else 0
  | _ => 0

/-- The operations that a worker was given and has not pushed, and those it has executed
and not returned. -/
def WorkerPc.share (x : S) : WorkerPc S → ℕ
  | .statePush _ _ y => if y = x then 1 else 0
  | .statePop _ y n | .stateSub _ y n => if y = x then n else 0
  | .stateExec _ y n _ => if y = x then n + 1 else 0
  | _ => 0

/-- The worker is inside `tu_tm_worker_process_operation` for the state. -/
def WorkerPc.inside (x : S) : WorkerPc S → Prop
  | .statePush _ _ y | .stateAdd _ y | .statePop _ y _ | .stateExec _ y _ _ | .stateSub _ y _ =>
      y = x
  | _ => False

/-- Two positions that are the same for the protocol of the state. -/
structure SameWeights (x : S) (pc q : WorkerPc S) : Prop where
  adding : q.adding x = pc.adding x
  popped : q.popped x = pc.popped x
  owning : q.owning x = pc.owning x
  share : q.share x = pc.share x

theorem LocalMove.sameWeights {pc q : WorkerPc S} (h : LocalMove pc q) (x : S) :
    SameWeights x pc q := by
  cases h <;> exact ⟨rfl, rfl, rfl, rfl⟩

theorem sameWeights_afterExec {pc : WorkerPc S} {op : Operation S} (h : pc.running = some op)
    (x : S) : SameWeights x pc pc.afterExec := by
  cases pc with
  | exec p op => exact ⟨rfl, rfl, rfl, rfl⟩
  | stateExec p y n op => exact ⟨rfl, rfl, rfl, rfl⟩
  | cacheExec p op => exact ⟨rfl, rfl, rfl, rfl⟩
  | _ => exact absurd h (by simp [WorkerPc.running])

/-- A position inside the protocol of another state is like one outside. -/
theorem SameWeights.of_ne {x y : S} (hyx : y ≠ x) {pc q : WorkerPc S} (hpc : pc.inside y)
    (hq : q.inside y ∨ ∀ z, ¬ q.inside z) : SameWeights x pc q := by
  have hzero : ∀ r : WorkerPc S, (r.inside y ∨ ∀ z, ¬ r.inside z) →
      r.adding x = 0 ∧ r.popped x = 0 ∧ r.owning x = 0 ∧ r.share x = 0 := by
    rintro r (hr | hr)
    · cases r with
      | statePush p op z =>
        obtain rfl : z = y := hr
        simp [WorkerPc.adding, WorkerPc.popped, WorkerPc.owning, WorkerPc.share, hyx]
      | stateAdd p z =>
        obtain rfl : z = y := hr
        simp [WorkerPc.adding, WorkerPc.popped, WorkerPc.owning, WorkerPc.share, hyx]
      | statePop p z n =>
        obtain rfl : z = y := hr
        simp [WorkerPc.adding, WorkerPc.popped, WorkerPc.owning, WorkerPc.share, hyx]
      | stateExec p z n op =>
        obtain rfl : z = y := hr
        simp [WorkerPc.adding, WorkerPc.popped, WorkerPc.owning, WorkerPc.share, hyx]
      | stateSub p z n =>
        obtain rfl : z = y := hr
        simp [WorkerPc.adding, WorkerPc.popped, WorkerPc.owning, WorkerPc.share, hyx]
      | _ => exact hr.elim
    · cases r with
      | statePush p op z => exact absurd rfl (hr z)
      | stateAdd p z => exact absurd rfl (hr z)
      | statePop p z n => exact absurd rfl (hr z)
      | stateExec p z n op => exact absurd rfl (hr z)
      | stateSub p z n => exact absurd rfl (hr z)
      | _ => exact ⟨rfl, rfl, rfl, rfl⟩
  obtain ⟨h₁, h₂, h₃, h₄⟩ := hzero pc (Or.inl hpc)
  obtain ⟨h₁', h₂', h₃', h₄'⟩ := hzero q hq
  exact ⟨h₁'.trans h₁.symm, h₂'.trans h₂.symm, h₃'.trans h₃.symm, h₄'.trans h₄.symm⟩

/-! ## The invariant of one state -/

section Invariant

variable [Fintype W]

/-- The balance of the counter, of the ownership and of the results of a state. -/
structure StateInv (x : S) (L : Ledger G W C S) : Prop where
  balance : L.counter x + ∑ w, (L.worker w).adding x =
    (L.stateQueue x).length + ∑ w, (L.worker w).popped x
  owners : ∑ w, (L.worker w).owning x = if L.counter x = 0 then 0 else 1
  given : L.given x = (L.stateQueue x).length + ∑ w, (L.worker w).share x + L.yielded x

/-- A worker makes a step: what its step must balance. -/
theorem StateInv.update [DecidableEq W] {x : S} {L L' : Ledger G W C S} (hI : StateInv x L)
    {w : W} {q : WorkerPc S} (hw : L'.worker = Function.update L.worker w q)
    (hbalance : L'.counter x + q.adding x + (L.stateQueue x).length + (L.worker w).popped x =
      L.counter x + (L.worker w).adding x + (L'.stateQueue x).length + q.popped x)
    (howners : q.owning x + (if L.counter x = 0 then 0 else 1) =
      (L.worker w).owning x + (if L'.counter x = 0 then 0 else 1))
    (hgiven : L'.given x + (L.stateQueue x).length + (L.worker w).share x + L.yielded x =
      L.given x + (L'.stateQueue x).length + q.share x + L'.yielded x) : StateInv x L' := by
  obtain ⟨hb, ho, hg⟩ := hI
  have hadd := sum_update_exchange (WorkerPc.adding x) L.worker w q
  have hpop := sum_update_exchange (WorkerPc.popped x) L.worker w q
  have hown := sum_update_exchange (WorkerPc.owning x) L.worker w q
  have hshare := sum_update_exchange (WorkerPc.share x) L.worker w q
  refine ⟨?_, ?_, ?_⟩
  · rw [hw]
    omega
  · rw [hw]
    omega
  · rw [hw]
    omega

/-- A step outside the protocol of the state. -/
theorem StateInv.outside [DecidableEq W] {x : S} {L L' : Ledger G W C S} (hI : StateInv x L)
    {w : W} {pc q : WorkerPc S} (hpc : L.worker w = pc)
    (hw : L'.worker = Function.update L.worker w q)
    (hcounter : L'.counter x = L.counter x) (hqueue : L'.stateQueue x = L.stateQueue x)
    (hgiven : L'.given x = L.given x) (hyielded : L'.yielded x = L.yielded x)
    (hsame : SameWeights x pc q) : StateInv x L' := by
  subst hpc
  refine hI.update hw ?_ ?_ ?_
  · rw [hcounter, hqueue, hsame.adding, hsame.popped]
  · rw [hcounter, hsame.owning]
  · rw [hqueue, hgiven, hyielded, hsame.share]

/-- An owner keeps the counter above `0`. -/
theorem StateInv.counter_ne_zero {x : S} {L : Ledger G W C S} (hI : StateInv x L) {w : W}
    (hown : (L.worker w).owning x = 1) : L.counter x ≠ 0 := by
  intro hzero
  have hle : (L.worker w).owning x ≤ ∑ w, (L.worker w).owning x :=
    le_sum_apply (fun w => (L.worker w).owning x) w
  have howners := hI.owners
  rw [if_pos hzero] at howners
  omega

variable [DecidableEq G] [DecidableEq W] [DecidableEq C] {L L' : Ledger G W C S}

theorem Effect.stateInv (h : Effect L L') {x : S} (hI : StateInv x L) : StateInv x L' := by
  cases h with
  | same => exact hI
  | pushOp t g state hpush hrun => exact ⟨hI.balance, hI.owners, hI.given⟩
  | cached w hpush hrun => exact ⟨hI.balance, hI.owners, hI.given⟩
  | evicted w g old rest hpush hrun hcache => exact ⟨hI.balance, hI.owners, hI.given⟩
  | count t g op call hpc => exact ⟨hI.balance, hI.owners, hI.given⟩
  | enqueue t g op call hpc => exact ⟨hI.balance, hI.owners, hI.given⟩
  | complete t g call hpc => exact ⟨hI.balance, hI.owners, hI.given⟩
  | release t g call hpc => exact ⟨hI.balance, hI.owners, hI.given⟩
  | execReturn w op hrun hpush =>
    exact hI.outside rfl rfl rfl rfl rfl rfl (sameWeights_afterExec hrun x)
  | move w q hmove => exact hI.outside rfl rfl rfl rfl rfl rfl (hmove.sameWeights x)
  | popTask w g k p op hpc hop hstate =>
    exact hI.outside hpc rfl rfl rfl rfl rfl ⟨rfl, rfl, rfl, rfl⟩
  | cacheEmpty w p hpc hcache => exact hI.outside hpc rfl rfl rfl rfl rfl ⟨rfl, rfl, rfl, rfl⟩
  | cachePop w p op hpc hlast => exact hI.outside hpc rfl rfl rfl rfl rfl ⟨rfl, rfl, rfl, rfl⟩
  | sub w p hpc => exact hI.outside hpc rfl rfl rfl rfl rfl ⟨rfl, rfl, rfl, rfl⟩
  | popState w g k p op y hpc hop hstate =>
    by_cases hyx : y = x
    · subst hyx
      refine hI.update rfl ?_ ?_ ?_
      · simp [hpc, WorkerPc.adding, WorkerPc.popped]
      · simp [hpc, WorkerPc.owning]
      · simp [hpc, WorkerPc.share]
        omega
    · have hne := Ne.symm hyx
      refine hI.outside hpc rfl rfl rfl (Function.update_of_ne hne _ _) rfl
        ⟨rfl, rfl, rfl, if_neg hyx⟩
  | statePush w p op y hpc =>
    by_cases hyx : y = x
    · subst hyx
      refine hI.update rfl ?_ ?_ ?_
      · simp [hpc, WorkerPc.adding, WorkerPc.popped]
        omega
      · simp [hpc, WorkerPc.owning]
      · simp [hpc, WorkerPc.share]
        omega
    · have hne := Ne.symm hyx
      exact hI.outside hpc rfl rfl (Function.update_of_ne hne _ _) rfl rfl
        (.of_ne hyx rfl (Or.inl rfl))
  | stateAdd w p y hpc =>
    by_cases hyx : y = x
    · subst hyx
      by_cases hzero : L.counter y = 0
      · refine hI.update (w := w) (q := .statePop p y 0) (by simp [hzero]) ?_ ?_ ?_
        · simp [hpc, WorkerPc.adding, WorkerPc.popped]
        · simp [hpc, WorkerPc.owning, hzero]
        · simp [hpc, WorkerPc.share]
      · refine hI.update (w := w) (q := .cachePop p) (by simp [hzero]) ?_ ?_ ?_
        · simp [hpc, WorkerPc.adding, WorkerPc.popped]
        · simp [hpc, WorkerPc.owning, hzero]
        · simp [hpc, WorkerPc.share]
    · have hne := Ne.symm hyx
      refine hI.outside hpc rfl (Function.update_of_ne hne _ _) rfl rfl rfl (.of_ne hyx rfl ?_)
      split
      · exact Or.inl rfl
      · exact Or.inr fun z => id
  | statePop w k p y n op hpc hop =>
    have hlen := length_eraseIdx_of_getElem? hop
    by_cases hyx : y = x
    · subst hyx
      refine hI.update rfl ?_ ?_ ?_
      · simp only [hpc, WorkerPc.adding, WorkerPc.popped, Function.update_self, if_true]
        omega
      · simp [hpc, WorkerPc.owning]
      · simp only [hpc, WorkerPc.share, Function.update_self, if_true]
        omega
    · have hne := Ne.symm hyx
      exact hI.outside hpc rfl rfl (Function.update_of_ne hne _ _) rfl rfl
        (.of_ne hyx rfl (Or.inl rfl))
  | stateLeave w p y n hpc hone =>
    by_cases hyx : y = x
    · subst hyx
      refine hI.update rfl ?_ ?_ ?_
      · simp [hpc, WorkerPc.adding, WorkerPc.popped, hone]
        omega
      · simp [hpc, WorkerPc.owning, hone]
      · simp [hpc, WorkerPc.share]
        omega
    · have hne := Ne.symm hyx
      exact hI.outside hpc rfl (Function.update_of_ne hne _ _) rfl rfl
        (Function.update_of_ne hne _ _) (.of_ne hyx rfl (Or.inr fun z => id))
  | stateKeep w p y n hpc hone =>
    by_cases hyx : y = x
    · subst hyx
      have hpos : L.counter y ≠ 0 := hI.counter_ne_zero (w := w) (by rw [hpc]; exact if_pos rfl)
      refine hI.update rfl ?_ ?_ ?_
      · simp only [hpc, WorkerPc.adding, WorkerPc.popped, Function.update_self, if_true]
        omega
      · simp only [hpc, WorkerPc.owning, Function.update_self, if_true]
        rw [if_neg hpos, if_neg (by omega)]
      · simp [hpc, WorkerPc.share]
    · have hne := Ne.symm hyx
      exact hI.outside hpc rfl (Function.update_of_ne hne _ _) rfl rfl rfl
        (.of_ne hyx rfl (Or.inl rfl))

end Invariant

/-! ## Operations meet their own state -/

/-- The operation a worker has in hand belongs to the state it is handled for. -/
def WorkerPc.Typed : WorkerPc S → Prop
  | .exec _ op | .cacheExec _ op => op.state = none
  | .statePush _ op x | .stateExec _ x _ op => op.state = some x
  | _ => True

/-- The caches hold tasks, and the queue of a state holds operations of the state. -/
structure TypedInv (L : Ledger G W C S) : Prop where
  worker : ∀ w, (L.worker w).Typed
  cache : ∀ w, ∀ op ∈ L.cache w, op.state = none
  stateQueue : ∀ x, ∀ op ∈ L.stateQueue x, op.state = some x

section Typed

omit [DecidableEq S]

theorem typed_afterExec (pc : WorkerPc S) (h : pc.running.isSome) : pc.afterExec.Typed := by
  cases pc with
  | exec p op => trivial
  | stateExec p x n op => trivial
  | cacheExec p op => trivial
  | _ => exact absurd h (by simp [WorkerPc.running])

theorem LocalMove.typed {pc q : WorkerPc S} (h : LocalMove pc q) : q.Typed := by
  cases h <;> trivial

variable [DecidableEq G] [DecidableEq W] [DecidableEq C] [DecidableEq S]
variable {L L' : Ledger G W C S}

theorem Effect.typedInv (h : Effect L L') (hT : TypedInv L) : TypedInv L' := by
  have hworker : ∀ {w : W} {q : WorkerPc S}, q.Typed →
      ∀ w', (Function.update L.worker w q w').Typed :=
    fun hq => forall_update (P := fun _ pc => WorkerPc.Typed pc) hT.worker hq
  have hcache : ∀ {w : W} {l : List (Operation S)}, (∀ op ∈ l, op.state = none) →
      ∀ w', ∀ op ∈ Function.update L.cache w l w', op.state = none :=
    fun hl =>
      forall_update (P := fun _ (l : List (Operation S)) => ∀ op ∈ l, op.state = none) hT.cache hl
  have hqueue : ∀ {x : S} {l : List (Operation S)}, (∀ op ∈ l, op.state = some x) →
      ∀ y, ∀ op ∈ Function.update L.stateQueue x l y, op.state = some y :=
    fun hl => forall_update
      (P := fun y (l : List (Operation S)) => ∀ op ∈ l, op.state = some y) hT.stateQueue hl
  cases h with
  | cached w hpush hrun =>
    refine ⟨hT.worker, hcache fun op hop => ?_, hT.stateQueue⟩
    rcases List.mem_append.mp hop with hop | hop
    · exact hT.cache w op hop
    · rw [List.mem_singleton.mp hop]
  | evicted w g old rest hpush hrun hc =>
    refine ⟨hT.worker, hcache fun op hop => ?_, hT.stateQueue⟩
    rcases List.mem_append.mp hop with hop | hop
    · exact hT.cache w op (by rw [hc]; exact List.mem_cons_of_mem _ hop)
    · rw [List.mem_singleton.mp hop]
  | execReturn w op hrun hpush =>
    exact ⟨hworker (typed_afterExec _ (by rw [hrun]; rfl)), hT.cache, hT.stateQueue⟩
  | move w q hmove => exact ⟨hworker hmove.typed, hT.cache, hT.stateQueue⟩
  | popTask w g k p op hpc hop hstate => exact ⟨hworker hstate, hT.cache, hT.stateQueue⟩
  | popState w g k p op x hpc hop hstate => exact ⟨hworker hstate, hT.cache, hT.stateQueue⟩
  | statePush w p op x hpc =>
    have hop : op.state = some x := by
      have h := hT.worker w
      rw [hpc] at h
      exact h
    refine ⟨hworker trivial, hT.cache, hqueue fun op' hop' => ?_⟩
    rcases List.mem_append.mp hop' with hop' | hop'
    · exact hT.stateQueue x op' hop'
    · rw [List.mem_singleton.mp hop', hop]
  | stateAdd w p x hpc =>
    refine ⟨hworker ?_, hT.cache, hT.stateQueue⟩
    split <;> trivial
  | statePop w k p x n op hpc hop =>
    refine ⟨hworker (hT.stateQueue x op (List.mem_of_getElem? hop)), hT.cache,
      hqueue fun op' hop' => hT.stateQueue x op' (List.mem_of_mem_eraseIdx hop')⟩
  | stateLeave w p x n hpc hone => exact ⟨hworker trivial, hT.cache, hT.stateQueue⟩
  | stateKeep w p x n hpc hone => exact ⟨hworker trivial, hT.cache, hT.stateQueue⟩
  | cacheEmpty w p hpc hnil => exact ⟨hworker trivial, hT.cache, hT.stateQueue⟩
  | cachePop w p op hpc hlast =>
    refine ⟨hworker (hT.cache w op (List.mem_of_getLast? hlast)),
      hcache fun op' hop' => hT.cache w op' (List.mem_of_mem_dropLast hop'), hT.stateQueue⟩
  | sub w p hpc => exact ⟨hworker trivial, hT.cache, hT.stateQueue⟩
  | _ => exact ⟨hT.worker, hT.cache, hT.stateQueue⟩

end Typed

/-! ## The theorem -/

/-- What the ownership protocol of a state promises. -/
structure StateSerialized [Fintype W] (s : State G W C S) (x : S) : Prop where
  /-- At most one worker is in the ownership loop. -/
  one_owner : ∀ w w', (s.worker w).owning x = 1 → (s.worker w').owning x = 1 → w = w'
  /-- Two operations of the state do not execute concurrently. -/
  exclusive : ∀ w w' op op', (s.worker w).running = some op → (s.worker w').running = some op' →
    op.state = some x → op'.state = some x → w = w'
  /-- No operation is executed twice. -/
  at_most_once : ∀ u, s.started.count u ≤ 1
  /-- When no worker is inside `tu_tm_worker_process_operation` for the state, nothing is
  left behind, and the results of the calls add up to the number of calls. -/
  quiescent : (∀ w, ¬ (s.worker w).inside x) →
    s.counter x = 0 ∧ s.stateQueue x = [] ∧ s.yielded x = s.given x

section Main

variable [DecidableEq G] [DecidableEq W] [DecidableEq C] [Fintype W]

theorem stateInv_of_reaches {tm : Groups G W} {ok : State G W C S → Action G W C S → Prop}
    {s : State G W C S} (hs : (system tm C S).Reaches ok s) (x : S) : StateInv x s.toLedger := by
  refine hs.invariant (I := fun s => StateInv x s.toLedger) ?_ fun s a s' _ hI _ h =>
    (effect_step h).stateInv hI
  rintro s rfl
  refine ⟨?_, ?_, ?_⟩
  · simp [initial, WorkerPc.adding, WorkerPc.popped]
  · simp [initial, WorkerPc.owning]
  · simp [initial, WorkerPc.share]

omit [Fintype W] in
theorem typedInv_of_reaches {tm : Groups G W} {ok : State G W C S → Action G W C S → Prop}
    {s : State G W C S} (hs : (system tm C S).Reaches ok s) : TypedInv s.toLedger := by
  refine hs.invariant (I := fun s => TypedInv s.toLedger) ?_ fun s a s' _ hT _ h =>
    (effect_step h).typedInv hT
  rintro s rfl
  exact ⟨fun w => trivial, fun w op hop => absurd hop (by simp [initial]),
    fun x op hop => absurd hop (by simp [initial])⟩

omit [DecidableEq G] [DecidableEq W] [DecidableEq C] in
/-- Two owners are one owner. -/
theorem StateInv.one_owner {x : S} {L : Ledger G W C S} (hI : StateInv x L) {w w' : W}
    (h : (L.worker w).owning x = 1) (h' : (L.worker w').owning x = 1) : w = w' := by
  classical
  by_contra hne
  have hle : (L.worker w).owning x + (L.worker w').owning x ≤ ∑ w, (L.worker w).owning x :=
    add_le_sum_apply (fun w => (L.worker w).owning x) hne
  have howners := hI.owners
  split at howners <;> omega

omit [DecidableEq G] [DecidableEq W] [DecidableEq C] in
/-- A state that nobody works on is at rest. -/
theorem StateInv.quiescent {x : S} {L : Ledger G W C S} (hI : StateInv x L)
    (h : ∀ w, ¬ (L.worker w).inside x) :
    L.counter x = 0 ∧ L.stateQueue x = [] ∧ L.yielded x = L.given x := by
  have hzero : ∀ w, (L.worker w).adding x = 0 ∧ (L.worker w).popped x = 0 ∧
      (L.worker w).owning x = 0 ∧ (L.worker w).share x = 0 := by
    intro w
    have hw := h w
    cases hpc : L.worker w with
    | statePush p op y => exact ⟨rfl, rfl, rfl, if_neg fun hy => hw (by rw [hpc]; exact hy)⟩
    | stateAdd p y => exact ⟨if_neg fun hy => hw (by rw [hpc]; exact hy), rfl, rfl, rfl⟩
    | statePop p y n =>
      have hy : ¬ y = x := fun hy => hw (by rw [hpc]; exact hy)
      exact ⟨rfl, rfl, if_neg hy, if_neg hy⟩
    | stateExec p y n op =>
      have hy : ¬ y = x := fun hy => hw (by rw [hpc]; exact hy)
      exact ⟨rfl, if_neg hy, if_neg hy, if_neg hy⟩
    | stateSub p y n =>
      have hy : ¬ y = x := fun hy => hw (by rw [hpc]; exact hy)
      exact ⟨rfl, if_neg hy, if_neg hy, if_neg hy⟩
    | _ => exact ⟨rfl, rfl, rfl, rfl⟩
  obtain ⟨hbalance, howners, hgiven⟩ := hI
  rw [(sum_eq_zero_iff_forall _).mpr fun w => (hzero w).2.2.1] at howners
  rw [(sum_eq_zero_iff_forall _).mpr fun w => (hzero w).1,
    (sum_eq_zero_iff_forall _).mpr fun w => (hzero w).2.1] at hbalance
  rw [(sum_eq_zero_iff_forall _).mpr fun w => (hzero w).2.2.2] at hgiven
  have hcounter : L.counter x = 0 := by
    by_contra hne
    rw [if_neg hne] at howners
    omega
  have hlen : (L.stateQueue x).length = 0 := by omega
  refine ⟨hcounter, List.length_eq_zero_iff.mp hlen, ?_⟩
  omega

omit [DecidableEq G] [DecidableEq W] [DecidableEq C] [Fintype W] in
/-- An operation of the state runs on its owner. -/
theorem TypedInv.owning_of_running {x : S} {L : Ledger G W C S} (hT : TypedInv L) {w : W}
    {op : Operation S} (hrun : (L.worker w).running = some op) (hx : op.state = some x) :
    (L.worker w).owning x = 1 := by
  have htyped := hT.worker w
  cases hpc : L.worker w with
  | exec p op' =>
    rw [hpc] at hrun htyped
    obtain rfl := Option.some.inj hrun
    exact absurd (htyped.symm.trans hx) (by simp)
  | cacheExec p op' =>
    rw [hpc] at hrun htyped
    obtain rfl := Option.some.inj hrun
    exact absurd (htyped.symm.trans hx) (by simp)
  | stateExec p y n op' =>
    rw [hpc] at hrun htyped
    obtain rfl := Option.some.inj hrun
    exact if_pos (Option.some.inj (htyped.symm.trans hx))
  | _ =>
    rw [hpc] at hrun
    exact absurd hrun (by simp [WorkerPc.running])

/-- **The operations of a state are serialized and none is left behind**, for every
state, any groups, workers and operations and any interleaving. -/
theorem stateSerialized_of_reachable [Fintype G] [Fintype C] [Fintype S] (tm : Groups G W)
    (s : State G W C S) (hs : (system tm C S).Reachable s) (x : S) : StateSerialized s x := by
  have hI := stateInv_of_reaches hs x
  have hT := typedInv_of_reaches hs
  exact ⟨fun w w' h h' => hI.one_owner h h',
    fun w w' op op' h h' hx hx' =>
      hI.one_owner (hT.owning_of_running h hx) (hT.owning_of_running h' hx'),
    (inv_of_reaches hs).started_le, hI.quiescent⟩

end Main

/-- A task manager with one group of two workers. -/
def twoWorkers : Groups Unit (Fin 2) where
  groups := [()]
  workers := fun _ => [0, 1]
  group := fun _ => ()
  mem_groups := mem_unit
  mem_workers := by decide
  nodup_workers := by decide

/-- A push of a client, without interruption. -/
def pushByClient {W : Type} (state : Option Unit) : List (Action Unit W Unit Unit) :=
  [.push (.inr ()) () state, .pushing (.inr ()), .pushing (.inr ()), .pushing (.inr ()),
    .pushing (.inr ())]

/-- The steps of a worker from the top of its loop to its second access for an operation
of a state. -/
def untilStateAdd (w : Fin 2) : List (Action Unit (Fin 2) Unit Unit) :=
  [.worker w none, .worker w none, .worker w none, .worker w none, .worker w none,
    .worker w (some 0), .worker w none]

/-- Both workers push an operation of the state.  Worker `0` becomes the owner, executes
the operation of worker `1`, which is not counted yet, and leaves with its own operation
in the queue; worker `1` executes that one. -/
def crossing : List (Action Unit (Fin 2) Unit Unit) :=
  pushByClient (some ()) ++ pushByClient (some ()) ++ untilStateAdd 0 ++ untilStateAdd 1 ++
    [.worker 0 none, .worker 0 (some 1), .execReturn 0, .worker 0 none, .worker 1 none,
      .worker 1 none, .worker 1 (some 0), .execReturn 1, .worker 1 none]

theorem stateSerialized_crossing :
    let s := (system twoWorkers Unit Unit).replay initial crossing
    s.executed = [1, 0] ∧ s.yielded () = 2 ∧ StateSerialized s () := by
  exact ⟨by decide, by decide, stateSerialized_of_reachable twoWorkers _
    (TransitionSystem.Reachable.replay (.start rfl) crossing (by decide)) ()⟩

end TaskManager
end ThreadUtils
