import ThreadUtils.DataStructures.LockQueue
import ThreadUtils.DataStructures.SizeT
import ThreadUtils.Transition.Accounting
import ThreadUtils.Transition.System

/-!
# The queue with a profile

`TU_ProfiledQueue` counts the elements of an inner queue in `qs` and keeps the largest count in
`mqs`.  Neither counter is updated together with the queue: `push` increments `qs` after the
element can be popped, and `pop` decrements it after the element is gone.  A pop that overtakes
the push of its element takes the counter below zero, where it wraps, and the next push may record
the wrapped value as the largest.

The inner queue is any queue whose calls are atomic.  The durations and `push_count` are read by
`prof_str` only and are left out.  `begun` counts the calls of `push` and is read by no step.

## The balance

At every instant `qs`, with the elements that were put and not counted yet, is the size of the queue
with the elements that were taken and not counted yet (`Inv.balance`).  So the counter is zero at a
decrement, and wraps, exactly when as many pushes are between `queue.push` and `qs.fetch_add` as
there are elements and pops between `queue.pop` and `qs.fetch_sub`; one such pop is the one that
decrements.  `KeepsAhead` says that this is not so, of the state before the step.

Nothing is required of `mqs`: the load and the exchange are not a loop, so that a push may fail to
record its count.  What is recorded is a value that `qs` had, and as long as `qs` does not wrap it
is not more than the pushes that have begun.

* `profile_of_keepsAhead` --- in a run in which no push is overtaken at the moment of a decrement,
  the profile is right.
* `qs_eq_zero_iff` --- a decrement wraps exactly where it is.
-/

namespace ThreadUtils

/-- The inner queue: its calls are atomic, and a `push` that is refused leaves it. -/
structure AtomicQueue (Q α : Type*) where
  empty : Q
  push : Q → α → Option Q
  pop : Q → Option α × Q
  /-- The number of elements. -/
  size : Q → ℕ
  size_empty : size empty = 0
  size_push : ∀ q value q', push q value = some q' → size q' = size q + 1
  size_pop_some : ∀ q value, (pop q).1 = some value → size q = size (pop q).2 + 1
  size_pop_none : ∀ q, (pop q).1 = none → size (pop q).2 = size q

/-- `TU_LockQueue`. -/
def AtomicQueue.lockQueue (α : Type*) : AtomicQueue (List α) α where
  empty := []
  push data value := some (LockQueue.push data value)
  pop := LockQueue.pop
  size := List.length
  size_empty := rfl
  size_push data value q' h := by
    obtain rfl := Option.some.inj h
    exact List.length_append
  size_pop_some data value h := by
    cases data with
    | nil => cases h
    | cons _ _ => rfl
  size_pop_none data h := by
    cases data with
    | nil => rfl
    | cons _ _ => cases h

namespace ProfiledQueue

variable {ι Q α : Type*}

/-- The next access of a thread. -/
inductive Pc (α : Type*) where
  /-- Outside, with what the last `pop` returned. -/
  | idle (result : Option α)
  /-- `queue.push(..)`. -/
  | push (data : α)
  /-- `qs.fetch_add(1)`. -/
  | fetchAdd
  /-- `mqs.load()`. -/
  | load (newQs : ℕ)
  /-- `mqs.compare_exchange_weak(old_mqs, new_qs)`. -/
  | exchange (oldMqs newQs : ℕ)
  /-- `queue.pop(result)`. -/
  | pop
  /-- `qs.fetch_sub(1)`. -/
  | fetchSub (result : α)
  deriving DecidableEq

/-- A profiled queue with its threads. -/
structure State (ι Q α : Type*) where
  queue : Q
  qs : ℕ
  mqs : ℕ
  pc : ι → Pc α
  /-- The pushes that have begun. -/
  begun : ℕ

/-- A call, or the next access of a thread.  `weak` lets a `compare_exchange_weak` fail. -/
inductive Action (ι α : Type*) where
  | call (i : ι) (call : QueueCall α)
  | step (i : ι) (weak : Bool)

/-- A new queue. -/
def initial (T : AtomicQueue Q α) : State ι Q α :=
  ⟨T.empty, 0, 0, fun _ => .idle none, 0⟩

variable [DecidableEq ι]

/-- The thread `i` goes to `pc`. -/
def State.goto (s : State ι Q α) (i : ι) (pc : Pc α) : State ι Q α :=
  { s with pc := Function.update s.pc i pc }

/-- The next access of a thread inside `push` or `pop`. -/
def stepThread (T : AtomicQueue Q α) (s : State ι Q α) (i : ι) (weak : Bool) :
    Option (State ι Q α) :=
  match s.pc i with
  | .idle _ => none
  | .push data => some ({ s with queue := (T.push s.queue data).getD s.queue }.goto i .fetchAdd)
  | .fetchAdd => some
      ({ s with qs := addSizeT s.qs 1 }.goto i (.load (addSizeT s.qs 1)))
  | .load newQs =>
      some (s.goto i (if s.mqs < newQs then .exchange s.mqs newQs else .idle none))
  | .exchange oldMqs newQs =>
      if s.mqs = oldMqs ∧ weak = false then some ({ s with mqs := newQs }.goto i (.idle none))
      else some (s.goto i (.idle none))
  | .pop =>
      let r := T.pop s.queue
      some ({ s with queue := r.2 }.goto i (match r.1 with
        | some result => .fetchSub result
        | none => .idle none))
  | .fetchSub result => some ({ s with qs := subSizeT s.qs 1 }.goto i (.idle (some result)))

def step (T : AtomicQueue Q α) (s : State ι Q α) : Action ι α → Option (State ι Q α)
  | .call i call =>
      match s.pc i, call with
      | .idle _, .push data => some ({ s with begun := s.begun + 1 }.goto i (.push data))
      | .idle _, .pop => some (s.goto i .pop)
      | _, _ => none
  | .step i weak => stepThread T s i weak

def system (ι : Type*) [DecidableEq ι] (T : AtomicQueue Q α) :
    TransitionSystem (State ι Q α) (Action ι α) where
  init s := s = initial T
  step := step T

/-! ## The profile -/

/-- A push that has put its element and not counted it yet. -/
def Pc.uncounted : Pc α → ℕ
  | .fetchAdd => 1
  | _ => 0

/-- A pop that has taken its element and not counted it yet. -/
def Pc.taken : Pc α → ℕ
  | .fetchSub _ => 1
  | _ => 0

/-- A push that has begun and not counted its element yet. -/
def Pc.pushing : Pc α → ℕ
  | .push _ | .fetchAdd => 1
  | _ => 0

/-- No call is in flight. -/
def State.Quiet (s : State ι Q α) : Prop :=
  ∀ i, ∃ result, s.pc i = .idle result

/-- The thread is at `qs.fetch_sub(1)`. -/
def State.Decrements (s : State ι Q α) : Action ι α → Prop
  | .step i _ => (s.pc i).taken = 1
  | .call _ _ => False

/-- The profile after a step, and in the step: `mqs` is at most the number of the pushes, `qs` is
not decremented below zero, and without calls it is the number of the elements. -/
def ProfileRight (T : AtomicQueue Q α)
    (t : TransitionSystem.Transition (State ι Q α) (Action ι α)) : Prop :=
  t.target.mqs ≤ t.target.begun ∧ (t.source.Decrements t.action → 0 < t.source.qs) ∧
    (t.target.Quiet → t.target.qs = T.size t.target.queue)

variable [Fintype ι]

/-- The pushes between `queue.push` and `qs.fetch_add`. -/
def State.uncounted (s : State ι Q α) : ℕ :=
  ∑ i, (s.pc i).uncounted

/-- The pops between `queue.pop` and `qs.fetch_sub`. -/
def State.taken (s : State ι Q α) : ℕ :=
  ∑ i, (s.pc i).taken

/-- A step keeps the counter ahead.  The inner queue does not refuse an element; an increment does
not reach the bound of `size_t`; and at a decrement, fewer pushes are between `queue.push` and
`qs.fetch_add` than there are elements in the queue and pops between `queue.pop` and
`qs.fetch_sub`. -/
def KeepsAhead (T : AtomicQueue Q α) (s : State ι Q α) : Action ι α → Prop
  | .call _ _ => True
  | .step i _ =>
      match s.pc i with
      | .push data => (T.push s.queue data).isSome
      | .fetchAdd => T.size s.queue + s.taken < sizeT
      | .fetchSub _ => s.uncounted < T.size s.queue + s.taken
      | _ => True

/-- The pushes that have begun and not counted their element. -/
def State.pushing (s : State ι Q α) : ℕ :=
  ∑ i, (s.pc i).pushing

variable {T : AtomicQueue Q α} {s s' : State ι Q α}

/-! ## The invariant -/

/-- The value that a push may still write to `mqs`. -/
def Pc.newQs : Pc α → ℕ
  | .load newQs | .exchange _ newQs => newQs
  | _ => 0

/-- The counter accounts for the elements, and no push has seen more of them than have begun. -/
structure Inv (T : AtomicQueue Q α) (s : State ι Q α) : Prop where
  balance : s.qs + s.uncounted = T.size s.queue + s.taken
  begun : s.qs + s.pushing ≤ s.begun
  mqs : s.mqs ≤ s.begun
  newQs : ∀ i, (s.pc i).newQs ≤ s.begun
  lt : s.qs < sizeT

omit [DecidableEq ι] in
theorem inv_initial : Inv T (initial T : State ι Q α) where
  balance := by
    simp [initial, State.uncounted, State.taken, Pc.uncounted, Pc.taken, T.size_empty]
  begun := by simp [initial, State.pushing, Pc.pushing]
  mqs := Nat.zero_le _
  newQs _ := Nat.zero_le _
  lt := by
    rw [sizeT_eq]
    exact Nat.zero_lt_succ _

/-- A thread that moves exchanges its shares of the three sums. -/
theorem goto_sums (s : State ι Q α) (i : ι) (pc : Pc α) :
    (s.goto i pc).uncounted + (s.pc i).uncounted = s.uncounted + pc.uncounted ∧
      (s.goto i pc).taken + (s.pc i).taken = s.taken + pc.taken ∧
      (s.goto i pc).pushing + (s.pc i).pushing = s.pushing + pc.pushing :=
  ⟨sum_update_exchange Pc.uncounted s.pc i pc, sum_update_exchange Pc.taken s.pc i pc,
    sum_update_exchange Pc.pushing s.pc i pc⟩

/-- A thread moves, and the state it leaves has changed only in what its access does. -/
theorem Inv.goto (hI : Inv T s) {i : ι} {old pc : Pc α} (hpc : s.pc i = old) {queue : Q}
    {qs mqs begun : ℕ}
    (hbalance : qs + pc.uncounted + (T.size s.queue + old.taken) =
      T.size queue + pc.taken + (s.qs + old.uncounted))
    (hbegun : qs + pc.pushing + s.begun ≤ begun + (s.qs + old.pushing))
    (hle : s.begun ≤ begun) (hmqs : mqs ≤ begun) (hnew : pc.newQs ≤ begun) (hlt : qs < sizeT) :
    Inv T (({ s with queue := queue, qs := qs, mqs := mqs, begun := begun } :
      State ι Q α).goto i pc) := by
  obtain ⟨huncounted, htaken, hpushing⟩ := goto_sums s i pc
  rw [hpc] at huncounted htaken hpushing
  have hold := hI.balance
  have holdbegun := hI.begun
  refine ⟨?_, ?_, hmqs, ?_, hlt⟩
  · change qs + (s.goto i pc).uncounted = T.size queue + (s.goto i pc).taken
    omega
  · change qs + (s.goto i pc).pushing ≤ begun
    omega
  · exact forall_update (P := fun _ (pc : Pc α) => pc.newQs ≤ begun)
      (fun j => (hI.newQs j).trans hle) hnew

/-- An access that counts nothing: the shares of the thread stay, and so does the size. -/
theorem Inv.keep (hI : Inv T s) {i : ι} {old pc : Pc α} (hpc : s.pc i = old) {queue : Q} {mqs : ℕ}
    (hsize : T.size queue = T.size s.queue) (huncounted : pc.uncounted = old.uncounted)
    (htaken : pc.taken = old.taken) (hpushing : pc.pushing = old.pushing) (hmqs : mqs ≤ s.begun)
    (hnew : pc.newQs ≤ s.begun) :
    Inv T (({ s with queue := queue, mqs := mqs } : State ι Q α).goto i pc) :=
  hI.goto hpc (by omega) (by omega) le_rfl hmqs hnew hI.lt

omit [DecidableEq ι] in
/-- The counter at a decrement, in terms of the calls in flight. -/
theorem Inv.pos_iff (hI : Inv T s) : 0 < s.qs ↔ s.uncounted < T.size s.queue + s.taken := by
  have hbalance := hI.balance
  omega

omit [DecidableEq ι] in
/-- An increment does not wrap as long as the elements are fewer than the values of `size_t`. -/
theorem Inv.addSizeT_qs (hI : Inv T s) {i : ι} (hpc : s.pc i = .fetchAdd)
    (hlt : T.size s.queue + s.taken < sizeT) : addSizeT s.qs 1 = s.qs + 1 := by
  have hone : (s.pc i).uncounted ≤ s.uncounted := le_sum_apply (fun j => (s.pc j).uncounted) i
  rw [hpc, Pc.uncounted] at hone
  have hbalance := hI.balance
  exact addSizeT_of_lt (by omega)

/-- **An access** of a thread keeps the invariant when it keeps the counter ahead. -/
theorem Inv.stepThread (hI : Inv T s) {i : ι} {weak : Bool} (hok : KeepsAhead T s (.step i weak))
    (h : stepThread T s i weak = some s') : Inv T s' := by
  have hbegun := hI.begun
  have hnewQs := hI.newQs i
  unfold KeepsAhead at hok
  unfold ProfiledQueue.stepThread at h
  dsimp only at hok
  cases hpc : s.pc i with
  | idle result =>
    rw [hpc] at h
    cases h
  | push data =>
    rw [hpc] at h hok
    obtain rfl := Option.some.inj h
    obtain ⟨q', hq'⟩ := Option.isSome_iff_exists.mp hok
    have hsize := T.size_push _ _ _ hq'
    rw [hq', Option.getD_some]
    refine hI.goto hpc ?_ ?_ le_rfl hI.mqs (Nat.zero_le _) hI.lt
    · dsimp only [Pc.uncounted, Pc.taken]
      omega
    · dsimp only [Pc.pushing]
      omega
  | fetchAdd =>
    rw [hpc] at h hok
    have hadd := hI.addSizeT_qs hpc hok
    obtain rfl := Option.some.inj h
    have hone : (s.pc i).pushing ≤ s.pushing := le_sum_apply (fun j => (s.pc j).pushing) i
    rw [hpc, Pc.pushing] at hone
    rw [hadd]
    refine hI.goto hpc ?_ ?_ le_rfl hI.mqs ?_ ?_
    · dsimp only [Pc.uncounted, Pc.taken]
      omega
    · dsimp only [Pc.pushing]
      omega
    · rw [Pc.newQs]
      omega
    · rw [← hadd]
      exact Nat.mod_lt _ (by rw [sizeT_eq]; exact Nat.zero_lt_succ _)
  | load newQs =>
    rw [hpc] at h hnewQs
    obtain rfl := Option.some.inj h
    split
    · exact hI.keep hpc rfl rfl rfl rfl hI.mqs hnewQs
    · exact hI.keep hpc rfl rfl rfl rfl hI.mqs (Nat.zero_le _)
  | exchange oldMqs newQs =>
    rw [hpc] at h hnewQs
    dsimp only at h
    split at h
    · obtain rfl := Option.some.inj h
      exact hI.keep hpc rfl rfl rfl rfl hnewQs (Nat.zero_le _)
    · obtain rfl := Option.some.inj h
      exact hI.keep hpc rfl rfl rfl rfl hI.mqs (Nat.zero_le _)
  | pop =>
    rw [hpc] at h
    obtain rfl := Option.some.inj h
    cases hr : (T.pop s.queue).1 with
    | some result =>
      have hsize := T.size_pop_some _ _ hr
      refine hI.goto hpc ?_ ?_ le_rfl hI.mqs (Nat.zero_le _) hI.lt
      · dsimp only [Pc.uncounted, Pc.taken]
        omega
      · dsimp only [Pc.pushing]
        omega
    | none =>
      exact hI.keep hpc (T.size_pop_none _ hr) rfl rfl rfl hI.mqs (Nat.zero_le _)
  | fetchSub result =>
    rw [hpc] at h hok
    have hpos := hI.pos_iff.mpr hok
    have hlt := hI.lt
    have hsub : subSizeT s.qs 1 = s.qs - 1 := subSizeT_of_le hpos hI.lt
    obtain rfl := Option.some.inj h
    rw [hsub]
    refine hI.goto hpc ?_ ?_ le_rfl hI.mqs (Nat.zero_le _) (by omega)
    · dsimp only [Pc.uncounted, Pc.taken]
      omega
    · dsimp only [Pc.pushing]
      omega

theorem inv_step (hI : Inv T s) {a : Action ι α} (hok : KeepsAhead T s a)
    (h : step T s a = some s') : Inv T s' := by
  cases a with
  | step i weak => exact hI.stepThread hok h
  | call i call =>
    unfold step at h
    dsimp only at h
    have hmqs := hI.mqs
    cases hpc : s.pc i with
    | idle result =>
      rw [hpc] at h
      cases call with
      | push data =>
        obtain rfl := Option.some.inj h
        refine hI.goto hpc ?_ ?_ (Nat.le_succ _) (Nat.le_succ_of_le hmqs) (Nat.zero_le _) hI.lt
        · dsimp only [Pc.uncounted, Pc.taken]
          omega
        · dsimp only [Pc.pushing]
          omega
      | pop =>
        obtain rfl := Option.some.inj h
        exact hI.keep hpc rfl rfl rfl rfl hmqs (Nat.zero_le _)
    | _ =>
      rw [hpc] at h
      cases h

omit [DecidableEq ι] in
/-- Without calls in flight the counter is the number of the elements. -/
theorem Inv.quiet (hI : Inv T s) (hquiet : s.Quiet) : s.qs = T.size s.queue := by
  have huncounted : s.uncounted = 0 := (sum_eq_zero_iff_forall _).mpr fun i => by
    obtain ⟨result, hpc⟩ := hquiet i
    rw [hpc]
    rfl
  have htaken : s.taken = 0 := (sum_eq_zero_iff_forall _).mpr fun i => by
    obtain ⟨result, hpc⟩ := hquiet i
    rw [hpc]
    rfl
  have hbalance := hI.balance
  omega

omit [DecidableEq ι] in
/-- At a decrement the counter has not reached zero. -/
theorem Inv.decrements (hI : Inv T s) {a : Action ι α} (hok : KeepsAhead T s a)
    (hdec : s.Decrements a) : 0 < s.qs := by
  cases a with
  | call i call => exact hdec.elim
  | step i weak =>
    unfold KeepsAhead at hok
    unfold State.Decrements at hdec
    dsimp only at hok hdec
    cases hpc : s.pc i with
    | fetchSub result =>
      rw [hpc] at hok
      exact hI.pos_iff.mpr hok
    | _ =>
      rw [hpc] at hdec
      cases hdec

/-! ## The theorem -/

theorem inv_of_reaches (hs : (system ι T).Reaches (KeepsAhead T) s) : Inv T s := by
  refine hs.invariant ?_ fun s a s' _ hI hok h => inv_step hI hok h
  rintro s rfl
  exact inv_initial

/-- **A decrement finds the counter at zero**, and wraps it, exactly when as many pushes are
between `queue.push` and `qs.fetch_add` as there are elements in the queue and pops between
`queue.pop` and `qs.fetch_sub`. -/
theorem qs_eq_zero_iff (hs : (system ι T).Reaches (KeepsAhead T) s) {i : ι} {result : α}
    (hpc : s.pc i = .fetchSub result) (weak : Bool) :
    s.qs = 0 ↔ ¬ KeepsAhead T s (.step i weak) := by
  unfold KeepsAhead
  dsimp only
  rw [hpc, ← (inv_of_reaches hs).pos_iff]
  omega

/-- **The profile is right** in every run whose steps keep the counter ahead. -/
theorem profile_of_keepsAhead
    {trace : List (TransitionSystem.Transition (State ι Q α) (Action ι α))}
    (p : (system ι T).Path (KeepsAhead T) (initial T) trace s) :
    ∀ t ∈ trace, ProfileRight T t := by
  refine (p.invariant (I := fun trace s => (∀ t ∈ trace, ProfileRight T t) ∧ Inv T s)
    ⟨fun _ ht => absurd ht List.not_mem_nil, inv_initial⟩ ?_).1
  rintro trace u a u' ⟨hright, hI⟩ hok hstep
  have hI' := inv_step hI hok hstep
  refine ⟨fun t ht => ?_, hI'⟩
  rcases List.mem_append.mp ht with ht | ht
  · exact hright t ht
  · rw [List.mem_singleton.mp ht]
    exact ⟨hI'.mqs, hI.decrements hok, hI'.quiet⟩

instance (s : State ι Q α) (a : Action ι α) : Decidable (KeepsAhead T s a) := by
  unfold KeepsAhead
  split
  · infer_instance
  · split <;> infer_instance

/-- A pop takes the element of a push and is counted before it; another element is there. -/
def counted : List (Action (Fin 3) ℕ) :=
  [.call 0 (.push 10), .step 0 false, .step 0 false, .call 1 (.push 11), .step 1 false,
    .call 2 .pop, .step 2 false, .step 2 false, .step 1 false, .step 0 false, .step 1 false,
    .step 0 false, .step 1 true]

theorem profile_counted :
    let trace := (system (Fin 3) (AtomicQueue.lockQueue ℕ)).traceOf (initial (.lockQueue ℕ)) counted
    trace.length = counted.length ∧ ∀ t ∈ trace, ProfileRight (.lockQueue ℕ) t :=
  ⟨by decide, profile_of_keepsAhead (TransitionSystem.Path.replayWithin counted (by decide))⟩

/-- Two pops take the elements of two pushes before these are counted. -/
def overtaken : List (Action (Fin 4) ℕ) :=
  [.call 0 (.push 10), .step 0 false, .call 1 (.push 11), .step 1 false, .call 2 .pop,
    .step 2 false, .call 3 .pop, .step 3 false, .step 2 false, .step 3 false, .step 0 false,
    .step 0 false, .step 0 false]

/-- **The profile is nonsense**: after two pushes the largest size is `2 ^ 64 - 1`. -/
theorem not_profileRight_overtaken : ∃ trace s,
    (system (Fin 4) (AtomicQueue.lockQueue ℕ)).Path (fun _ _ => True) (initial (.lockQueue ℕ)) trace
      s ∧ s.begun = 2 ∧ s.mqs = 2 ^ 64 - 1 ∧ ¬ ∀ t ∈ trace, ProfileRight (.lockQueue ℕ) t := by
  refine ⟨_, _, TransitionSystem.Path.replay overtaken (by decide), by decide, by decide,
    fun hright => ?_⟩
  have hmqs : ¬ ∀ t ∈ (system (Fin 4) (AtomicQueue.lockQueue ℕ)).traceOf
      (initial (.lockQueue ℕ)) overtaken, t.target.mqs ≤ t.target.begun := by
    decide
  exact hmqs fun t ht => (hright t ht).1

end ProfiledQueue
end ThreadUtils
