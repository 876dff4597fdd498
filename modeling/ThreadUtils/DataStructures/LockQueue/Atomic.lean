import ThreadUtils.DataStructures.LockQueue.Model
import ThreadUtils.Transition.Mutex

/-!
# The queue with a lock is atomic

The mutex makes the accesses of a call to the `std::queue` one step: the access that changes the
queue, or that finds it empty, is the instant at which the call takes effect (`Pc.status`).  So a
history of the queue is one of the atomic queue.  The other way round, a call of the atomic queue
takes effect when a thread of the queue with a lock runs through its critical section on its own.

## Where a call takes effect

A push takes effect when it puts its element into the queue, a pop when it takes the first one out,
or when it finds the queue empty.  A pop makes three accesses, `empty`, `front` and `pop`, and the
answer is only right if nobody comes between them.  `Inv` says that the thread in the critical
section holds the mutex and that what it has read so far is still true (`Pc.Knows`); the second part
is kept by the other threads because they are outside (`Inv.goto`).

## Histories

Not every run of the queue is one of the atomic queue: threads wait for the mutex, and between the
effect of a call and its return others may come.  What the users can tell apart are the calls and
the answers in their order, and there both have the same (`histories_eq_atomic`).  A queue
that is shown to have those histories as well can then take the place of this one.
-/

namespace ThreadUtils
namespace LockQueue

open TransitionSystem (Shows)

variable {ι α : Type*}

/-- The thread is in the critical section. -/
def Pc.holds : Pc α → Prop
  | .pushData _ | .popEmpty | .popFront | .popData _ | .unlock _ => True
  | .idle | .pushLock _ | .popLock | .done _ => False

/-- What a thread in the critical section has found out about the elements. -/
def Pc.Knows (data : List α) : Pc α → Prop
  | .popFront => data ≠ []
  | .popData result => data.head? = some result
  | _ => True

/-- The call of the atomic queue that a thread is in. -/
def Pc.status : Pc α → AtomicObject.Status (QueueCall α) (QueueAnswer α)
  | .idle => .idle
  | .pushLock value | .pushData value => .called (.push value)
  | .popLock | .popEmpty | .popFront | .popData _ => .called .pop
  | .unlock answer | .done answer => .done answer

theorem Pc.Knows.of_outside {pc : Pc α} (hpc : ¬ pc.holds) (data : List α) : pc.Knows data := by
  cases pc with
  | popFront | popData result => exact absurd trivial hpc
  | _ => trivial

/-- The atomic queue that the queue stands for. -/
def State.atomic (s : State ι α) :
    AtomicObject.State ι (List α) (QueueCall α) (QueueAnswer α) :=
  ⟨s.mem.data, fun i => (s.pc i).status⟩

/-- Only the holder of the mutex is in the critical section, and what it knows is true. -/
structure Inv (s : State ι α) : Prop where
  owns : Owns (fun i => (s.pc i).holds) s.mem.mutex
  knows : ∀ i, (s.pc i).Knows s.mem.data

theorem inv_new (ι α : Type*) : Inv (new ι α) :=
  ⟨fun i => ⟨False.elim, fun hnone => by cases hnone⟩, fun _ => trivial⟩

variable [DecidableEq ι] {s s' : State ι α} {i : ι}

omit [DecidableEq ι] in
theorem atomic_status {pc : Pc α} (hpc : s.pc i = pc) : s.atomic.status i = pc.status :=
  congrArg Pc.status hpc

theorem atomic_update (s : State ι α) (i : ι) (m : Mem ι α) (pc : Pc α) :
    State.atomic ⟨m, Function.update s.pc i pc⟩ = s.atomic.set i m.data pc.status := by
  rw [State.atomic, AtomicObject.State.set, AtomicObject.State.mk.injEq]
  refine ⟨rfl, ?_⟩
  ext j
  show (Function.update s.pc i pc j).status = _
  by_cases hj : j = i
  · subst hj
    rw [Function.update_self, Function.update_self]
  · rw [Function.update_of_ne hj, Function.update_of_ne hj]
    rfl

namespace Inv

/-- A thread goes on.  It leaves the elements alone, or it is in the critical section. -/
theorem goto (hI : Inv s) {m : Mem ι α} {pc : Pc α}
    (howns : Owns (fun j => (Function.update s.pc i pc j).holds) m.mutex)
    (hself : pc.Knows m.data) (hdata : m.data = s.mem.data ∨ (s.pc i).holds) :
    Inv ⟨m, Function.update s.pc i pc⟩ := by
  refine ⟨howns, fun j => ?_⟩
  show (Function.update s.pc i pc j).Knows m.data
  by_cases hj : j = i
  · subst hj
    rw [Function.update_self]
    exact hself
  · rw [Function.update_of_ne hj]
    rcases hdata with hsame | hholds
    · rw [hsame]
      exact hI.knows j
    · exact .of_outside (fun hother => hj (hI.owns.unique hother hholds)) _

/-- A step that keeps the mutex. -/
theorem owns_keep (hI : Inv s) {pc : Pc α} (h : pc.holds ↔ (s.pc i).holds) :
    Owns (fun j => (Function.update s.pc i pc j).holds) s.mem.mutex := by
  refine hI.owns.keep fun j => ?_
  by_cases hj : j = i
  · subst hj
    rw [Function.update_self]
    exact h
  · rw [Function.update_of_ne hj]

theorem owns_lock (hI : Inv s) {pc : Pc α} (hfree : s.mem.mutex = none) (h : pc.holds) :
    Owns (fun j => (Function.update s.pc i pc j).holds) (some i) := by
  have howns := hI.owns
  rw [hfree] at howns
  refine howns.acquire ?_ fun j hj => ?_
  · rwa [Function.update_self]
  · rw [Function.update_of_ne hj]

theorem owns_unlock (hI : Inv s) {pc : Pc α} (hin : (s.pc i).holds) (h : ¬ pc.holds) :
    Owns (fun j => (Function.update s.pc i pc j).holds) none := by
  refine hI.owns.release hin ?_ fun j hj => ?_
  · rwa [Function.update_self]
  · rw [Function.update_of_ne hj]

/-- **An access keeps the invariant**, and is a step of the atomic queue or none at all. -/
theorem access (hI : Inv s) {m : Mem ι α} {pc : Pc α}
    (h : s.mem.access i (s.pc i) = some (m, pc)) :
    Inv ⟨m, Function.update s.pc i pc⟩ ∧
      ((atomicQueue α).system ι).Shows AtomicObject.event s.atomic []
        (State.atomic ⟨m, Function.update s.pc i pc⟩) := by
  -- a step that the atomic queue does not make
  have hquiet : m.data = s.mem.data → pc.status = (s.pc i).status →
      ((atomicQueue α).system ι).Shows AtomicObject.event s.atomic []
        (State.atomic ⟨m, Function.update s.pc i pc⟩) := by
    intro hdata hstatus
    have hsame : s.atomic.set i s.mem.data (s.pc i).status = s.atomic := by
      rw [AtomicObject.State.set, AtomicObject.State.mk.injEq]
      exact ⟨rfl, Function.update_eq_self i _⟩
    rw [atomic_update, hdata, hstatus, hsame]
    exact .refl _ _ _
  have hknows := hI.knows i
  cases hpc : s.pc i with
  | idle | done answer =>
    rw [hpc] at h
    cases h
  | pushLock value | popLock =>
    rw [hpc, Mem.access] at h
    split at h
    · next hfree =>
      obtain ⟨rfl, rfl⟩ := Option.some.inj h
      exact ⟨hI.goto (hI.owns_lock hfree trivial) trivial (Or.inl rfl),
        hquiet rfl (by rw [hpc]; rfl)⟩
    · cases h
  | pushData value =>
    rw [hpc] at h
    obtain ⟨rfl, rfl⟩ := Option.some.inj h
    refine ⟨hI.goto (hI.owns_keep (by rw [hpc]; rfl)) trivial (Or.inr (by rw [hpc]; trivial)), ?_⟩
    rw [atomic_update]
    exact AtomicObject.shows_perform (atomic_status hpc) rfl
  | popEmpty =>
    rw [hpc, Mem.access] at h
    cases hdata : s.mem.data with
    | nil =>
      rw [hdata] at h
      obtain ⟨rfl, rfl⟩ := Option.some.inj h
      refine ⟨hI.goto (hI.owns_keep (by rw [hpc]; rfl)) trivial (Or.inl rfl), ?_⟩
      rw [atomic_update]
      refine AtomicObject.shows_perform (atomic_status hpc) ?_
      rw [State.atomic, hdata]
      rfl
    | cons value data =>
      rw [hdata] at h
      obtain ⟨rfl, rfl⟩ := Option.some.inj h
      refine ⟨hI.goto (hI.owns_keep (by rw [hpc]; rfl)) ?_ (Or.inl rfl),
        hquiet rfl (by rw [hpc]; rfl)⟩
      show s.mem.data ≠ []
      rw [hdata]
      exact List.cons_ne_nil _ _
  | popFront =>
    rw [hpc, Mem.access] at h
    split at h
    · cases h
    · next value data hdata =>
      obtain ⟨rfl, rfl⟩ := Option.some.inj h
      refine ⟨hI.goto (hI.owns_keep (by rw [hpc]; rfl)) ?_ (Or.inl rfl),
        hquiet rfl (by rw [hpc]; rfl)⟩
      show s.mem.data.head? = some value
      rw [hdata]
      rfl
  | popData result =>
    rw [hpc] at hknows
    rw [hpc, Mem.access] at h
    split at h
    · cases h
    · next value data hdata =>
      obtain ⟨rfl, rfl⟩ := Option.some.inj h
      have hresult : value = result := by
        rw [Pc.Knows, hdata] at hknows
        exact Option.some.inj hknows
      subst hresult
      refine ⟨hI.goto (hI.owns_keep (by rw [hpc]; rfl)) trivial (Or.inr (by rw [hpc]; trivial)), ?_⟩
      rw [atomic_update]
      refine AtomicObject.shows_perform (atomic_status hpc) ?_
      rw [State.atomic, hdata]
      rfl
  | unlock answer =>
    rw [hpc] at h
    obtain ⟨rfl, rfl⟩ := Option.some.inj h
    exact ⟨hI.goto (hI.owns_unlock (by rw [hpc]; trivial) id) trivial (Or.inl rfl),
      hquiet rfl (by rw [hpc]; rfl)⟩

end Inv

/-- **The queue with a lock is linearizable.** -/
theorem histories_subset_atomic : histories ι α ⊆ (atomicQueue α).histories ι := by
  refine TransitionSystem.histories_subset (R := fun s t => Inv s ∧ t = s.atomic)
    ⟨inv_new ι α, rfl⟩ ?_
  rintro s a s' t ⟨hI, rfl⟩ h
  have hcalled : ∀ (i : ι) (call : QueueCall α) (pc : Pc α), s.pc i = .idle → ¬ pc.holds →
      pc.status = .called call → Inv ⟨s.mem, Function.update s.pc i pc⟩ ∧
        ((atomicQueue α).system ι).Shows AtomicObject.event s.atomic [.call i call]
          (State.atomic ⟨s.mem, Function.update s.pc i pc⟩) := by
    intro i call pc hpc hholds hstatus
    refine ⟨hI.goto (hI.owns_keep ?_) (.of_outside hholds _) (Or.inl rfl), ?_⟩
    · rw [hpc]
      exact ⟨fun hin => (hholds hin).elim, False.elim⟩
    · rw [atomic_update, hstatus]
      exact AtomicObject.shows_call (atomic_status hpc) call
  have heffect := effect_of_step h
  generalize event ⟨s, a, s'⟩ = e at heffect ⊢
  cases heffect with
  | push i value hpc =>
    obtain ⟨hI', hshows⟩ := hcalled i (.push value) (.pushLock value) hpc id rfl
    exact ⟨_, hshows, hI', rfl⟩
  | pop i hpc =>
    obtain ⟨hI', hshows⟩ := hcalled i .pop .popLock hpc id rfl
    exact ⟨_, hshows, hI', rfl⟩
  | access i m pc hr =>
    obtain ⟨hI', hshows⟩ := hI.access hr
    exact ⟨_, hshows, hI', rfl⟩
  | ret i answer hpc =>
    refine ⟨_, ?_, hI.goto (hI.owns_keep ?_) trivial (Or.inl rfl), rfl⟩
    · rw [atomic_update]
      exact AtomicObject.shows_ret (atomic_status hpc)
    · rw [hpc]
      rfl

/-! ## A run of the atomic queue -/

/-- Where a thread is that does not touch the queue now. -/
def entry : AtomicObject.Status (QueueCall α) (QueueAnswer α) → Pc α
  | .idle => .idle
  | .called (.push value) => .pushLock value
  | .called .pop => .popLock
  | .done answer => .done answer

/-- The queue whose threads are outside of the critical section. -/
def ofAtomic (t : AtomicObject.State ι (List α) (QueueCall α) (QueueAnswer α)) : State ι α :=
  ⟨⟨none, t.value⟩, fun i => entry (t.status i)⟩

theorem ofAtomic_set (t : AtomicObject.State ι (List α) (QueueCall α) (QueueAnswer α)) (i : ι)
    (value : List α) (status : AtomicObject.Status (QueueCall α) (QueueAnswer α)) :
    ofAtomic (t.set i value status) =
      ⟨⟨none, value⟩, Function.update (ofAtomic t).pc i (entry status)⟩ := by
  rw [ofAtomic, State.mk.injEq]
  refine ⟨rfl, ?_⟩
  ext j
  show entry (Function.update t.status i status j) = _
  by_cases hj : j = i
  · subst hj
    rw [Function.update_self, Function.update_self]
  · rw [Function.update_of_ne hj, Function.update_of_ne hj]
    rfl

theorem shows_access {m m' : Mem ι α} {pc pc' : Pc α} (h : m.access i pc = some (m', pc'))
    (f : ι → Pc α) : (system ι α).Shows event ⟨m, Function.update f i pc⟩ []
      ⟨m', Function.update f i pc'⟩ := by
  have hstep : (system ι α).step ⟨m, Function.update f i pc⟩ (.access i) =
      some ⟨m', Function.update f i pc'⟩ := by
    show Option.map _ (m.access i (Function.update f i pc i)) = _
    rw [Function.update_self, h, Option.map_some, Function.update_idem]
  exact (Shows.refl _ _ _).quiet hstep rfl

/-- **A thread runs through its critical section on its own.** -/
theorem shows_critical (call : QueueCall α) (data : List α) (i : ι) (f : ι → Pc α) :
    (system ι α).Shows event ⟨⟨none, data⟩, Function.update f i (entry (.called call))⟩ []
      ⟨⟨none, ((atomicQueue α).apply call data).1⟩,
        Function.update f i (.done ((atomicQueue α).apply call data).2)⟩ := by
  cases call with
  | push value =>
    have hlock : (system ι α).Shows event
        ⟨⟨none, data⟩, Function.update f i (.pushLock value)⟩ []
        ⟨⟨some i, data⟩, Function.update f i (.pushData value)⟩ := shows_access rfl f
    exact (hlock.trans (shows_access rfl f)).trans (shows_access rfl f)
  | pop =>
    have hlock : (system ι α).Shows event ⟨⟨none, data⟩, Function.update f i .popLock⟩ []
        ⟨⟨some i, data⟩, Function.update f i .popEmpty⟩ := shows_access rfl f
    cases data with
    | nil => exact (hlock.trans (shows_access rfl f)).trans (shows_access rfl f)
    | cons value data =>
      exact (((hlock.trans (shows_access rfl f)).trans (shows_access rfl f)).trans
        (shows_access rfl f)).trans (shows_access rfl f)

/-- Every history of the atomic queue is one of the queue with a lock. -/
theorem atomic_subset_histories : (atomicQueue α).histories ι ⊆ histories ι α := by
  refine TransitionSystem.histories_subset (R := fun t s => s = ofAtomic t) rfl ?_
  rintro t a t' s rfl h
  refine ⟨ofAtomic t', ?_, rfl⟩
  have hself : ∀ (i : ι) {status : AtomicObject.Status (QueueCall α) (QueueAnswer α)},
      t.status i = status → (ofAtomic t).pc i = entry status := fun i _ hi => congrArg entry hi
  have heffect := AtomicObject.effect_of_step h
  generalize AtomicObject.event ⟨t, a, t'⟩ = e at heffect ⊢
  cases heffect with
  | call i call hi =>
    rw [ofAtomic_set]
    cases call with
    | push value =>
      have hstep : (system ι α).step (ofAtomic t) (.push i value) =
          some { ofAtomic t with pc := Function.update (ofAtomic t).pc i (.pushLock value) } := by
        show step (ofAtomic t) (.push i value) = _
        rw [step, hself i hi]
        rfl
      exact (Shows.refl _ _ _).event hstep rfl
    | pop =>
      have hstep : (system ι α).step (ofAtomic t) (.pop i) =
          some { ofAtomic t with pc := Function.update (ofAtomic t).pc i .popLock } := by
        show step (ofAtomic t) (.pop i) = _
        rw [step, hself i hi]
        rfl
      exact (Shows.refl _ _ _).event hstep rfl
  | perform i call hi =>
    have hcritical := shows_critical call t.value i (ofAtomic t).pc
    rw [← hself i hi, Function.update_eq_self] at hcritical
    rw [ofAtomic_set]
    exact hcritical
  | ret i answer hi =>
    rw [ofAtomic_set]
    have hstep : (system ι α).step (ofAtomic t) (.ret i) =
        some { ofAtomic t with pc := Function.update (ofAtomic t).pc i .idle } := by
      show step (ofAtomic t) (.ret i) = _
      rw [step, hself i hi]
      rfl
    refine (Shows.refl _ _ _).event hstep ?_
    rw [event]
    dsimp only
    rw [hself i hi]
    rfl

/-- **The queue with a lock is the atomic queue**: threads that use it cannot tell the two apart.
-/
theorem histories_eq_atomic (ι α : Type*) [DecidableEq ι] :
    histories ι α = (atomicQueue α).histories ι :=
  Set.Subset.antisymm histories_subset_atomic atomic_subset_histories

end LockQueue
end ThreadUtils
