import ThreadUtils.DataStructures.LockFreeQueue.Refinement
import ThreadUtils.DataStructures.LockFreeQueue.Sequential
import ThreadUtils.DataStructures.LockQueue.Atomic

/-!
# A replacement for the queue with a lock

Threads that use `TU_LockFreeQueue` cannot tell it from `TU_LockQueue`: with fewer than `2 ^ 64`
calls the two have the same histories, those of the atomic queue.

## From the queue to the atomic queue

A push takes effect with the exchange of `next` and a pop with the exchange of `head_`.  A pop that
fails has no such access.  It answers by the `next` that it loaded some time ago, and whether it may
do so is decided by the comparison with `head_` that follows: when it loads the end mark the list is
empty, but only the comparison tells that the node it has read from was the dummy.  So the effect of
this pop lies in the past when the thread learns of it.

The usual way around it is to look ahead in the run.  Here `Possible` keeps the answers that
a call may still give: the pops that have loaded the end mark, and whose `head_` is not outdated,
are those whose answer `empty` is noted (`Watching`).  A pop whose comparison succeeds gives the
answer that was noted; for a pop whose comparison fails the note is dropped and nothing was said.
That only the exchange of `head_` can drop it is what makes a note true as long as it stands.

## The other way round

A call of the atomic queue takes effect when a thread makes all accesses of its call, while the
others wait before theirs (`Resting`).  An undisturbed thread comes to its return, with the effect
and the answer of the list (`Resting.perform`), so every history of the atomic queue is one of the
lock-free queue.

The histories of the queue with a lock are those of the atomic queue, and the two inclusions
together are `mem_histories_iff_lockQueue`.
-/

namespace ThreadUtils
namespace LockFreeQueue

open AtomicObject (Status)
open LockQueue (Event atomicQueue)
open TransitionSystem (Shows Transition)

variable {ι : Type*} {α : Type*}

/-! ## What the threads see -/

/-- What is seen of a step. -/
def event (t : Transition (State ι α) (Action ι α)) : Option (Event ι α) :=
  match t.action with
  | .push i value => some (.call i (.push value))
  | .pop i => some (.call i .pop)
  | .access _ _ => none
  | .ret i =>
      match t.source.pc i with
      | .pushDone => some (.ret i .pushed)
      | .popTrue result => some (.ret i (.popped result))
      | .popFalse => some (.ret i .empty)
      | _ => none

/-- The histories of the queue from the state `s`. -/
def histories [DecidableEq ι] (s : State ι α) : Set (List (Event ι α)) :=
  (system ι α).Histories event s

/-- The call of the atomic queue that a thread is in, by what it has done to the list. -/
def Phase.status : Phase α → Status (QueueCall α) (QueueAnswer α)
  | .outside => .idle
  | .pushing value => .called (.push value)
  | .pushed => .done .pushed
  | .popping => .called .pop
  | .popped result => .done (.popped result)

/-- The call of the atomic queue that a thread is in. -/
def Pc.status : Pc α → Status (QueueCall α) (QueueAnswer α)
  | .popFalse => .done .empty
  | pc => pc.phase.status

/-- The atomic queue that the queue stands for. -/
def State.atomic (s : State ι α) :
    AtomicObject.State ι (List α) (QueueCall α) (QueueAnswer α) :=
  ⟨s.mem.contents, fun i => (s.pc i).status⟩

/-- The pop has met the end of the list, and no other pop has moved `head_` since it began. -/
def Watching (s : State ι α) (i : ι) : Prop :=
  Current s i ∧ s.pc i ≠ .popFalse

/-- The answers that are noted: the pops that watch may fail. -/
def watch (s : State ι α) (i : ι) (answer : QueueAnswer α) : Prop :=
  answer = .empty ∧ Watching s i

/-- The answers that are noted for the other threads. -/
def watchOthers (s : State ι α) (i j : ι) (answer : QueueAnswer α) : Prop :=
  j ≠ i ∧ watch s j answer

variable {s s' : State ι α} {i : ι}

/-- A pop that watches is at the comparison with `head_`. -/
theorem Watching.pc (hw : Watching s i) : ∃ head tail next, s.pc i = .popCheck head tail next := by
  obtain ⟨hcur, hne⟩ := hw
  unfold Current at hcur
  cases hpc : s.pc i with
  | popCheck head tail next => exact ⟨head, tail, next, rfl⟩
  | popFalse => exact absurd hpc hne
  | _ =>
    rw [hpc] at hcur
    exact hcur.elim

theorem Watching.status (hw : Watching s i) : s.atomic.status i = .called .pop := by
  obtain ⟨head, tail, next, hpc⟩ := hw.pc
  show (s.pc i).status = _
  rw [hpc]
  rfl

variable [DecidableEq ι]

theorem atomic_update (s : State ι α) (i : ι) (m : Mem α) (pc : Pc α) (n : ℕ) :
    State.atomic ⟨m, Function.update s.pc i pc, n⟩ = s.atomic.set i m.contents pc.status := by
  rw [State.atomic, AtomicObject.State.set, AtomicObject.State.mk.injEq]
  refine ⟨rfl, ?_⟩
  ext j
  show (Function.update s.pc i pc j).status = _
  by_cases hj : j = i
  · subst hj
    rw [Function.update_self, Function.update_self]
  · rw [Function.update_of_ne hj, Function.update_of_ne hj]
    rfl

/-! ## The access that takes effect -/

/-- What an access means for the atomic queue. -/
inductive Meaning (m : Mem α) (pc : Pc α) (r : Mem α × Pc α) : Prop
  /-- Nothing. -/
  | quiet : pc.event r.2 = none → r.2.status = pc.status → Meaning m pc r
  /-- The pop fails. -/
  | fails (head tail next : NodePtr) : pc = .popCheck head tail next → head = tail →
      next.ptr = none → m.head_ = head → r = (m, .popFalse) → Meaning m pc r
  /-- The call has its effect. -/
  | enqueues (value : α) : pc.event r.2 = some (.enqueue value) →
      pc.status = .called (.push value) → r.2.status = .done .pushed → Meaning m pc r
  | dequeues (value : α) : pc.event r.2 = some (.dequeue value) →
      pc.status = .called .pop → r.2.status = .done (.popped value) → Meaning m pc r

theorem status_of_phase {pc : Pc α} (hne : pc ≠ .popFalse) : pc.status = pc.phase.status := by
  cases pc with
  | popFalse => exact absurd rfl hne
  | _ => rfl

/-- Only the comparison with `head_` ends in a failure. -/
theorem eq_popCheck_of_popFalse {m : Mem α} {c : Choice} {pc : Pc α} {r : Mem α × Pc α}
    (h : m.access c pc = some r) (hr : r.2 = .popFalse) : ∃ head tail next,
      pc = .popCheck head tail next ∧ head = tail ∧ next.ptr = none ∧ m.head_ = head ∧
        r = (m, .popFalse) := by
  cases pc with
  | popCheck head tail next =>
    rw [Mem.access] at h
    split at h
    · next hhead =>
      split at h
      · next htail =>
        split at h
        · next hnone =>
          obtain rfl := Option.some.inj h
          exact ⟨head, tail, next, rfl, htail, hnone, hhead.symm, rfl⟩
        · obtain rfl := Option.some.inj h
          cases hr
      · obtain rfl := Option.some.inj h
        cases hr
    · obtain rfl := Option.some.inj h
      cases hr
  | _ =>
    simp only [Mem.access, Option.map_eq_some_iff] at h
    grind

/-- **The meaning of an access.** -/
theorem meaning_of_access {m : Mem α} {c : Choice} {pc : Pc α} {r : Mem α × Pc α}
    (h : m.access c pc = some r) : Meaning m pc r := by
  by_cases hfalse : r.2 = .popFalse
  · obtain ⟨head, tail, next, hpc, htail, hnext, hhead, hr⟩ := eq_popCheck_of_popFalse h hfalse
    exact .fails head tail next hpc htail hnext hhead hr
  have hne : pc ≠ .popFalse := by
    rintro rfl
    cases h
  have hstatus := status_of_phase hne
  have hstatus' := status_of_phase hfalse
  cases hphase : pc.phase with
  | outside =>
    cases pc with
    | idle => cases h
    | _ => cases hphase
  | pushing value =>
    have hd : (Call.push value).Done pc.phase [] := by
      rw [hphase]
      exact ⟨rfl, rfl⟩
    have hd' := hd.access h
    rw [hphase] at hstatus
    cases hphase' : r.2.phase with
    | pushing value' =>
      rw [hphase'] at hd' hstatus'
      obtain ⟨rfl, hnil⟩ := hd'
      exact .quiet (Option.toList_eq_nil_iff.mp hnil) (hstatus'.trans hstatus.symm)
    | pushed =>
      rw [hphase'] at hd' hstatus'
      exact .enqueues value (Option.toList_eq_singleton_iff.mp hd') hstatus hstatus'
    | _ =>
      rw [hphase'] at hd'
      exact hd'.elim
  | pushed =>
    cases pc with
    | pushSwing node tail =>
      rw [Mem.access] at h
      split at h <;> obtain rfl := Option.some.inj h <;> exact .quiet rfl rfl
    | pushDone => cases h
    | _ => cases hphase
  | popping =>
    have hd : Call.pop.Done pc.phase [] := by
      rw [hphase]
      rfl
    have hd' := hd.access h
    rw [hphase] at hstatus
    cases hphase' : r.2.phase with
    | popping =>
      rw [hphase'] at hd' hstatus'
      exact .quiet (Option.toList_eq_nil_iff.mp hd') (hstatus'.trans hstatus.symm)
    | popped result =>
      rw [hphase'] at hd' hstatus'
      exact .dequeues result (Option.toList_eq_singleton_iff.mp hd') hstatus hstatus'
    | _ =>
      rw [hphase'] at hd'
      exact hd'.elim
  | popped result =>
    have hd : Call.pop.Done pc.phase [.dequeue result] := by
      rw [hphase]
      rfl
    have hd' := hd.access h
    rw [hphase] at hstatus
    cases hphase' : r.2.phase with
    | popped result' =>
      rw [hphase'] at hd' hstatus'
      obtain ⟨heq, hnil⟩ := List.cons.inj (show _ = [FifoEvent.dequeue result'] from hd')
      obtain rfl := FifoEvent.dequeue.inj heq
      exact .quiet (Option.toList_eq_nil_iff.mp hnil) (hstatus'.trans hstatus.symm)
    | popping =>
      rw [hphase'] at hd'
      cases hd'
    | _ =>
      rw [hphase'] at hd'
      exact hd'.elim

/-! ## The histories of the queue -/

/-- A thread that is outside of a call before or after a step has at most begun a call. -/
theorem pc_of_outside {a : Action ι α} (h : step s a = some s')
    (hout : s.pc i = .idle ∨ a = .ret i) : s'.pc i = .idle ∨ ∃ call, s'.pc i = Call.entry call := by
  rcases step_cases h with ⟨j, call, rfl, -, rfl⟩ | ⟨j, c, r, rfl, hr, rfl⟩ | ⟨j, rfl, -, rfl⟩
  · show Function.update s.pc j call.entry i = _ ∨ ∃ call', Function.update s.pc j call.entry i = _
    rw [Function.update_apply]
    split
    · exact Or.inr ⟨call, rfl⟩
    · refine Or.inl (hout.resolve_right fun hret => ?_)
      cases call <;> cases hret
  · show Function.update s.pc j r.2 i = _ ∨ _
    have hidle := hout.resolve_right (by simp)
    have hij : i ≠ j := by
      rintro rfl
      rw [hidle] at hr
      cases hr
    rw [Function.update_of_ne hij]
    exact Or.inl hidle
  · show Function.update s.pc j .idle i = _ ∨ _
    rw [Function.update_apply]
    split
    · exact Or.inl rfl
    · next hij =>
      refine Or.inl (hout.resolve_right fun hret => hij ?_)
      cases hret
      rfl

/-- A pop that watches did so before, or the list is empty now. -/
theorem Watching.of_step [Fintype ι] {chain : List ℕ} {a : Action ι α} (hI : Inv s chain)
    (hb : s'.calls < sizeT) (h : step s a = some s') (hw : Watching s' i) :
    Watching s i ∨ s'.mem.contents = [] := by
  obtain ⟨head, tail, next, hpc⟩ := hw.pc
  have hin : ¬ (s.pc i = .idle ∨ a = .ret i) := by
    intro hout
    rcases pc_of_outside h hout with hidle | ⟨call, hentry⟩
    · rw [hidle] at hpc
      cases hpc
    · rw [hentry] at hpc
      cases call <;> cases hpc
  obtain ⟨hidle, hret⟩ := not_or.mp hin
  refine (Current.of_step hI hb h hret hidle hw.1).imp_left fun hcur => ⟨hcur, fun hfalse => ?_⟩
  rcases pc_of_step i h hret hidle with ⟨hsame, -⟩ | ⟨c, r, -, hr, -⟩
  · rw [hsame, hfalse] at hpc
    cases hpc
  · rw [hfalse] at hr
    cases hr

/-- After a step the pops that watch are noted: they watched before, or the list is empty. -/
theorem possible_watch [Fintype ι] {h : List (Event ι α)} (noted : ι → QueueAnswer α → Prop)
    (hP : (atomicQueue α).Possible h s.atomic noted)
    (hnew : ∀ j, Watching s j → noted j .empty ∨ s.mem.contents = []) :
    (atomicQueue α).Possible h s.atomic (watch s) := by
  refine hP.look fun j answer hj => ?_
  obtain ⟨rfl, hw⟩ := hj
  refine (hnew j hw).imp_right fun hempty => ⟨.pop, hw.status, ?_⟩
  show (atomicQueue α).apply .pop s.mem.contents = (s.mem.contents, .empty)
  rw [hempty]
  rfl

theorem Call.entry_ne (call : Call α) (head tail next : NodePtr) :
    call.entry ≠ .popCheck head tail next := by
  cases call <;> exact fun heq => by cases heq

theorem not_watching (s : State ι α) (i : ι) {m : Mem α} {pc : Pc α} {n : ℕ}
    (hpc : ∀ head tail next, pc ≠ .popCheck head tail next) :
    ¬ Watching ⟨m, Function.update s.pc i pc, n⟩ i := by
  intro hw
  obtain ⟨head, tail, next, hcheck⟩ := hw.pc
  refine hpc head tail next ?_
  rw [← hcheck]
  exact (Function.update_self i pc s.pc).symm

/-- **A step of the queue** leads from a possible history to a possible one. -/
theorem possible_of_step [Fintype ι] {h : List (Event ι α)} {a : Action ι α}
    (hs : (system ι α).Reachable s) (hb : s'.calls < sizeT) (hstep : step s a = some s')
    (hP : (atomicQueue α).Possible h s.atomic (watch s)) :
    (atomicQueue α).Possible (h ++ (event ⟨s, a, s'⟩).toList) s'.atomic (watch s') := by
  obtain ⟨chain, hI⟩ := inv_of_reachable hs (lt_of_le_of_lt (calls_le_of_step hstep) hb)
  have hfifo := fifoStep_of_step hs hstep hb
  have hwatch : ∀ j, Watching s' j → Watching s j ∨ s'.mem.contents = [] :=
    fun j hw => hw.of_step hI hb hstep
  -- the notes of the other threads
  have hothers : ∀ i, (atomicQueue α).Possible h s.atomic (watchOthers s i) :=
    fun i => hP.mono fun j r hj => hj.2
  have hnotes : ∀ i, ¬ Watching s' i → ∀ j, Watching s' j →
      watchOthers s i j .empty ∨ s'.mem.contents = [] := by
    intro i hi j hj
    refine (hwatch j hj).imp_left fun hw => ⟨?_, rfl, hw⟩
    rintro rfl
    exact hi hj
  rcases step_cases hstep with ⟨i, call, rfl, hpc, rfl⟩ | ⟨i, c, r, rfl, hr, rfl⟩ |
    ⟨i, rfl, hpc, rfl⟩
  · refine possible_watch (watchOthers s i) ?_ (hnotes i (not_watching s i call.entry_ne))
    rw [atomic_update]
    have hidle : s.atomic.status i = .idle := by
      show (s.pc i).status = _
      rw [hpc]
      rfl
    cases call with
    | push value => exact (hothers i).call (fun answer hi => hi.1 rfl) (.push value) hidle
    | pop => exact (hothers i).call (fun answer hi => hi.1 rfl) .pop hidle
  · have hevent : event ⟨s, .access i c, ⟨r.1, Function.update s.pc i r.2, s.calls⟩⟩ = none := rfl
    rw [hevent, Option.toList_none, List.append_nil]
    have hev : Action.event s ⟨r.1, Function.update s.pc i r.2, s.calls⟩ (.access i c) =
        (s.pc i).event r.2 := by
      show (s.pc i).event (Function.update s.pc i r.2 i) = _
      rw [Function.update_self]
    rw [hev] at hfifo
    cases meaning_of_access hr with
    | quiet hnone hstatus =>
      rw [hnone] at hfifo
      refine possible_watch (watch s) ?_ fun j hj => (hwatch j hj).imp_left fun hw =>
        ⟨rfl, hw⟩
      have hsame : s.atomic.set i s.mem.contents (s.pc i).status = s.atomic := by
        rw [AtomicObject.State.set, AtomicObject.State.mk.injEq]
        exact ⟨rfl, Function.update_eq_self i _⟩
      rw [atomic_update, hfifo.eq_of_internal, hstatus, hsame]
      exact hP
    | fails head tail next hcheck htail hnext hhead heq =>
      subst heq
      refine possible_watch (watchOthers s i) ?_ (hnotes i (not_watching s i fun _ _ _ => by simp))
      rw [atomic_update]
      refine hP.answer ⟨rfl, ?_, ?_⟩
      · rw [Current, hcheck]
        exact ⟨htail, hnext, hhead⟩
      · rw [hcheck]
        simp
    | enqueues value hsome hcalled hdone =>
      rw [hsome] at hfifo
      refine possible_watch (watchOthers s i) ?_
        (hnotes i (not_watching s i fun _ _ _ hcheck => ?_))
      · rw [atomic_update, hdone]
        refine (hothers i).perform (fun answer hi => hi.1 rfl) hcalled ?_
        rw [hfifo.eq_of_enqueue]
        rfl
      · rw [hcheck] at hdone
        cases hdone
    | dequeues value hsome hcalled hdone =>
      rw [hsome] at hfifo
      refine possible_watch (watchOthers s i) ?_
        (hnotes i (not_watching s i fun _ _ _ hcheck => ?_))
      · rw [atomic_update, hdone]
        refine (hothers i).perform (fun answer hi => hi.1 rfl) hcalled ?_
        show (atomicQueue α).apply .pop s.mem.contents = _
        rw [hfifo.eq_of_dequeue]
        rfl
      · rw [hcheck] at hdone
        cases hdone
  · refine possible_watch (watchOthers s i) ?_ (hnotes i (not_watching s i fun _ _ _ => by simp))
    rw [atomic_update]
    have hdone : ∃ answer, s.atomic.status i = .done answer ∧
        event ⟨s, .ret i, { s with pc := Function.update s.pc i .idle }⟩ =
          some (.ret i answer) := by
      rw [event]
      dsimp only
      show ∃ answer, (s.pc i).status = _ ∧ _
      rcases hpc with hpc | ⟨result, hpc⟩ | hpc <;> rw [hpc] <;> exact ⟨_, rfl, rfl⟩
    obtain ⟨answer, hstatus, hevent⟩ := hdone
    rw [hevent]
    exact (hothers i).ret (fun answer hi => hi.1 rfl) hstatus

/-- The calls of a run are those of its history. -/
theorem calls_of_step {a : Action ι α} (h : step s a = some s') :
    s'.calls = s.calls + (event ⟨s, a, s'⟩).toList.countP AtomicObject.Event.isCall := by
  rcases step_cases h with ⟨i, call, rfl, hpc, rfl⟩ | ⟨i, c, r, rfl, hr, rfl⟩ | ⟨i, rfl, hpc, rfl⟩
  · cases call <;> rfl
  · rfl
  · show s.calls = s.calls + _
    rw [event]
    dsimp only
    rcases hpc with hpc | ⟨result, hpc⟩ | hpc <;> rw [hpc] <;> rfl

/-- **The queue is linearizable**: a history with fewer than `2 ^ 64` calls is one of the atomic
queue. -/
theorem mem_atomic_of_mem_histories [Fintype ι] {s₀ : State ι α} (hs₀ : IsInitial s₀)
    {h : List (Event ι α)} (hb : h.countP AtomicObject.Event.isCall < 2 ^ 64)
    (hh : h ∈ histories s₀) : h ∈ (atomicQueue α).histories ι := by
  obtain ⟨s, hs⟩ := hh
  have hrun : (system ι α).Reachable s ∧ s.calls = h.countP AtomicObject.Event.isCall ∧
      (s.calls < sizeT → (atomicQueue α).Possible h s.atomic (watch s)) := by
    refine hs.invariant (I := fun h u => (system ι α).Reachable u ∧
      u.calls = h.countP AtomicObject.Event.isCall ∧
      (u.calls < sizeT → (atomicQueue α).Possible h u.atomic (watch u))) ?_ ?_
    · obtain ⟨dummy, halloc, -, hhead, -, -, hpc, hcalls⟩ := id hs₀
      refine ⟨.start hs₀, hcalls, fun _ => ?_⟩
      have hnew : s₀.atomic = (atomicQueue α).new ι := by
        rw [State.atomic, AtomicObject.new, AtomicObject.State.mk.injEq]
        refine ⟨refines_fifo.1 s₀ hs₀, ?_⟩
        ext i
        rw [hpc i]
        rfl
      rw [hnew]
      refine (AtomicObject.Possible.start (atomicQueue α) ι).mono fun i answer hw => ?_
      obtain ⟨head, tail, next, hcheck⟩ := hw.2.pc
      rw [hpc i] at hcheck
      cases hcheck
    · rintro h u a u' ⟨hu, hcalls, hP⟩ hstep
      have hcalls' := calls_of_step hstep
      refine ⟨.next hu trivial hstep, ?_, fun hb' => ?_⟩
      · rw [List.countP_append, ← hcalls, hcalls']
      · exact possible_of_step hu hb' hstep (hP (lt_of_le_of_lt (calls_le_of_step hstep) hb'))
  obtain ⟨-, hcalls, hP⟩ := hrun
  exact (hP (hcalls ▸ hb)).mem_histories

/-! ## A run of the atomic queue -/

/-- Where a thread is that makes no access now. -/
def entry : Status (QueueCall α) (QueueAnswer α) → Pc α
  | .idle => .idle
  | .called (.push value) => .pushNew value
  | .called .pop => .popLoadHead
  | .done .pushed => .pushDone
  | .done (.popped value) => .popTrue value
  | .done .empty => .popFalse

/-- The queue stands for the atomic queue, and no thread is between its first access and its
return. -/
structure Resting (t : AtomicObject.State ι (List α) (QueueCall α) (QueueAnswer α))
    (s : State ι α) : Prop where
  lined : Lined s.mem t.value
  pc : ∀ i, s.pc i = entry (t.status i)

/-- The accesses of a thread that nobody disturbs. -/
structure Alone (s₀ : State ι α) (i : ι) (P : Mem α → Pc α → Prop) (s : State ι α) : Prop where
  at_call : P s.mem (s.pc i)
  others : ∀ j, j ≠ i → s.pc j = s₀.pc j

/-- A call that nobody disturbs comes to its return. -/
theorem exists_alone (i : ι) {P : Mem α → Pc α → Prop} (hP : P s.mem (s.pc i))
    (haccess : ∀ {m pc c r}, P m pc → Mem.access m c pc = some r →
      P r.1 r.2 ∧ (c.spurious = false → r.2.rank r.1 < pc.rank m))
    (hsome : ∀ m pc, P m pc → 1 < pc.rank m →
      ∃ c : Choice, c.spurious = false ∧ (Mem.access m c pc).isSome) :
    ∃ s', (system ι α).Shows event s [] s' ∧ Alone s i P s' ∧ (s'.pc i).rank s'.mem ≤ 1 := by
  have hstep : ∀ u, Alone s i P u → 0 < (u.pc i).rank u.mem - 1 → ∃ a u',
      (system ι α).step u a = some u' ∧ event ⟨u, a, u'⟩ = none ∧ Alone s i P u' ∧
        (u'.pc i).rank u'.mem - 1 < (u.pc i).rank u.mem - 1 := by
    intro u hu hpos
    obtain ⟨c, hspurious, hr⟩ := hsome u.mem (u.pc i) hu.at_call (by omega)
    obtain ⟨r, hr⟩ := Option.isSome_iff_exists.mp hr
    obtain ⟨hP', hlt⟩ := haccess hu.at_call hr
    refine ⟨.access i c, ⟨r.1, Function.update u.pc i r.2, u.calls⟩, ?_, rfl,
      ⟨?_, fun j hj => ?_⟩, ?_⟩
    · show Option.map _ (u.mem.access c (u.pc i)) = _
      rw [hr, Option.map_some]
    · show P r.1 (Function.update u.pc i r.2 i)
      rw [Function.update_self]
      exact hP'
    · show Function.update u.pc i r.2 j = _
      rw [Function.update_of_ne hj]
      exact hu.others j hj
    · have hlt' := hlt hspurious
      show (Function.update u.pc i r.2 i).rank r.1 - 1 < _
      rw [Function.update_self]
      omega
  obtain ⟨s', hs', hA, hzero⟩ := TransitionSystem.exists_quiet_path (system ι α) event
    (Alone s i P) (fun u => (u.pc i).rank u.mem - 1) ⟨hP, fun _ _ => rfl⟩ hstep
  exact ⟨s', hs', hA, by omega⟩

/-- A push that has no access left has added its value. -/
theorem PushAt.eq_pushDone {m : Mem α} {contents : List α} {value : α} {pc : Pc α}
    (hP : PushAt m contents value pc) (hrank : pc.rank m ≤ 1) :
    pc = .pushDone ∧ Lined m (contents ++ [value]) := by
  cases pc with
  | pushDone => exact ⟨rfl, hP⟩
  | _ => first | exact hP.elim | exact absurd hrank (by dsimp only [Pc.rank]; omega)

/-- A pop that has no access left has taken the first element, or there is none. -/
theorem PopAt.eq_entry {m : Mem α} {contents : List α} {pc : Pc α} (hP : PopAt m contents pc)
    (hrank : pc.rank m ≤ 1) : pc = entry (.done ((atomicQueue α).apply .pop contents).2) ∧
      Lined m ((atomicQueue α).apply .pop contents).1 := by
  cases pc with
  | popTrue result =>
    obtain ⟨hfirst, hlined⟩ := hP
    obtain ⟨rest, rfl⟩ := List.head?_eq_some_iff.mp hfirst
    exact ⟨rfl, hlined⟩
  | popFalse =>
    obtain ⟨rfl, hlined⟩ := hP
    exact ⟨rfl, hlined⟩
  | _ => first | exact hP.elim | exact absurd hrank (by dsimp only [Pc.rank]; omega)

/-- **A call takes effect** when its thread runs on its own. -/
theorem Resting.perform {t : AtomicObject.State ι (List α) (QueueCall α) (QueueAnswer α)}
    (hR : Resting t s) {call : QueueCall α} (hi : t.status i = .called call) :
    ∃ s', (system ι α).Shows event s [] s' ∧
      Resting (t.set i ((atomicQueue α).apply call t.value).1
        (.done ((atomicQueue α).apply call t.value).2)) s' := by
  have hpc := hR.pc i
  rw [hi] at hpc
  have hrest : ∀ {P : Mem α → Pc α → Prop} {s' : State ι α}, Alone s i P s' → ∀ {value answer},
      s'.pc i = entry (.done answer) ∧ Lined s'.mem value →
      Resting (t.set i value (.done answer)) s' := by
    intro P s' hA value answer hdone
    refine ⟨hdone.2, fun j => ?_⟩
    show s'.pc j = entry (Function.update t.status i (.done answer) j)
    by_cases hj : j = i
    · subst hj
      rw [Function.update_self]
      exact hdone.1
    · rw [Function.update_of_ne hj, hA.others j hj]
      exact hR.pc j
  cases call with
  | push value =>
    have hentry : PushAt s.mem t.value value (s.pc i) := by
      rw [hpc]
      exact ⟨rfl, hR.lined⟩
    obtain ⟨s', hs', hA, hrank⟩ := exists_alone i hentry PushAt.access fun m pc hP hlt => by
      obtain ⟨fresh, hfresh⟩ := Infinite.exists_notMem_finset m.allocated
      exact ⟨⟨false, fresh⟩, rfl, hP.access_isSome hfresh hlt⟩
    exact ⟨s', hs', hrest hA (hA.at_call.eq_pushDone hrank)⟩
  | pop =>
    have hentry : PopAt s.mem t.value (s.pc i) := by
      rw [hpc]
      exact hR.lined
    obtain ⟨s', hs', hA, hrank⟩ := exists_alone i hentry PopAt.access fun m pc hP hlt =>
      ⟨⟨false, 0⟩, rfl, hP.access_isSome _ hlt⟩
    exact ⟨s', hs', hrest hA (hA.at_call.eq_entry hrank)⟩

/-- Every history of the atomic queue is one of the lock-free queue. -/
theorem atomic_subset_histories {s₀ : State ι α} (hs₀ : IsInitial s₀) :
    (atomicQueue α).histories ι ⊆ histories s₀ := by
  have hstart : Resting ((atomicQueue α).new ι) s₀ := by
    refine ⟨line_of_initial hs₀, fun i => ?_⟩
    obtain ⟨dummy, -, -, -, -, -, hpc, -⟩ := hs₀
    exact hpc i
  refine TransitionSystem.histories_subset hstart ?_
  intro t a t' s hR h
  -- a step that leaves the memory alone
  have hmove : ∀ {i status n}, Resting (t.set i t.value status)
      ⟨s.mem, Function.update s.pc i (entry status), n⟩ := by
    intro i status n
    refine ⟨hR.lined, fun j => ?_⟩
    show Function.update s.pc i (entry status) j = entry (Function.update t.status i status j)
    by_cases hj : j = i
    · subst hj
      rw [Function.update_self, Function.update_self]
    · rw [Function.update_of_ne hj, Function.update_of_ne hj]
      exact hR.pc j
  have heffect := AtomicObject.effect_of_step h
  generalize AtomicObject.event ⟨t, a, t'⟩ = e at heffect ⊢
  cases heffect with
  | call i call hi =>
    have hpc := hR.pc i
    rw [hi] at hpc
    refine ⟨_, ?_, hmove (n := s.calls + 1)⟩
    cases call with
    | push value =>
      have hstep : (system ι α).step s (.push i value) =
          some ⟨s.mem, Function.update s.pc i (.pushNew value), s.calls + 1⟩ := by
        show step s (.push i value) = _
        rw [step, hpc]
        rfl
      exact (Shows.refl _ _ _).event hstep rfl
    | pop =>
      have hstep : (system ι α).step s (.pop i) =
          some ⟨s.mem, Function.update s.pc i .popLoadHead, s.calls + 1⟩ := by
        show step s (.pop i) = _
        rw [step, hpc]
        rfl
      exact (Shows.refl _ _ _).event hstep rfl
  | perform i call hi => exact hR.perform hi
  | ret i answer hi =>
    have hpc := hR.pc i
    rw [hi] at hpc
    refine ⟨_, ?_, hmove (n := s.calls)⟩
    have hstep : (system ι α).step s (.ret i) =
        some ⟨s.mem, Function.update s.pc i .idle, s.calls⟩ := by
      show step s (.ret i) = _
      rw [step, hpc]
      cases answer <;> rfl
    refine (Shows.refl _ _ _).event hstep ?_
    rw [event]
    dsimp only
    rw [hpc]
    cases answer <;> rfl

/-- **The lock-free queue replaces the queue with a lock**: with fewer than `2 ^ 64` calls the
threads see the same of both. -/
theorem mem_histories_iff_lockQueue [Fintype ι] (s₀ : State ι α) (hs₀ : IsInitial s₀)
    (h : List (Event ι α)) (hb : h.countP AtomicObject.Event.isCall < 2 ^ 64) :
    h ∈ histories s₀ ↔ h ∈ LockQueue.histories ι α :=
  ⟨fun hh => LockQueue.atomic_subset_histories (mem_atomic_of_mem_histories hs₀ hb hh),
    fun hh => atomic_subset_histories hs₀ (LockQueue.histories_subset_atomic hh)⟩

/-- A pop that fails although a push returns before it does. -/
def overlap : List (Event (Fin 2) ℕ) :=
  [.call 1 .pop, .call 0 (.push 7), .ret 0 .pushed, .ret 1 .empty]

/-- The accesses of the queue with a lock in that history. -/
def overlapSteps : List (LockQueue.Action (Fin 2) ℕ) :=
  [.pop 1, .access 1, .access 1, .push 0 7, .access 1, .access 0, .access 0, .access 0, .ret 0,
    .ret 1]

/-- The lock-free queue has that history as well. -/
theorem mem_histories_iff_lockQueue_overlap : overlap ∈ histories emptyOfTwo :=
  (mem_histories_iff_lockQueue emptyOfTwo ⟨0, rfl, rfl, rfl, rfl, rfl, fun _ => rfl, rfl⟩ overlap
    (by decide)).mpr
    ⟨(LockQueue.system (Fin 2) ℕ).replay (LockQueue.new (Fin 2) ℕ) overlapSteps, _,
      TransitionSystem.Path.replay overlapSteps rfl, rfl⟩

end LockFreeQueue
end ThreadUtils
