import ThreadUtils.DataStructures.FiniteLockFreeQueue.LockFree
import ThreadUtils.DataStructures.FiniteOverflowQueue.Conservation
import ThreadUtils.DataStructures.LockFreeQueue.LockFree

/-!
# The ring with an overflow queue is lock-free

A run of the queue is a run of the ring and a run of the overflow queue, put together: each step is
a step of one of them, and the return from the ring after which the other one is called is a step
of both.  So the steps of the queue are not more than the steps of the two, and each of them is
lock-free.

## Cutting a run in two

`finiteAction` and `overflowAction` say what each of the two queues does in a step, if anything, and
`Parts` that one of them does.  Applied to a run they give the runs of the two queues
(`finiteTrace`, `overflowTrace`), which are runs of their own systems from reachable states, so that
each of them is bounded by what was proved about its queue.

## The calls of the two parts

The two bounds count the returns of the parts, and the theorem those of the queue.  A call of the
queue makes one call of the ring and at most one of the overflow queue, which follows it.  Counted
by calls this is at most two for each call of the queue (`account_of_step`), and the calls of a run
are its returns and no more than one for each thread beyond them.
-/

namespace ThreadUtils
namespace FiniteOverflowQueue

open TransitionSystem (Transition component countP_or_le)
open FiniteLockFreeQueue (RingSize)

variable {ι α : Type*} {R : RingSize}

/-! ## The kinds of steps -/

def isCall (t : Transition (State ι α) (Action ι α)) : Bool :=
  match t.action with
  | .push _ _ | .pop _ => true
  | _ => false

/-- The call of a thread returns. -/
def isReturn (t : Transition (State ι α) (Action ι α)) : Bool :=
  match t.action with
  | .ret i =>
      match t.target.pc i with
      | .idle => true
      | _ => false
  | _ => false

/-- The environment makes an exchange fail. -/
def isSpurious (t : Transition (State ι α) (Action ι α)) : Bool :=
  match t.action with
  | .access _ c => c.spurious
  | _ => false

/-! ## The runs of the two queues -/

/-- What the ring does in a step. -/
def finiteAction (s : State ι α) : Action ι α → Option (FiniteLockFreeQueue.Action ι α)
  | .push i value => some (.push i value)
  | .pop i => some (.pop i)
  | .access i c =>
      match s.pc i with
      | .pushFinite _ | .popFinite => some (.access i c.spurious)
      | _ => none
  | .ret i =>
      match s.pc i with
      | .pushFinite _ | .popFinite => some (.ret i)
      | _ => none

/-- What the overflow queue does in a step. -/
def overflowAction (s : State ι α) : Action ι α → Option (LockFreeQueue.Action ι α)
  | .access i c =>
      match s.pc i with
      | .pushOverflow _ | .popOverflow => some (.access i c)
      | _ => none
  | .ret i =>
      match s.pc i, s.finite.pc i with
      | .pushFinite value, .pushFalse _ => some (.push i value)
      | .popFinite, .popFalse => some (.pop i)
      | .pushOverflow _, _ | .popOverflow, _ => some (.ret i)
      | _, _ => none
  | _ => none

/-- `1` for a thread outside of a call. -/
def Pc.idling : Pc α → ℕ
  | .idle => 1
  | _ => 0

/-- The steps of the two queues in a step of the queue. -/
structure Parts [DecidableEq ι] (R : RingSize) (s : State ι α) (a : Action ι α) (s' : State ι α) :
    Prop where
  finite : (finiteAction s a).elim (s'.finite = s.finite) fun b =>
    FiniteLockFreeQueue.step R s.finite b = some s'.finite
  overflow : (overflowAction s a).elim (s'.overflow = s.overflow) fun b =>
    LockFreeQueue.step s.overflow b = some s'.overflow
  /-- One of the two makes a step. -/
  some : (finiteAction s a).isSome ∨ (overflowAction s a).isSome

variable [DecidableEq ι] {s s' : State ι α} {a : Action ι α}

theorem parts_of_step (h : step R s a = some s') : Parts R s a s' := by
  cases effect_of_step h with
  | push i value t hpc ht | pop i t hpc ht => exact ⟨ht, rfl, Or.inl rfl⟩
  | finite i c t hpc ht =>
    have hfinite : finiteAction s (.access i c) = some (.access i c.spurious) := by
      rcases hpc with ⟨value, hpc⟩ | hpc <;> rw [finiteAction, hpc]
    have hoverflow : overflowAction s (.access i c) = none := by
      rcases hpc with ⟨value, hpc⟩ | hpc <;> rw [overflowAction, hpc]
    refine ⟨?_, ?_, Or.inl ?_⟩
    · rw [hfinite]
      exact ht
    · rw [hoverflow]
      rfl
    · rw [hfinite]
      rfl
  | overflow i c u hpc hu =>
    have hfinite : finiteAction s (.access i c) = none := by
      rcases hpc with ⟨value, hpc⟩ | hpc <;> rw [finiteAction, hpc]
    have hoverflow : overflowAction s (.access i c) = some (.access i c) := by
      rcases hpc with ⟨value, hpc⟩ | hpc <;> rw [overflowAction, hpc]
    refine ⟨?_, ?_, Or.inr ?_⟩
    · rw [hfinite]
      rfl
    · rw [hoverflow]
      exact hu
    · rw [hoverflow]
      rfl
  | pushed i value t hpc hf ht =>
    obtain ⟨v, n, hf⟩ := hf
    refine ⟨?_, ?_, Or.inl ?_⟩
    · rw [finiteAction, hpc]
      exact ht
    · rw [overflowAction, hpc, hf]
      rfl
    · rw [finiteAction, hpc]
      rfl
  | refused i value t u hpc hf ht hu =>
    obtain ⟨v, hf⟩ := hf
    refine ⟨?_, ?_, Or.inl ?_⟩
    · rw [finiteAction, hpc]
      exact ht
    · rw [overflowAction, hpc, hf]
      exact hu
    · rw [finiteAction, hpc]
      rfl
  | popped i n result t hpc hf ht =>
    refine ⟨?_, ?_, Or.inl ?_⟩
    · rw [finiteAction, hpc]
      exact ht
    · rw [overflowAction, hpc, hf]
      rfl
    · rw [finiteAction, hpc]
      rfl
  | missed i t u hpc hf ht hu =>
    refine ⟨?_, ?_, Or.inl ?_⟩
    · rw [finiteAction, hpc]
      exact ht
    · rw [overflowAction, hpc, hf]
      exact hu
    · rw [finiteAction, hpc]
      rfl
  | overflowed i value u hpc hu | overflowPopped i result u hpc ho hu | empty i u hpc ho hu =>
    refine ⟨?_, ?_, Or.inr ?_⟩
    · rw [finiteAction, hpc]
      rfl
    · rw [overflowAction, hpc]
      exact hu
    · rw [overflowAction, hpc]
      rfl

/-- The steps of the ring in a run. -/
def finiteTrace (trace : List (Transition (State ι α) (Action ι α))) :
    List (Transition (FiniteLockFreeQueue.State ι α) (FiniteLockFreeQueue.Action ι α)) :=
  trace.filterMap (component State.finite finiteAction)

/-- The steps of the overflow queue in a run. -/
def overflowTrace (trace : List (Transition (State ι α) (Action ι α))) :
    List (Transition (LockFreeQueue.State ι α) (LockFreeQueue.Action ι α)) :=
  trace.filterMap (component State.overflow overflowAction)

/-- The step calls the overflow queue. -/
def callsOverflow (t : Transition (State ι α) (Action ι α)) : Bool :=
  ((component State.overflow overflowAction t).map LockFreeQueue.isCall).getD false

section Counts

variable {ok : State ι α → Action ι α → Prop} {trace : List (Transition (State ι α) (Action ι α))}

theorem finite_path (p : (system ι α R).Path ok s trace s') :
    (FiniteLockFreeQueue.system ι α R).Path (fun _ _ => True) s.finite (finiteTrace trace)
      s'.finite :=
  p.project fun _ _ _ h => (parts_of_step h).finite

theorem overflow_path (p : (system ι α R).Path ok s trace s') :
    (LockFreeQueue.system ι α).Path (fun _ _ => True) s.overflow (overflowTrace trace)
      s'.overflow :=
  p.project fun _ _ _ h => (parts_of_step h).overflow

/-- **The steps of the queue** are those of its two parts. -/
theorem length_le_parts (p : (system ι α R).Path ok s trace s') :
    trace.length ≤ (finiteTrace trace).length + (overflowTrace trace).length := by
  refine p.invariant (I := fun trace _ =>
    trace.length ≤ (finiteTrace trace).length + (overflowTrace trace).length) le_rfl ?_
  intro trace u a u' ih _ hstep
  have hsome : 1 ≤ (finiteTrace [⟨u, a, u'⟩]).length + (overflowTrace [⟨u, a, u'⟩]).length := by
    rcases (parts_of_step hstep).some with hsome | hsome
    · obtain ⟨b, hb⟩ := Option.isSome_iff_exists.mp hsome
      rw [finiteTrace, List.filterMap_cons_some (by rw [component, hb]; rfl)]
      exact (Nat.succ_le_succ (Nat.zero_le _)).trans (Nat.le_add_right _ _)
    · obtain ⟨b, hb⟩ := Option.isSome_iff_exists.mp hsome
      rw [overflowTrace, List.filterMap_cons_some (by rw [component, hb]; rfl)]
      exact (Nat.succ_le_succ (Nat.zero_le _)).trans (Nat.le_add_left _ _)
  unfold finiteTrace overflowTrace at ih hsome ⊢
  rw [List.filterMap_append, List.filterMap_append, List.length_append, List.length_append,
    List.length_append, List.length_singleton]
  omega

omit [DecidableEq ι] in
/-- Every call is a call of the ring. -/
theorem countP_isCall_finiteTrace (trace : List (Transition (State ι α) (Action ι α))) :
    (finiteTrace trace).countP FiniteLockFreeQueue.isCall = trace.countP isCall := by
  rw [finiteTrace, List.countP_filterMap]
  refine List.countP_congr fun t _ => ?_
  obtain ⟨u, a, u'⟩ := t
  cases a with
  | push i value | pop i => rfl
  | access i c | ret i =>
    cases hpc : u.pc i <;> simp [component, finiteAction, hpc, isCall, FiniteLockFreeQueue.isCall]

omit [DecidableEq ι] in
/-- A failure of an exchange is one of the ring or of the overflow queue. -/
theorem countP_isSpurious_parts (trace : List (Transition (State ι α) (Action ι α))) :
    (finiteTrace trace).countP FiniteLockFreeQueue.isSpurious +
      (overflowTrace trace).countP LockFreeQueue.isSpurious ≤ trace.countP isSpurious := by
  rw [finiteTrace, overflowTrace, List.countP_filterMap, List.countP_filterMap]
  refine TransitionSystem.countP_add_countP_le (fun t => ?_) trace
  obtain ⟨u, a, u'⟩ := t
  cases a with
  | push i value | pop i => exact le_rfl
  | access i c =>
    cases hpc : u.pc i <;>
      simp [component, finiteAction, overflowAction, hpc, isSpurious,
        FiniteLockFreeQueue.isSpurious, LockFreeQueue.isSpurious]
  | ret i =>
    cases hpc : u.pc i <;> cases hf : u.finite.pc i <;>
      simp [component, finiteAction, overflowAction, hpc, hf, isSpurious,
        FiniteLockFreeQueue.isSpurious, LockFreeQueue.isSpurious]

end Counts

variable [Fintype ι]

/-- **The account of a step.**  A call of the overflow queue leaves the ring, and a call is made by
a thread that has returned from the one before. -/
theorem account_of_step (h : step R s a = some s') :
    (∑ i, (s'.pc i).inFinite + (if callsOverflow ⟨s, a, s'⟩ then 1 else 0) ≤
      ∑ i, (s.pc i).inFinite + if isCall ⟨s, a, s'⟩ then 1 else 0) ∧
    ∑ i, (s'.pc i).idling + (if isCall ⟨s, a, s'⟩ then 1 else 0) ≤
      ∑ i, (s.pc i).idling + if isReturn ⟨s, a, s'⟩ then 1 else 0 := by
  have hmove : ∀ (t : State ι α) (i : ι) (p q : Pc α) (x y z : ℕ), s.pc i = p →
      t.pc = Function.update s.pc i q → q.inFinite + x ≤ p.inFinite + y →
      q.idling + y ≤ p.idling + z →
      ∑ j, (t.pc j).inFinite + x ≤ ∑ j, (s.pc j).inFinite + y ∧
        ∑ j, (t.pc j).idling + y ≤ ∑ j, (s.pc j).idling + z := by
    rintro t i _ q x y z rfl hpc' hle hle'
    have hsum := sum_update_exchange Pc.inFinite s.pc i q
    have hsum' := sum_update_exchange Pc.idling s.pc i q
    rw [hpc']
    omega
  have hreturn : ∀ (t : State ι α) (i : ι), t.pc = Function.update s.pc i .idle →
      s.pc i ≠ .idle → callsOverflow ⟨s, .ret i, t⟩ = false →
      (∑ j, (t.pc j).inFinite + (if callsOverflow ⟨s, .ret i, t⟩ then 1 else 0) ≤
        ∑ j, (s.pc j).inFinite + if isCall ⟨s, .ret i, t⟩ then 1 else 0) ∧
      ∑ j, (t.pc j).idling + (if isCall ⟨s, .ret i, t⟩ then 1 else 0) ≤
        ∑ j, (s.pc j).idling + if isReturn ⟨s, .ret i, t⟩ then 1 else 0 := by
    intro t i hpc hne hquiet
    have hret : isReturn ⟨s, .ret i, t⟩ = true := by
      dsimp only [isReturn]
      rw [hpc, Function.update_self]
    rw [hquiet, hret]
    exact hmove t i _ .idle 0 0 1 rfl hpc (Nat.zero_le _) (Nat.le_add_left _ _)
  have hcalls : ∀ (t : State ι α) (i : ι) (p q : Pc α), s.pc i = p →
      t.pc = Function.update s.pc i q → q.inFinite + 1 ≤ p.inFinite → q.idling ≤ p.idling →
      (∑ j, (t.pc j).inFinite + (if callsOverflow ⟨s, .ret i, t⟩ then 1 else 0) ≤
        ∑ j, (s.pc j).inFinite + if isCall ⟨s, .ret i, t⟩ then 1 else 0) ∧
      ∑ j, (t.pc j).idling + (if isCall ⟨s, .ret i, t⟩ then 1 else 0) ≤
        ∑ j, (s.pc j).idling + if isReturn ⟨s, .ret i, t⟩ then 1 else 0 := by
    intro t i p q hpc hpc' hle hle'
    obtain ⟨hfinite, hidling⟩ := hmove t i p q 1 0 0 hpc hpc' hle hle'
    refine ⟨?_, hidling.trans (Nat.le_add_right _ _)⟩
    split
    · exact hfinite
    · exact (Nat.le_add_right _ _).trans hfinite
  have hne : ∀ {i : ι} {p : Pc α}, s.pc i = p → p ≠ .idle → s.pc i ≠ .idle := by
    rintro i _ rfl h
    exact h
  cases effect_of_step h with
  | push i value t hpc ht =>
    exact hmove _ i _ (.pushFinite value) 0 1 0 hpc rfl le_rfl le_rfl
  | pop i t hpc ht => exact hmove _ i _ .popFinite 0 1 0 hpc rfl le_rfl le_rfl
  | finite i c t hpc ht =>
    have hquiet : callsOverflow ⟨s, .access i c, { s with finite := t }⟩ = false := by
      rcases hpc with ⟨value, hpc⟩ | hpc <;>
        simp [callsOverflow, component, overflowAction, hpc]
    rw [hquiet]
    exact ⟨le_rfl, le_rfl⟩
  | overflow i c u hpc hu =>
    have hquiet : callsOverflow ⟨s, .access i c, { s with overflow := u }⟩ = false := by
      rcases hpc with ⟨value, hpc⟩ | hpc <;>
        simp [callsOverflow, component, overflowAction, hpc, LockFreeQueue.isCall]
    rw [hquiet]
    exact ⟨le_rfl, le_rfl⟩
  | pushed i value t hpc hf ht =>
    obtain ⟨v, n, hf⟩ := hf
    exact hreturn _ i rfl (hne hpc (by simp))
      (by simp [callsOverflow, component, overflowAction, hpc, hf])
  | popped i n result t hpc hf ht =>
    exact hreturn _ i rfl (hne hpc (by simp))
      (by simp [callsOverflow, component, overflowAction, hpc, hf])
  | refused i value t u hpc hf ht hu =>
    exact hcalls _ i _ (.pushOverflow value) hpc rfl le_rfl le_rfl
  | missed i t u hpc hf ht hu => exact hcalls _ i _ .popOverflow hpc rfl le_rfl le_rfl
  | overflowed i value u hpc hu | overflowPopped i result u hpc ho hu | empty i u hpc ho hu =>
    exact hreturn _ i rfl (hne hpc (by simp))
      (by simp [callsOverflow, component, overflowAction, hpc, LockFreeQueue.isCall])

/-- The steps of a run, by its calls. -/
theorem length_le_of_calls (h2 : 2 ≤ R.size)
    {trace : List (Transition (State ι α) (Action ι α))} (hs : (system ι α R).Reachable s)
    (p : (system ι α R).Path (fun _ _ => True) s trace s') (hb : s'.calls.length < 2 ^ 63) :
    trace.length ≤ (5 * trace.countP isCall + trace.countP isSpurious +
      6 * Fintype.card ι + 3) * (13 * Fintype.card ι + 1) := by
  have hC := composed_of_reachable hs
  have hC' := composed_of_reachable (p.reachable hs)
  have hcalls := hC'.finite_calls
  have hcalls' := hC'.overflow_calls
  have hfinite := FiniteLockFreeQueue.length_le_of_calls h2 hC.finite (finite_path p) (by omega)
  have hoverflow := LockFreeQueue.length_le_of_calls hC.overflow (overflow_path p)
    (by rw [sizeT_eq]; omega)
  have hcount := p.countP_add_le (fun u => ∑ i, (u.pc i).inFinite) callsOverflow isCall 1
    fun _ _ _ _ hstep => (account_of_step hstep).1
  have hin : ∑ i, (s.pc i).inFinite ≤ Fintype.card ι := by
    refine (Finset.sum_le_card_nsmul _ _ 1 fun i _ => ?_).trans_eq (by simp)
    cases s.pc i <;> simp [Pc.inFinite]
  have hover : (overflowTrace trace).countP LockFreeQueue.isCall = trace.countP callsOverflow :=
    List.countP_filterMap
  rw [countP_isCall_finiteTrace] at hfinite
  rw [hover] at hoverflow
  have hspurious := countP_isSpurious_parts trace
  have hfinite' : (finiteTrace trace).length ≤ (2 * trace.countP isCall +
      (finiteTrace trace).countP FiniteLockFreeQueue.isSpurious + Fintype.card ι + 1) *
        (13 * Fintype.card ι + 1) :=
    hfinite.trans (Nat.mul_le_mul_left _ (by omega))
  calc trace.length ≤ (finiteTrace trace).length + (overflowTrace trace).length :=
        length_le_parts p
    _ ≤ _ := Nat.add_le_add hfinite' hoverflow
    _ = _ := (Nat.add_mul _ _ _).symm
    _ ≤ _ := Nat.mul_le_mul_right _ (by omega)

/-- **The queue is lock-free.**  A run from any reachable state has no more steps than its returns
and spurious failures pay for. -/
theorem overflow_lockFree (R : RingSize) (h2 : 2 ≤ R.size) (s s' : State ι α)
    (trace : List (Transition (State ι α) (Action ι α))) (hs : (system ι α R).Reachable s)
    (p : (system ι α R).Path (fun _ _ => True) s trace s') (hb : s'.calls.length < 2 ^ 63) :
    trace.length ≤ (5 * trace.countP isReturn + trace.countP isSpurious +
      11 * Fintype.card ι + 3) * (13 * Fintype.card ι + 1) := by
  have hcall := p.countP_add_le (fun u => ∑ i, (u.pc i).idling) isCall isReturn 1
    fun _ _ _ _ hstep => (account_of_step hstep).2
  have hidling : ∑ i, (s.pc i).idling ≤ Fintype.card ι := by
    refine (Finset.sum_le_card_nsmul _ _ 1 fun i _ => ?_).trans_eq (by simp)
    cases s.pc i <;> simp [Pc.idling]
  refine (length_le_of_calls h2 hs p hb).trans (Nat.mul_le_mul_right _ ?_)
  omega

/-- A thread pushes three elements to a ring of two. -/
def thirdPush : List (Action (Fin 2) ℕ) :=
  let turns (n : ℕ) : List (Action (Fin 2) ℕ) := List.replicate n (.access 0 ⟨false, 1⟩)
  [.push 0 7] ++ turns 5 ++ [.ret 0, .push 0 8] ++ turns 5 ++ [.ret 0, .push 0 9] ++ turns 2 ++
    [.ret 0] ++ turns 7 ++ [.ret 0]

theorem overflow_lockFree_thirdPush :
    let trace := (system (Fin 2) ℕ FiniteLockFreeQueue.ringOfTwo).traceOf (newQueue 0) thirdPush
    (trace.length = 26 ∧ trace.countP isReturn = 3) ∧
      trace.length ≤ (5 * trace.countP isReturn + trace.countP isSpurious +
        11 * Fintype.card (Fin 2) + 3) * (13 * Fintype.card (Fin 2) + 1) :=
  ⟨by decide, overflow_lockFree FiniteLockFreeQueue.ringOfTwo (by decide) (newQueue 0)
    ((system (Fin 2) ℕ FiniteLockFreeQueue.ringOfTwo).replay (newQueue 0) thirdPush) _
    (.start (isInitial_newQueue 0)) (TransitionSystem.Path.replay thirdPush (by decide))
    (by decide)⟩

end FiniteOverflowQueue
end ThreadUtils
