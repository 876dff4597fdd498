import ThreadUtils.DataStructures.FiniteLockFreeQueue.Sequential
import ThreadUtils.DataStructures.FiniteLockFreeQueue.Tickets
import ThreadUtils.DataStructures.FiniteOverflowQueue.Model
import ThreadUtils.DataStructures.FiniteOverflowQueue.Order
import ThreadUtils.DataStructures.LockFreeQueue.Sequential

/-!
# A single thread at the overflow queue

A thread that nobody disturbs sees the two lists of `Buffers`: `At` says what it has done of
its call, and `At.completes` that every step keeps this and completes the call when it returns.
When no exchange fails a call returns (`At.finish`).

## Three stages

The theorem is about runs of single accesses, and its condition about sequences of calls.  In
between there are two lists.  First, the accesses of a call are those of the ring and then those of
the overflow queue, and each of the two queues does to its list what a call does (`At`).  Second,
the calls of the thread so far have the results that they have on the two lists (`Follows`),
whatever the exchanges that failed spuriously on the way.  Third, when two lists are as good as one
is a question about lists alone, and `Order` answers it.

A new queue must also admit the calls at all: `exists_reaches` makes the calls one after the other,
each of them up to its return.

* `dropIn_iff` --- the calls of a thread have the results of a `TU_LockQueue`, whatever the
  values, exactly when they are in `fifoOrder`.
-/

namespace ThreadUtils
namespace FiniteOverflowQueue

open FiniteLockFreeQueue (RingSize)

variable {ι : Type*} {α : Type*} {R : RingSize}

/-- The call that a thread is in, if any. -/
def Pc.call : Pc α → List (QueueCall α)
  | .idle => []
  | .pushFinite value | .pushOverflow value => [.push value]
  | .popFinite | .popOverflow => [.pop]

/-- What the thread `i` has done of its call, when the elements were `b` before it, and `h`
elements had been popped from the ring. -/
def At (R : RingSize) (i : ι) (s : State ι α) (h : ℕ) (b : Buffers α) : Prop :=
  match s.pc i with
  | .idle => s.finite.pc i = .idle ∧ s.overflow.pc i = .idle ∧
      FiniteLockFreeQueue.Ring R s.finite.mem h b.finite ∧
      LockFreeQueue.Lined s.overflow.mem b.overflow
  | .pushFinite value => s.overflow.pc i = .idle ∧
      FiniteLockFreeQueue.PushAt R s.finite.mem h b.finite value (s.finite.pc i) ∧
      LockFreeQueue.Lined s.overflow.mem b.overflow
  | .pushOverflow value => s.finite.pc i = .idle ∧ b.finite.length = R.size ∧
      FiniteLockFreeQueue.Ring R s.finite.mem h b.finite ∧
      LockFreeQueue.PushAt s.overflow.mem b.overflow value (s.overflow.pc i)
  | .popFinite => s.overflow.pc i = .idle ∧
      FiniteLockFreeQueue.PopAt R s.finite.mem h b.finite (s.finite.pc i) ∧
      LockFreeQueue.Lined s.overflow.mem b.overflow
  | .popOverflow => s.finite.pc i = .idle ∧ b.finite = [] ∧
      FiniteLockFreeQueue.Ring R s.finite.mem h b.finite ∧
      LockFreeQueue.PopAt s.overflow.mem b.overflow (s.overflow.pc i)

/-- A bound on the steps up to the return of the call, when no exchange fails. -/
def State.rank (s : State ι α) (i : ι) : ℕ :=
  match s.pc i with
  | .idle => 0
  | .pushFinite _ | .popFinite => (s.finite.pc i).rank + 40
  | .pushOverflow _ | .popOverflow => (s.overflow.pc i).rank s.overflow.mem

/-- A step towards the return. -/
def Action.Forward : Action ι α → Prop
  | .push _ _ | .pop _ => False
  | .access _ c => c.spurious = false
  | .ret _ => True

/-- What a step of the thread `i` does: the calls `done` are completed by it. -/
structure Completes (R : RingSize) (i : ι) (s : State ι α) (a : Action ι α) (s' : State ι α)
    (h : ℕ) (b : Buffers α) (done : List (QueueCall α)) : Prop where
  state : At R i s' (h + b.taken R.size done) (b.after R.size done)
  results : s'.results = s.results ++ b.results R.size done
  calls : ∀ calls, s.calls = calls ++ (s.pc i).call →
    s'.calls = calls ++ done ++ (s'.pc i).call
  rank : a.Forward → s'.rank i < s.rank i

variable [DecidableEq ι] {s s' : State ι α} {i : ι} {h : ℕ} {b : Buffers α}

omit [DecidableEq ι] in
/-- A step inside a call. -/
theorem completes_nil {a : Action ι α} (hstate : At R i s' h b) (hresults : s'.results = s.results)
    (hcalls : s'.calls = s.calls) (hcall : (s'.pc i).call = (s.pc i).call)
    (hrank : a.Forward → s'.rank i < s.rank i) : Completes R i s a s' h b [] := by
  refine ⟨hstate, ?_, fun calls heq => ?_, hrank⟩
  · rw [hresults]
    exact (List.append_nil _).symm
  · rw [hcalls, heq, hcall, List.append_nil]

omit [DecidableEq ι] in
/-- The return of a call. -/
theorem completes_call {a : Action ι α} (hpc : s'.pc i = .idle)
    (hstate : At R i s' (h + b.taken R.size (s.pc i).call) (b.after R.size (s.pc i).call))
    (hresults : s'.results = s.results ++ b.results R.size (s.pc i).call)
    (hcalls : s'.calls = s.calls) (hrank : 0 < s.rank i) :
    Completes R i s a s' h b (s.pc i).call := by
  refine ⟨hstate, hresults, fun calls heq => ?_, fun _ => ?_⟩
  · rw [hcalls, heq, hpc]
    exact (List.append_nil _).symm
  · rw [State.rank, hpc]
    exact hrank

/-- **Every step of an undisturbed thread.** -/
theorem At.completes (hA : At R i s h b) (h2 : 2 ≤ R.size) {a : Action ι α} (hthread : a.thread = i)
    (hstep : step R s a = some s') : ∃ done, Completes R i s a s' h b done := by
  cases effect_of_step hstep with
  | push j value t hpc ht =>
    obtain rfl : j = i := hthread
    obtain rfl := FiniteLockFreeQueue.eq_of_push ht
    rw [At, hpc] at hA
    obtain ⟨-, ho, hR, hL⟩ := hA
    refine ⟨[], ⟨?_, (List.append_nil _).symm, fun calls heq => ?_, fun hf => hf.elim⟩⟩
    · simp only [At, State.goto, Function.update_self]
      exact ⟨ho, ⟨rfl, hR⟩, hL⟩
    · rw [hpc] at heq
      simp [State.goto, Pc.call, heq]
  | pop j t hpc ht =>
    obtain rfl : j = i := hthread
    obtain rfl := FiniteLockFreeQueue.eq_of_pop ht
    rw [At, hpc] at hA
    obtain ⟨-, ho, hR, hL⟩ := hA
    refine ⟨[], ⟨?_, (List.append_nil _).symm, fun calls heq => ?_, fun hf => hf.elim⟩⟩
    · simp only [At, State.goto, Function.update_self]
      exact ⟨ho, hR, hL⟩
    · rw [hpc] at heq
      simp [State.goto, Pc.call, heq]
  | finite j c t hpc ht =>
    obtain rfl : j = i := hthread
    obtain ⟨r, hr, rfl⟩ := FiniteLockFreeQueue.eq_of_access ht
    rcases hpc with ⟨value, hpc⟩ | hpc
    · rw [At, hpc] at hA
      obtain ⟨ho, hP, hL⟩ := hA
      obtain ⟨hP', hrank⟩ := hP.access (Or.inr h2) hr
      refine ⟨[], completes_nil ?_ rfl rfl rfl fun hf => ?_⟩
      · simp only [At, hpc, Function.update_self]
        exact ⟨ho, hP', hL⟩
      · simp only [State.rank, hpc, Function.update_self]
        exact Nat.add_lt_add_right (hrank hf) 40
    · rw [At, hpc] at hA
      obtain ⟨ho, hP, hL⟩ := hA
      obtain ⟨hP', hrank⟩ := hP.access hr
      refine ⟨[], completes_nil ?_ rfl rfl rfl fun hf => ?_⟩
      · simp only [At, hpc, Function.update_self]
        exact ⟨ho, hP', hL⟩
      · simp only [State.rank, hpc, Function.update_self]
        exact Nat.add_lt_add_right (hrank hf) 40
  | overflow j c u hpc hu =>
    obtain rfl : j = i := hthread
    obtain ⟨r, hr, rfl⟩ := LockFreeQueue.eq_of_access hu
    rcases hpc with ⟨value, hpc⟩ | hpc
    · rw [At, hpc] at hA
      obtain ⟨hf, hfull, hR, hP⟩ := hA
      obtain ⟨hP', hrank⟩ := hP.access hr
      refine ⟨[], completes_nil ?_ rfl rfl rfl fun hforward => ?_⟩
      · simp only [At, hpc, Function.update_self]
        exact ⟨hf, hfull, hR, hP'⟩
      · simp only [State.rank, hpc, Function.update_self]
        exact hrank hforward
    · rw [At, hpc] at hA
      obtain ⟨hf, hnil, hR, hP⟩ := hA
      obtain ⟨hP', hrank⟩ := hP.access hr
      refine ⟨[], completes_nil ?_ rfl rfl rfl fun hforward => ?_⟩
      · simp only [At, hpc, Function.update_self]
        exact ⟨hf, hnil, hR, hP'⟩
      · simp only [State.rank, hpc, Function.update_self]
        exact hrank hforward
  | pushed j value t hpc hf ht =>
    obtain rfl : j = i := hthread
    obtain rfl := FiniteLockFreeQueue.eq_of_ret ht
    obtain ⟨v, n, hf⟩ := hf
    rw [At, hpc, hf] at hA
    obtain ⟨ho, ⟨-, hlt, hR⟩, hL⟩ := hA
    refine ⟨_, completes_call (Function.update_self _ _ _) ?_ ?_ rfl ?_⟩
    · simp only [At, State.goto, Function.update_self, hpc, Pc.call, Buffers.after, Buffers.push,
        hlt, if_true]
      exact ⟨trivial, ho, hR, hL⟩
    · rw [hpc]
      exact (List.append_nil _).symm
    · rw [State.rank, hpc]
      exact Nat.succ_pos _
  | refused j value t u hpc hf ht hu =>
    obtain rfl : j = i := hthread
    obtain rfl := FiniteLockFreeQueue.eq_of_ret ht
    obtain rfl := LockFreeQueue.eq_of_push hu
    obtain ⟨v, hf⟩ := hf
    rw [At, hpc, hf] at hA
    obtain ⟨-, ⟨-, hfull, hR⟩, hL⟩ := hA
    refine ⟨[], completes_nil ?_ rfl rfl ?_ fun _ => ?_⟩
    · simp only [At, State.goto, Function.update_self]
      exact ⟨trivial, hfull, hR, rfl, hL⟩
    · rw [hpc]
      simp [State.goto, Pc.call]
    · simp only [State.rank, State.goto, hpc, hf, Function.update_self]
      exact LockFreeQueue.rank_lt_of_entry (Or.inl ⟨value, rfl⟩) s.overflow.mem
  | overflowed j value u hpc hu =>
    obtain rfl : j = i := hthread
    obtain ⟨hret, rfl⟩ := LockFreeQueue.eq_of_ret hu
    rw [At, hpc] at hA
    obtain ⟨hf, hfull, hR, hP⟩ := hA
    rcases hret with ho | ⟨result, ho⟩ | ho
    · rw [ho] at hP
      refine ⟨_, completes_call (Function.update_self _ _ _) ?_ ?_ rfl ?_⟩
      · simp only [At, State.goto, Function.update_self, hpc, Pc.call, Buffers.after, Buffers.push,
          hfull, lt_irrefl, if_false]
        exact ⟨hf, trivial, hR, hP⟩
      · rw [hpc]
        exact (List.append_nil _).symm
      · rw [State.rank, hpc, ho]
        exact Nat.one_pos
    · rw [ho] at hP
      exact hP.elim
    · rw [ho] at hP
      exact hP.elim
  | popped j n result t hpc hf ht =>
    obtain rfl : j = i := hthread
    obtain rfl := FiniteLockFreeQueue.eq_of_ret ht
    rw [At, hpc, hf] at hA
    obtain ⟨ho, ⟨hfirst, hR⟩, hL⟩ := hA
    obtain ⟨finite, overflow⟩ := b
    obtain ⟨rest, rfl⟩ := List.head?_eq_some_iff.mp hfirst
    refine ⟨_, completes_call (Function.update_self _ _ _) ?_ ?_ rfl ?_⟩
    · simp only [At, State.returns, Function.update_self, hpc]
      exact ⟨trivial, ho, hR, hL⟩
    · rw [hpc]
      rfl
    · rw [State.rank, hpc]
      exact Nat.succ_pos _
  | missed j t u hpc hf ht hu =>
    obtain rfl : j = i := hthread
    obtain rfl := FiniteLockFreeQueue.eq_of_ret ht
    obtain rfl := LockFreeQueue.eq_of_pop hu
    rw [At, hpc, hf] at hA
    obtain ⟨-, ⟨hnil, hR⟩, hL⟩ := hA
    refine ⟨[], completes_nil ?_ rfl rfl ?_ fun _ => ?_⟩
    · simp only [At, State.goto, Function.update_self]
      exact ⟨trivial, hnil, hR, hL⟩
    · rw [hpc]
      simp [State.goto, Pc.call]
    · simp only [State.rank, State.goto, hpc, hf, Function.update_self]
      exact LockFreeQueue.rank_lt_of_entry (Or.inr rfl) s.overflow.mem
  | overflowPopped j result u hpc ho hu =>
    obtain rfl : j = i := hthread
    obtain ⟨-, rfl⟩ := LockFreeQueue.eq_of_ret hu
    rw [At, hpc, ho] at hA
    obtain ⟨hf, hnil, hR, hfirst, hL⟩ := hA
    obtain ⟨finite, overflow⟩ := b
    obtain rfl : finite = [] := hnil
    obtain ⟨rest, rfl⟩ := List.head?_eq_some_iff.mp hfirst
    refine ⟨_, completes_call (Function.update_self _ _ _) ?_ ?_ rfl ?_⟩
    · simp only [At, State.returns, Function.update_self, hpc]
      exact ⟨hf, trivial, hR, hL⟩
    · rw [hpc]
      rfl
    · rw [State.rank, hpc, ho]
      exact Nat.one_pos
  | empty j u hpc ho hu =>
    obtain rfl : j = i := hthread
    obtain ⟨-, rfl⟩ := LockFreeQueue.eq_of_ret hu
    rw [At, hpc, ho] at hA
    obtain ⟨hf, hnil, hR, hempty, hL⟩ := hA
    obtain ⟨finite, overflow⟩ := b
    obtain rfl : finite = [] := hnil
    obtain rfl : overflow = [] := hempty
    refine ⟨_, completes_call (Function.update_self _ _ _) ?_ ?_ rfl ?_⟩
    · simp only [At, State.returns, Function.update_self, hpc]
      exact ⟨hf, trivial, hR, hL⟩
    · rw [hpc]
      rfl
    · rw [State.rank, hpc, ho]
      exact Nat.one_pos

/-- A thread inside a call goes on. -/
theorem At.next (hA : At R i s h b) (hpc : s.pc i ≠ .idle) :
    ∃ a s', a.thread = i ∧ a.Forward ∧ step R s a = some s' := by
  obtain ⟨fresh, hfresh⟩ := Infinite.exists_notMem_finset s.overflow.mem.allocated
  suffices hsome : (step R s (.access i ⟨false, fresh⟩)).isSome ∨ (step R s (.ret i)).isSome by
    rcases hsome with hsome | hsome
    · obtain ⟨s', hs'⟩ := Option.isSome_iff_exists.mp hsome
      exact ⟨.access i ⟨false, fresh⟩, s', rfl, rfl, hs'⟩
    · obtain ⟨s', hs'⟩ := Option.isSome_iff_exists.mp hsome
      exact ⟨.ret i, s', rfl, trivial, hs'⟩
  unfold At at hA
  cases hcall : s.pc i with
  | idle => exact absurd hcall hpc
  | pushFinite value =>
    rw [hcall] at hA
    obtain ⟨ho, hP, -⟩ := hA
    by_cases hrank : 1 < (s.finite.pc i).rank
    · left
      simp [step, hcall, State.stepFinite, FiniteLockFreeQueue.step,
        FiniteLockFreeQueue.access_isSome s.finite.mem false hrank]
    · right
      cases hf : s.finite.pc i with
      | pushTrue v n | pushFalse v =>
        simp [step, State.ret, hcall, hf, State.stepFinite, FiniteLockFreeQueue.step,
          State.stepOverflow, LockFreeQueue.step, ho]
      | pushLoadTail | pushLoadSeq | pushCas | pushWrite | pushStore =>
        rw [hf] at hrank
        exact absurd hrank (by simp [FiniteLockFreeQueue.Pc.rank])
      | _ =>
        rw [hf] at hP
        exact hP.elim
  | popFinite =>
    rw [hcall] at hA
    obtain ⟨ho, hP, -⟩ := hA
    by_cases hrank : 1 < (s.finite.pc i).rank
    · left
      simp [step, hcall, State.stepFinite, FiniteLockFreeQueue.step,
        FiniteLockFreeQueue.access_isSome s.finite.mem false hrank]
    · right
      cases hf : s.finite.pc i with
      | popTrue n result | popFalse =>
        simp [step, State.ret, hcall, hf, State.stepFinite, FiniteLockFreeQueue.step,
          State.stepOverflow, LockFreeQueue.step, ho]
      | popLoadHead | popLoadSeq | popCas | popRead | popStore =>
        rw [hf] at hrank
        exact absurd hrank (by simp [FiniteLockFreeQueue.Pc.rank])
      | _ =>
        rw [hf] at hP
        exact hP.elim
  | pushOverflow value =>
    rw [hcall] at hA
    obtain ⟨-, -, -, hP⟩ := hA
    by_cases hrank : 1 < (s.overflow.pc i).rank s.overflow.mem
    · left
      simp [step, hcall, State.stepOverflow, LockFreeQueue.step,
        hP.access_isSome (c := ⟨false, fresh⟩) hfresh hrank]
    · right
      cases ho : s.overflow.pc i with
      | pushDone =>
        simp [step, State.ret, hcall, State.stepOverflow, LockFreeQueue.step, ho]
      | pushNew | pushInit | pushLoadTail | pushLoadNext | pushCheck | pushLink | pushHelp
      | pushSwing =>
        rw [ho] at hrank
        dsimp only [LockFreeQueue.Pc.rank] at hrank
        omega
      | _ =>
        rw [ho] at hP
        exact hP.elim
  | popOverflow =>
    rw [hcall] at hA
    obtain ⟨-, -, -, hP⟩ := hA
    by_cases hrank : 1 < (s.overflow.pc i).rank s.overflow.mem
    · left
      simp [step, hcall, State.stepOverflow, LockFreeQueue.step,
        hP.access_isSome ⟨false, fresh⟩ hrank]
    · right
      cases ho : s.overflow.pc i with
      | popTrue result | popFalse =>
        simp [step, State.ret, hcall, State.stepOverflow, LockFreeQueue.step, ho]
      | popLoadHead | popLoadTail | popLoadNext | popCheck | popHelp | popRead | popCas
      | releaseLoad | releaseStore | releaseCas =>
        rw [ho] at hrank
        dsimp only [LockFreeQueue.Pc.rank] at hrank
        omega
      | _ =>
        rw [ho] at hP
        exact hP.elim

/-! ## The calls of a thread -/

/-- Since the elements were `b₀`, and `h₀` had been popped from the ring, the thread `i` has made
its calls as on the two lists. -/
def Follows (R : RingSize) (i : ι) (h₀ : ℕ) (b₀ : Buffers α) (calls₀ : List (QueueCall α))
    (results₀ : List (Option α)) (s : State ι α) : Prop :=
  ∃ calls, At R i s (h₀ + b₀.taken R.size calls) (b₀.after R.size calls) ∧
    s.results = results₀ ++ b₀.results R.size calls ∧ s.calls = calls₀ ++ calls ++ (s.pc i).call

variable {h₀ : ℕ} {b₀ : Buffers α} {calls₀ : List (QueueCall α)} {results₀ : List (Option α)}

theorem Follows.of_step (hF : Follows R i h₀ b₀ calls₀ results₀ s) (h2 : 2 ≤ R.size)
    {a : Action ι α} (hthread : a.thread = i) (hstep : step R s a = some s') :
    Follows R i h₀ b₀ calls₀ results₀ s' ∧ (a.Forward → s'.rank i < s.rank i) := by
  obtain ⟨calls, hA, hresults, hcalls⟩ := hF
  obtain ⟨done, hdone⟩ := hA.completes h2 hthread hstep
  refine ⟨⟨calls ++ done, ?_, ?_, ?_⟩, hdone.rank⟩
  · rw [Buffers.after_append, Buffers.taken_append, ← Nat.add_assoc]
    exact hdone.state
  · rw [hdone.results, hresults, Buffers.results_append, List.append_assoc]
  · rw [hdone.calls _ hcalls]
    simp only [List.append_assoc]

/-- The call that a step makes, if any. -/
def Action.call : Action ι α → List (QueueCall α)
  | .push _ value => [.push value]
  | .pop _ => [.pop]
  | .access _ _ | .ret _ => []

theorem calls_of_step {a : Action ι α} (hstep : step R s a = some s') :
    s'.calls = s.calls ++ a.call := by
  cases effect_of_step hstep with
  | push | pop => rfl
  | _ => exact (List.append_nil _).symm

/-- No step but a call adds to the calls. -/
theorem calls_of_forward {a : Action ι α} (hstep : step R s a = some s')
    (hforward : a.Forward) : s'.calls = s.calls := by
  cases a with
  | push | pop => exact hforward.elim
  | access | ret => exact (calls_of_step hstep).trans (List.append_nil _)

/-- **A call of an undisturbed thread returns**, when no exchange fails. -/
theorem Follows.finish (hF : Follows R i h₀ b₀ calls₀ results₀ s) (h2 : 2 ≤ R.size) :
    ∃ trace s', (system ι α R).Path (fun _ a => a.thread = i ∧ a.Forward) s trace s' ∧
      Follows R i h₀ b₀ calls₀ results₀ s' ∧ s'.pc i = .idle ∧ s'.calls = s.calls := by
  induction hn : s.rank i using Nat.strong_induction_on generalizing s with
  | _ n ih =>
    by_cases hpc : s.pc i = .idle
    · exact ⟨[], s, .nil s, hF, hpc, rfl⟩
    · obtain ⟨calls, hA, -⟩ := id hF
      obtain ⟨a, t, hthread, hforward, hstep⟩ := hA.next hpc
      obtain ⟨hF', hrank⟩ := hF.of_step h2 hthread hstep
      obtain ⟨trace, s', p, hF'', hidle, hcalls⟩ := ih _ (hn ▸ hrank hforward) hF' rfl
      exact ⟨_, s', (TransitionSystem.Path.single ⟨hthread, hforward⟩ hstep).trans p, hF'', hidle,
        hcalls.trans (calls_of_forward hstep hforward)⟩

/-- The step in which the thread `i` makes a call. -/
def callAction (i : ι) : QueueCall α → Action ι α
  | .push value => .push i value
  | .pop => .pop i

/-- **A thread makes its next call**, and it returns. -/
theorem Follows.exists_call (hF : Follows R i h₀ b₀ calls₀ results₀ s) (h2 : 2 ≤ R.size)
    (hidle : s.pc i = .idle) (call : QueueCall α) :
    ∃ trace s', (system ι α R).Path (fun _ a => a = callAction i call ∨ a.thread = i ∧ a.Forward) s
        trace s' ∧
      Follows R i h₀ b₀ calls₀ results₀ s' ∧ s'.pc i = .idle ∧ s'.calls = s.calls ++ [call] := by
  obtain ⟨calls, hA, -⟩ := id hF
  rw [At, hidle] at hA
  obtain ⟨t, hstep, hcalls⟩ : ∃ t, step R s (callAction i call) = some t ∧
      t.calls = s.calls ++ [call] := by
    cases call with
    | push value | pop =>
      simp [callAction, step, hidle, State.stepFinite, FiniteLockFreeQueue.step, hA.1]
  have hthread : (callAction i call : Action ι α).thread = i := by cases call <;> rfl
  obtain ⟨hF', -⟩ := hF.of_step h2 hthread hstep
  obtain ⟨trace, s', p, hF'', hidle', hcalls'⟩ := hF'.finish h2
  have hfirst : (system ι α R).Path (fun _ a => a = callAction i call ∨ a.thread = i ∧ a.Forward) s
      [⟨s, callAction i call, t⟩] t := .single (Or.inl rfl) hstep
  exact ⟨_, s', hfirst.trans (p.mono fun _ _ => Or.inr), hF'', hidle', hcalls'.trans hcalls⟩

omit [DecidableEq ι] in
theorem follows_of_initial (i : ι) (hs : IsInitial R s) : Follows R i 0 ⟨[], []⟩ [] [] s := by
  obtain ⟨hf, ho, hpc, hcalls, hresults⟩ := hs
  refine ⟨[], ?_, hresults, ?_⟩
  · rw [At, hpc]
    obtain ⟨dummy, -, -, -, -, -, hopc, -⟩ := id ho
    exact ⟨hf.2.2.2.1 i, hopc i, FiniteLockFreeQueue.ring_of_initial hf,
      LockFreeQueue.line_of_initial ho⟩
  · rw [hcalls, hpc]
    rfl

/-! ## A single thread uses the queue -/

/-- The calls of the thread `i`, which uses a new queue alone, have the results that they have
on a `TU_LockQueue`. -/
structure DropIn (R : RingSize) (i : ι) (calls : List (QueueCall α)) : Prop where
  /-- The calls can be made. -/
  returns : ∃ s : State ι α, (system ι α R).Reaches (fun _ a => a.thread = i) s ∧
    s.pc i = .idle ∧ s.calls = calls
  results : ∀ s : State ι α, (system ι α R).Reaches (fun _ a => a.thread = i) s →
    s.pc i = .idle → s.calls = calls → s.results = LockQueue.results [] calls

/-- A new queue. -/
def newQueue (x : α) : State ι α where
  finite :=
    { mem := { sequence := id, data := fun _ => x, head := 0, tail := 0 }
      pc := fun _ => .idle, calls := 0, pushed := [], popped := [] }
  overflow :=
    { mem :=
        { head_ := ⟨some 0, 0⟩, tail_ := ⟨some 0, 0⟩, free_ := ⟨none, 0⟩
          next := fun _ => ⟨none, 0⟩, data := fun _ => x, allocated := {0} }
      pc := fun _ => .idle, calls := 0 }
  pc := fun _ => .idle
  calls := []
  results := []

omit [DecidableEq ι] in
theorem isInitial_newQueue (x : α) : IsInitial R (newQueue x : State ι α) :=
  ⟨⟨fun _ _ => rfl, rfl, rfl, fun _ => rfl, rfl, rfl, rfl⟩,
    ⟨0, rfl, rfl, rfl, rfl, rfl, fun _ => rfl, rfl⟩, fun _ => rfl, rfl, rfl⟩

/-- **The results are those of the two lists**, in every run of the thread. -/
theorem results_of_reaches (h2 : 2 ≤ R.size)
    (hs : (system ι α R).Reaches (fun _ a => a.thread = i) s) (hidle : s.pc i = .idle) :
    s.results = Buffers.results R.size ⟨[], []⟩ s.calls := by
  obtain ⟨calls, -, hresults, hcalls⟩ := hs.invariant (I := Follows R i 0 ⟨[], []⟩ [] [])
    (fun s h => follows_of_initial i h) fun s a s' _ hF hthread h => (hF.of_step h2 hthread h).1
  rw [hidle] at hcalls
  rw [hresults, hcalls]
  simp [Pc.call]

/-- All sequences of calls can be made. -/
theorem exists_reaches [Nonempty α] (h2 : 2 ≤ R.size) (i : ι) (calls : List (QueueCall α)) :
    ∃ s : State ι α, (system ι α R).Reaches (fun _ a => a.thread = i) s ∧
      Follows R i 0 ⟨[], []⟩ [] [] s ∧ s.pc i = .idle ∧ s.calls = calls := by
  induction calls using List.reverseRecOn with
  | nil =>
    obtain ⟨x⟩ := ‹Nonempty α›
    exact ⟨newQueue x, .start (isInitial_newQueue x), follows_of_initial i (isInitial_newQueue x),
      rfl, rfl⟩
  | append_singleton calls call ih =>
    obtain ⟨s, hs, hF, hidle, rfl⟩ := ih
    obtain ⟨trace, s', p, hF', hidle', hcalls⟩ := hF.exists_call h2 hidle call
    refine ⟨s', (p.mono fun _ a ha => ?_).reaches hs, hF', hidle', hcalls⟩
    rcases ha with rfl | ⟨hthread, -⟩
    · cases call <;> rfl
    · exact hthread

/-- **When the queue is a drop-in replacement**: the results are those of a `TU_LockQueue`, for
all values, exactly when no pop comes to an element that has overtaken another one. -/
theorem dropIn_iff [Nontrivial α] (R : RingSize) (h2 : 2 ≤ R.size) (i : ι)
    (kinds : List QueueCallKind) :
    (∀ calls : List (QueueCall α), calls.map QueueCall.kind = kinds → DropIn R i calls) ↔
      fifoOrder R.size 0 0 kinds = true := by
  rw [← Buffers.forall_results_eq_iff (α := α)]
  refine forall₂_congr fun calls _ => ⟨fun h => ?_, fun h => ⟨?_, fun s hs hidle hcalls => ?_⟩⟩
  · obtain ⟨s, hs, hidle, hcalls⟩ := h.returns
    rw [← h.results s hs hidle hcalls, results_of_reaches h2 hs hidle, hcalls]
  · obtain ⟨s, hs, -, hidle, hcalls⟩ := exists_reaches h2 i calls
    exact ⟨s, hs, hidle, hcalls⟩
  · rw [results_of_reaches h2 hs hidle, hcalls, h]

/-- The ring overflows and is drained, in order. -/
theorem dropIn_iff_drain : fifoOrder 2 0 0 [.push, .push, .push, .pop, .pop, .pop] = true ∧
    DropIn FiniteLockFreeQueue.ringOfTwo () [.push 7, .push 8, .push 9, .pop, .pop, .pop] :=
  ⟨by decide, (dropIn_iff (ι := Unit) FiniteLockFreeQueue.ringOfTwo (by decide) ()
    [.push, .push, .push, .pop, .pop, .pop]).mpr (by decide) _ rfl⟩

/-- Three elements are pushed, of which the last one overflows; after a pop there is room in
the ring again, and the fourth element goes before the third one. -/
def overtaken : List (QueueCall ℕ) :=
  [.push 1, .push 2, .push 3, .pop, .push 4, .pop, .pop]

/-- A call of the single thread with `k` accesses of the ring. -/
def inRing (call : Action Unit ℕ) (k : ℕ) : List (Action Unit ℕ) :=
  call :: List.replicate k (.access () ⟨false, 0⟩) ++ [.ret ()]

/-- The steps of the calls of `overtaken`. -/
def overtakenSteps : List (Action Unit ℕ) :=
  inRing (.push () 1) 5 ++ inRing (.push () 2) 5 ++
    (inRing (.push () 3) 2 ++ List.replicate 7 (.access () ⟨false, 1⟩) ++ [.ret ()]) ++
    inRing (.pop ()) 5 ++ inRing (.push () 4) 5 ++ inRing (.pop ()) 5 ++ inRing (.pop ()) 5

theorem not_dropIn_overtaken : ¬ DropIn FiniteLockFreeQueue.ringOfTwo () overtaken := by
  intro h
  have hs : (system Unit ℕ FiniteLockFreeQueue.ringOfTwo).Reaches (fun _ a => a.thread = ())
      ((system Unit ℕ FiniteLockFreeQueue.ringOfTwo).replayWithin (fun _ a => a.thread = ())
        (newQueue 0) overtakenSteps) :=
    TransitionSystem.Reaches.replayWithin (.start (isInitial_newQueue 0)) overtakenSteps (by decide)
  have hresults := h.results _ hs (by decide) (by rfl)
  exact absurd hresults (by decide)

end FiniteOverflowQueue
end ThreadUtils
