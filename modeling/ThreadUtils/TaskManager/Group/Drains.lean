import ThreadUtils.DataStructures.FiniteOverflowQueue.LockFree
import ThreadUtils.TaskManager.Group.NotStranded

/-!
# A group executes every operation

The pushes of a run pay for all of its steps: a push for its permit, for the pass of the worker
that takes the permit, and for the execution of its operation; and the queue is lock-free.  So a
group to which nothing more is pushed comes to rest, and then it has executed every operation once.

## Two accounts

The steps outside of the queue lower `State.work`, which only a push raises (`work_of_step`).  The
steps in the queue are those of a run of the queue (`queue_path`), whose calls are the pushes and
the passes of the workers; and that run has no more steps than its calls and its spurious failures
pay for.  A pass is a step of the first account, so the pushes bound the passes and the passes bound
the steps in the queue.  No scheduler has to be fair for this.

## At rest

A group is at rest when no thread but the user can make a step.  Then no thread is inside the queue,
since a call there is never stuck, no permit is left and every worker waits for one
(`Stuck.pc_cases`).  The queue is empty, for otherwise somebody would be in charge of it.  What was
pushed and is not in the queue was returned by a pop, and what a pop returned was executed.  This
last step counts the elements in the queue, and uses that nothing is lost there.
-/

namespace ThreadUtils
namespace TaskManager
namespace Group

open TransitionSystem (Transition component countP_or_le)
open FiniteLockFreeQueue (RingSize)

variable {ι α : Type*} {R : RingSize}

/-- The operations given to `tu_tm_push_op`. -/
def State.pushed (s : State ι α) : Multiset α :=
  s.queue.begun

/-- The operations that `worker_pop_op` has given to a worker. -/
def State.executed (s : State ι α) : Multiset α :=
  s.queue.returned

/-! ## The kinds of steps -/

/-- The user calls `tu_tm_push_op`. -/
def isPushOp (t : Transition (State ι α) (Action ι α)) : Bool :=
  match t.action with
  | .pushOp _ _ => true
  | _ => false

/-- A step outside of the queue, or the call of `worker_pop_op`. -/
def isMove (t : Transition (State ι α) (Action ι α)) : Bool :=
  match t.action with
  | .release _ | .acquire _ | .popOp _ | .execReturn _ => true
  | _ => false

/-- The environment makes an exchange fail. -/
def isSpurious (t : Transition (State ι α) (Action ι α)) : Bool :=
  match t.action with
  | .access _ c => c.spurious
  | _ => false

/-! ## The run of the queue -/

/-- What the queue does in a step. -/
def queueAction (_ : State ι α) : Action ι α → Option (FiniteOverflowQueue.Action ι α)
  | .pushOp i op => some (.push i op)
  | .popOp i => some (.pop i)
  | .access i c => some (.access i c)
  | .ret i => some (.ret i)
  | .release _ | .acquire _ | .execReturn _ => none

/-- The steps of the queue in a run. -/
def queueTrace (trace : List (Transition (State ι α) (Action ι α))) :
    List (Transition (FiniteOverflowQueue.State ι α) (FiniteOverflowQueue.Action ι α)) :=
  trace.filterMap (component State.queue queueAction)

theorem length_le_queueTrace (trace : List (Transition (State ι α) (Action ι α))) :
    trace.length ≤ (queueTrace trace).length + trace.countP isMove := by
  have hall : trace.countP (fun t => (queueAction t.source t.action).isSome || isMove t) =
      trace.length := by
    refine List.countP_eq_length.mpr fun t _ => ?_
    obtain ⟨u, a, u'⟩ := t
    cases a <;> rfl
  rw [queueTrace, TransitionSystem.length_component, ← hall]
  exact countP_or_le _ _ trace

/-- The calls of the queue are the pushes and the passes of the workers. -/
theorem countP_isCall_queueTrace (trace : List (Transition (State ι α) (Action ι α))) :
    (queueTrace trace).countP FiniteOverflowQueue.isCall ≤
      trace.countP isPushOp + trace.countP isMove := by
  rw [queueTrace, List.countP_filterMap]
  refine (List.countP_mono_left fun t _ h => ?_).trans (countP_or_le isPushOp isMove trace)
  obtain ⟨u, a, u'⟩ := t
  cases a with
  | pushOp i op | popOp i => rfl
  | access i c | ret i => cases h
  | release i | acquire i | execReturn i => rfl

theorem countP_isSpurious_queueTrace (trace : List (Transition (State ι α) (Action ι α))) :
    (queueTrace trace).countP FiniteOverflowQueue.isSpurious = trace.countP isSpurious := by
  rw [queueTrace, List.countP_filterMap]
  refine List.countP_congr fun t _ => ?_
  obtain ⟨u, a, u'⟩ := t
  cases a <;> simp [component, queueAction, isSpurious, FiniteOverflowQueue.isSpurious]

variable [DecidableEq ι] {s s' : State ι α} {a : Action ι α}

theorem queue_path {ok : State ι α → Action ι α → Prop}
    {trace : List (Transition (State ι α) (Action ι α))} (p : (system ι α R).Path ok s trace s') :
    (FiniteOverflowQueue.system ι α R).Path (fun _ _ => True) s.queue (queueTrace trace)
      s'.queue := by
  refine p.project fun u a u' h => ?_
  cases effect_of_step h with
  | pushOp i op worker q hpc hq | popOp i q hpc hq | access i c q hpc hq
  | pushed i worker q hpc hq | popped i q hpc hq => exact hq
  | release i worker hpc | acquire i hpc hsem | execReturn i hpc => rfl

/-! ## The work outside of the queue -/

/-- What a thread has to do until it waits for a permit, or returns to the user. -/
def Pc.work : Pc → ℕ
  | .exec worker => 2 * worker.toNat
  | .push worker => 2 * worker.toNat + 4
  | .release worker => 2 * worker.toNat + 3
  | .drain => 1
  | .acquire | .pop => 0

variable [Fintype ι]

/-- The work of the threads, and that for the permits and the operations on their way. -/
def State.work (s : State ι α) : ℕ :=
  ∑ i, (s.pc i).work + 2 * s.sem + 2 * (s.pushed.card - s.executed.card)

/-- The account of a thread that goes on. -/
theorem work_goto {i : ι} {p q : Pc} {t : State ι α} {m k : ℕ} (hpc : s.pc i = p)
    (hpc' : t.pc = Function.update s.pc i q)
    (hle : q.work + 2 * t.sem + 2 * (t.pushed.card - t.executed.card) + m ≤
      p.work + 2 * s.sem + 2 * (s.pushed.card - s.executed.card) + k) :
    t.work + m ≤ s.work + k := by
  have hsum := sum_update_exchange Pc.work s.pc i q
  rw [hpc] at hsum
  rw [State.work, State.work, hpc']
  omega

/-- **The account of a step.**  Every step outside of the queue lowers the work, and only a push
raises it. -/
theorem work_of_step (hA : ∀ i, Agree s i) (h : step R s a = some s')
    (hle : s'.queue.calls = s.queue.calls → s'.executed.card ≤ s'.pushed.card) :
    s'.work + (if isMove ⟨s, a, s'⟩ then 1 else 0) ≤
      s.work + if isPushOp ⟨s, a, s'⟩ then 6 else 0 := by
  cases effect_of_step h with
  | pushOp i op worker q hpc hq =>
    have hq : (q.begun.card = s.queue.begun.card + 1) ∧ q.returned = s.queue.returned := by
      cases FiniteOverflowQueue.effect_of_step hq with
      | push j value t hidle ht =>
        refine ⟨?_, rfl⟩
        simp [FiniteOverflowQueue.State.begun, QueueCall.value?]
    refine work_goto hpc rfl ?_
    show 2 * worker.toNat + 4 + 2 * s.sem + 2 * (q.begun.card - q.returned.card) + 0 ≤
      2 * worker.toNat + 2 * s.sem + 2 * (s.queue.begun.card - s.queue.returned.card) + 6
    rw [hq.1, hq.2]
    omega
  | popOp i q hpc hq =>
    have hq : q.begun.card = s.queue.begun.card ∧ q.returned = s.queue.returned := by
      cases FiniteOverflowQueue.effect_of_step hq with
      | pop j t hidle ht =>
        refine ⟨?_, rfl⟩
        simp [FiniteOverflowQueue.State.begun, QueueCall.value?]
    refine work_goto hpc rfl ?_
    show 0 + 2 * s.sem + 2 * (q.begun.card - q.returned.card) + 1 ≤
      1 + 2 * s.sem + 2 * (s.queue.begun.card - s.queue.returned.card) + 0
    rw [hq.1, hq.2]
    omega
  | access i c q hpc hq =>
    have hq : q.begun = s.queue.begun ∧ q.returned = s.queue.returned := by
      cases FiniteOverflowQueue.effect_of_step hq with
      | finite j c t hin ht | overflow j c u hin hu => exact ⟨rfl, rfl⟩
    refine work_goto (i := i) rfl (Function.update_eq_self i s.pc).symm ?_
    show (s.pc i).work + 2 * s.sem + 2 * (q.begun.card - q.returned.card) + 0 ≤ _
    rw [hq.1, hq.2]
    exact le_rfl
  | pushed i worker q hpc hq =>
    have hagree := hA i
    simp only [Agree, hpc] at hagree
    have hq : q.begun = s.queue.begun ∧ q.returned = s.queue.returned := by
      cases FiniteOverflowQueue.effect_of_step hq with
      | pushed j value t hin hf ht | overflowed j value u hin hu
      | refused j value t u hin hf ht hu => exact ⟨rfl, rfl⟩
      | popped j n result t hin hf ht | missed j t u hin hf ht hu
      | overflowPopped j result u hin ho hu | empty j u hin ho hu =>
        rw [hin] at hagree
        exact hagree.elim
    have hafter : (afterPush q i worker).work ≤ 2 * worker.toNat + 4 := by
      unfold afterPush
      split
      · exact Nat.le_succ _
      · exact le_rfl
    refine work_goto hpc rfl ?_
    show (afterPush q i worker).work + 2 * s.sem + 2 * (q.begun.card - q.returned.card) + 0 ≤
      2 * worker.toNat + 4 + 2 * s.sem + 2 * (s.queue.begun.card - s.queue.returned.card) + 0
    rw [hq.1, hq.2]
    omega
  | popped i q hpc hq =>
    have hagree := hA i
    simp only [Agree, hpc] at hagree
    have hcalls : q.calls = s.queue.calls := by
      cases FiniteOverflowQueue.effect_of_step hq <;> rfl
    have hbegun : q.begun = s.queue.begun := by
      rw [FiniteOverflowQueue.State.begun, hcalls, FiniteOverflowQueue.State.begun]
    have hreturned : q.returned = (q.results.reduceOption : Multiset α) := rfl
    have hle : q.returned.card ≤ q.begun.card := hle hcalls
    refine work_goto hpc rfl ?_
    show (afterPop q i).work + 2 * s.sem + 2 * (q.begun.card - q.returned.card) + 0 ≤
      0 + 2 * s.sem + 2 * (s.queue.begun.card - s.queue.returned.card) + 0
    rw [hbegun] at hle ⊢
    cases popReturn_of_ret hagree hq with
    | missed hin hresults =>
      rw [hreturned, hresults, afterPop, hin]
      exact le_rfl
    | taken result hin hresults =>
      -- the operation that is executed now was on its way before
      have hcard : q.returned.card = s.queue.returned.card + 1 := by
        rw [hreturned, hresults, List.reduceOption_append, ← Multiset.coe_add, Multiset.card_add]
        rfl
      rw [afterPop, hin, hresults, List.getLast?_concat]
      show 2 + 2 * s.sem + _ + 0 ≤ _
      omega
    | empty hin hresults hover hfalse =>
      have hsame : q.returned = s.queue.returned := by
        rw [hreturned, hresults, List.reduceOption_append, ← Multiset.coe_add]
        exact add_zero _
      rw [afterPop, hin, hresults, List.getLast?_concat, hsame]
      exact le_rfl
  | release i worker hpc =>
    refine work_goto hpc rfl ?_
    show 2 * worker.toNat + 2 * (s.sem + 1) + 2 * (s.pushed.card - s.executed.card) + 1 ≤
      2 * worker.toNat + 3 + 2 * s.sem + 2 * (s.pushed.card - s.executed.card) + 0
    omega
  | acquire i hpc hsem =>
    refine work_goto hpc rfl ?_
    show 1 + 2 * (s.sem - 1) + 2 * (s.pushed.card - s.executed.card) + 1 ≤
      0 + 2 * s.sem + 2 * (s.pushed.card - s.executed.card) + 0
    omega
  | execReturn i hpc =>
    refine work_goto hpc rfl ?_
    show 1 + 2 * s.sem + 2 * (s.pushed.card - s.executed.card) + 1 ≤
      2 + 2 * s.sem + 2 * (s.pushed.card - s.executed.card) + 0
    omega

/-- No operation is executed that was not pushed. -/
theorem executed_card_le (h2 : 2 ≤ R.size)
    (hs : (FiniteOverflowQueue.system ι α R).Reachable s.queue)
    (hb : s.queue.calls.length < 2 ^ 63) : s.executed.card ≤ s.pushed.card := by
  have hL := FiniteOverflowQueue.ledger_of_reachable h2 hs hb
  have hcard := congrArg Multiset.card (show s.queue.begun = _ from hL)
  rw [Multiset.card_add, Multiset.card_add] at hcard
  show s.queue.returned.card ≤ s.queue.begun.card
  omega

/-- The moves of a run, by its pushes. -/
theorem countP_isMove_le (h2 : 2 ≤ R.size) {s₀ : State ι α}
    {trace : List (Transition (State ι α) (Action ι α))} (hs₀ : IsInitial R s₀)
    (p : (system ι α R).Path (fun _ _ => True) s₀ trace s)
    (hb : s.queue.calls.length < 2 ^ 63) :
    trace.countP isMove ≤ 6 * trace.countP isPushOp := by
  have hpath := ((p.with_invariant (J := (system ι α R).Reachable) (.start hs₀)
    fun _ _ _ hu _ hstep => .next hu trivial hstep).1).within
      (B := fun u => u.queue.calls.length < 2 ^ 63)
      (fun _ _ _ hstep hlt => (calls_le_of_step hstep).trans_lt hlt) hb
  have hcount := hpath.countP_add_le State.work isMove isPushOp 6 fun u a u' hok hstep => by
    have hI := inv_of_reachable h2 hok.1.2 hok.2
    refine work_of_step hI.agree hstep fun heq => ?_
    exact executed_card_le h2 (reachable_of_step hI.reachable hstep) (heq ▸ hok.2)
  have hstart : s₀.work = 0 := by
    obtain ⟨⟨-, -, -, hcalls, -⟩, hsem, hpc⟩ := hs₀
    have hpushed : s₀.pushed.card = 0 := by
      rw [State.pushed, FiniteOverflowQueue.State.begun, hcalls]
      rfl
    have hsum : ∑ i, (s₀.pc i).work = 0 :=
      Finset.sum_eq_zero fun i _ => by rcases hpc i with hpc | hpc <;> rw [hpc] <;> rfl
    rw [State.work, hsum, hsem, hpushed, Nat.zero_sub]
  omega

/-! ## Where nothing more can happen -/

/-- A step that the user does not have to bring about. -/
def Action.IsOwn : Action ι α → Prop
  | .pushOp _ _ => False
  | _ => True

/-- The group has come to rest. -/
def Stuck (R : RingSize) (s : State ι α) : Prop :=
  ∀ a : Action ι α, a.IsOwn → step R s a = none

omit [Fintype ι] in
theorem isSome_inQueue {i : ι} {b : FiniteOverflowQueue.Action ι α}
    {pc : FiniteOverflowQueue.State ι α → Pc}
    (h : (FiniteOverflowQueue.step R s.queue b).isSome) : (s.inQueue R i b pc).isSome := by
  rw [State.inQueue, Option.isSome_map]
  exact h

omit [Fintype ι] in
/-- A thread in the queue goes on when the queue does. -/
theorem isSome_of_queue {i : ι} {b : FiniteOverflowQueue.Action ι α} {a : Action ι α}
    (hin : (∃ worker, s.pc i = .push worker) ∨ s.pc i = .pop)
    (hab : (∃ c, b = .access i c ∧ a = .access i c) ∨ b = .ret i ∧ a = .ret i)
    (h : (FiniteOverflowQueue.step R s.queue b).isSome) : (step R s a).isSome := by
  rcases hab with ⟨c, rfl, rfl⟩ | ⟨rfl, rfl⟩ <;> rcases hin with ⟨worker, hin⟩ | hin <;>
    · rw [step, hin]
      exact isSome_inQueue h

/-- A thread outside of the queue can call `pop`. -/
theorem isSome_pop {q : FiniteOverflowQueue.State ι α} (hC : FiniteOverflowQueue.Composed R q)
    {i : ι} (hidle : q.pc i = .idle) : (FiniteOverflowQueue.step R q (.pop i)).isSome := by
  have hagree := hC.agree i
  unfold FiniteOverflowQueue.Agree at hagree
  simp only [hidle] at hagree
  rw [FiniteOverflowQueue.step, hidle]
  dsimp only [FiniteOverflowQueue.State.stepFinite, FiniteLockFreeQueue.step]
  rw [hagree.1]
  rfl

/-- **In a group at rest** every worker waits for a permit and every client is in its own code. -/
theorem Stuck.pc_cases (hstuck : Stuck R s) (hI : Inv R s) (hb : s.queue.calls.length < 2 ^ 63)
    (i : ι) : s.pc i = .acquire ∧ s.sem = 0 ∨ s.pc i = .exec false := by
  have hC := FiniteOverflowQueue.composed_of_reachable hI.reachable
  have hP := FiniteOverflowQueue.pops_of_reachable hI.reachable
  have hagree := hI.agree i
  have hnone : ∀ a : Action ι α, a.IsOwn → ¬ (step R s a).isSome := fun a ha => by
    rw [hstuck a ha]
    exact Bool.false_ne_true
  have hcall : ¬ ((∃ worker, s.pc i = .push worker) ∨ s.pc i = .pop) := by
    intro hin
    have hne : s.queue.pc i ≠ .idle := by
      intro hidle
      unfold Agree at hagree
      rcases hin with ⟨worker, hin⟩ | hin <;> simp only [hin, hidle] at hagree
      · exact hagree
      · exact hagree
    rcases FiniteOverflowQueue.isSome_of_call hC hP hb hne with ⟨c, hc⟩ | hret
    · exact hnone (.access i c) trivial (isSome_of_queue hin (Or.inl ⟨c, rfl, rfl⟩) hc)
    · exact hnone (.ret i) trivial (isSome_of_queue hin (Or.inr ⟨rfl, rfl⟩) hret)
  cases hpc : s.pc i with
  | push worker => exact absurd (Or.inl ⟨worker, hpc⟩) hcall
  | pop => exact absurd (Or.inr hpc) hcall
  | exec worker =>
    cases worker with
    | false => exact Or.inr rfl
    | true =>
      refine absurd ?_ (hnone (.execReturn i) trivial)
      rw [step, hpc]
      rfl
  | release worker =>
    refine absurd ?_ (hnone (.release i) trivial)
    rw [step, hpc]
    rfl
  | drain =>
    simp only [Agree, hpc] at hagree
    refine absurd ?_ (hnone (.popOp i) trivial)
    rw [step, hpc]
    exact isSome_inQueue (isSome_pop hC hagree)
  | acquire =>
    refine Or.inl ⟨rfl, ?_⟩
    by_contra hsem
    refine hnone (.acquire i) trivial ?_
    rw [step, hpc]
    dsimp only
    rw [if_pos (Nat.pos_of_ne_zero hsem)]
    rfl

omit [Fintype ι] in
/-- Where every worker waits and there is no permit, nothing but a push can happen. -/
theorem stuck_of_rest (hsem : s.sem = 0) (hpc : ∀ i, s.pc i = .acquire ∨ s.pc i = .exec false) :
    Stuck R s := by
  intro a ha
  cases a with
  | pushOp i op => exact ha.elim
  | acquire i =>
    rcases hpc i with hin | hin <;> rw [step, hin]
    exact if_neg (by omega)
  | release i | popOp i | access i c | ret i | execReturn i =>
    rcases hpc i with hin | hin <;> rw [step, hin]

/-- The thread is a worker of the group. -/
def Pc.worker : Pc → Bool
  | .exec worker | .push worker | .release worker => worker
  | .acquire | .drain | .pop => true

omit [Fintype ι] in
/-- A worker stays one. -/
theorem worker_of_step (h : step R s a = some s') (j : ι) :
    (s'.pc j).worker = (s.pc j).worker := by
  have hmove : ∀ (i : ι) (p q : Pc), s.pc i = p → q.worker = p.worker →
      (Function.update s.pc i q j).worker = (s.pc j).worker := by
    rintro i _ q rfl hq
    by_cases hj : j = i
    · subst hj
      rw [Function.update_self]
      exact hq
    · rw [Function.update_of_ne hj]
  cases effect_of_step h with
  | pushOp i op worker q hpc hq => exact hmove i _ _ hpc rfl
  | release i worker hpc => exact hmove i _ _ hpc rfl
  | acquire i hpc hsem => exact hmove i _ _ hpc rfl
  | popOp i q hpc hq => exact hmove i _ _ hpc rfl
  | execReturn i hpc => exact hmove i _ _ hpc rfl
  | access i c q hpc hq => rfl
  | pushed i worker q hpc hq =>
    refine hmove i _ _ hpc ?_
    unfold afterPush
    split <;> rfl
  | popped i q hpc hq =>
    refine hmove i _ _ hpc ?_
    unfold afterPop
    split <;> rfl

/-- **A group at rest** has executed every operation once. -/
theorem Stuck.executed_eq (hstuck : Stuck R s) (h2 : 2 ≤ R.size) (hI : Inv R s)
    (hb : s.queue.calls.length < 2 ^ 63) (hworker : ∃ i, (s.pc i).worker = true) :
    s.executed = s.pushed := by
  have hpc := hstuck.pc_cases hI hb
  have hsem : s.sem = 0 := by
    obtain ⟨i, hi⟩ := hworker
    rcases hpc i with ⟨-, hsem⟩ | hin
    · exact hsem
    · rw [hin] at hi
      cases hi
  have hempty : s.queue.Empty := by
    by_contra hne
    rcases hI.covered hne with hpos | ⟨i, hi⟩ | ⟨i, hi⟩
    · omega
    · rcases hpc i with ⟨hin, -⟩ | hin <;> rw [hin] at hi <;> exact hi
    · unfold State.Awake at hi
      rcases hpc i with ⟨hin, -⟩ | hin <;> simp only [hin] at hi
  have hL : s.queue.begun = s.queue.returned + s.queue.stored + ∑ i, s.queue.inHand i :=
    FiniteOverflowQueue.ledger_of_reachable h2 hI.reachable hb
  have hC := FiniteOverflowQueue.composed_of_reachable hI.reachable
  have hhand : ∀ i, s.queue.inHand i = 0 := by
    intro i
    have hagree := hI.agree i
    have hidle : s.queue.pc i = .idle := by
      unfold Agree at hagree
      rcases hpc i with ⟨hin, -⟩ | hin <;> simpa only [hin] using hagree
    have hinner := hC.agree i
    unfold FiniteOverflowQueue.Agree at hinner
    simp only [hidle] at hinner
    rw [FiniteOverflowQueue.inHand_eq hinner.1 hinner.2]
    rfl
  rw [FiniteOverflowQueue.State.stored, hempty.1, hempty.2,
    Finset.sum_eq_zero fun i _ => hhand i] at hL
  show s.queue.returned = s.queue.begun
  rw [hL]
  simp

/-- **A group drains.**  In every run of a group with a worker the pushes and the spurious failures
bound the number of steps, and where nothing but a push can happen any more, every operation that
was pushed has been executed once. -/
theorem group_drains (R : RingSize) (h2 : 2 ≤ R.size) (s₀ s : State ι α)
    (trace : List (Transition (State ι α) (Action ι α))) (hs₀ : IsInitial R s₀)
    (hworker : ∃ i, s₀.pc i = .acquire) (p : (system ι α R).Path (fun _ _ => True) s₀ trace s)
    (hb : s.queue.calls.length < 2 ^ 63) :
    trace.length ≤ (35 * trace.countP isPushOp + trace.countP isSpurious +
        6 * Fintype.card ι + 3) * (13 * Fintype.card ι + 1) + 6 * trace.countP isPushOp ∧
      (Stuck R s → s.executed = s.pushed ∧ ∀ i, s.pc i = .acquire ∨ s.pc i = .exec false) := by
  have hreachable := p.reachable (.start hs₀)
  have hI := inv_of_reachable h2 hreachable hb
  constructor
  · have hmoves := countP_isMove_le h2 hs₀ p hb
    have hlength := length_le_queueTrace trace
    have hcalls := countP_isCall_queueTrace trace
    have hqueue := FiniteOverflowQueue.length_le_of_calls h2 (.start hs₀.1) (queue_path p) hb
    rw [countP_isSpurious_queueTrace] at hqueue
    have hle : (queueTrace trace).length ≤ (35 * trace.countP isPushOp +
        trace.countP isSpurious + 6 * Fintype.card ι + 3) * (13 * Fintype.card ι + 1) :=
      hqueue.trans (Nat.mul_le_mul_right _ (by omega))
    omega
  · intro hstuck
    refine ⟨hstuck.executed_eq h2 hI hb ?_, fun i => (hstuck.pc_cases hI hb i).imp And.left id⟩
    obtain ⟨i, hi⟩ := hworker
    refine ⟨i, ?_⟩
    have hsame := p.invariant (I := fun _ u => (u.pc i).worker = (s₀.pc i).worker) rfl
      fun _ _ _ _ ih _ hstep => (worker_of_step hstep i).trans ih
    rw [hsame, hi]
    rfl

/-- A worker finds the queue empty and waits for a permit. -/
def findEmpty (i : Fin 3) : List (Action (Fin 3) ℕ) :=
  [.popOp i] ++ List.replicate 2 (.access i ⟨false, 1⟩) ++ [.ret i] ++
    List.replicate 4 (.access i ⟨false, 1⟩) ++ [.ret i]

/-- The worker `2` takes `10` as well, and the workers use up the permits. -/
def drainSteps : List (Action (Fin 3) ℕ) :=
  misledSteps ++ [.execReturn 2] ++ popFromRing 2 ++ findEmpty 2 ++ [.acquire 1] ++ findEmpty 1 ++
    [.acquire 2] ++ findEmpty 2

def drained : State (Fin 3) ℕ :=
  (system (Fin 3) ℕ FiniteLockFreeQueue.ringOfTwo).replay newGroup drainSteps

/-- Four operations are pushed and executed, three of them through the ring. -/
theorem group_drains_drained : drained.pushed = {7, 8, 9, 10} ∧ drained.executed = drained.pushed :=
  ⟨by decide, ((group_drains FiniteLockFreeQueue.ringOfTwo (by decide) newGroup drained _
    isInitial_newGroup ⟨1, rfl⟩ (TransitionSystem.Path.replay drainSteps (by decide))
    (by decide)).2 (stuck_of_rest (by decide) (by decide))).1⟩

end Group
end TaskManager
end ThreadUtils
