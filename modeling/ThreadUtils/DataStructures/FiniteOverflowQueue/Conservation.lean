import Mathlib.Data.List.ReduceOption
import ThreadUtils.DataStructures.FiniteLockFreeQueue.Conservation
import ThreadUtils.DataStructures.FiniteOverflowQueue.Sequential
import ThreadUtils.DataStructures.LockFreeQueue.Conservation

/-!
# No element is lost or duplicated

Every element whose push has begun is in one place: it was returned by a pop, it is in the
ring or in the overflow list, or a thread has it in its hands (`Ledger`).  The ring and the
list each keep their own elements, and the calls of the outer queue hand them over.

This rests on the invariants of the two queues, and thus on a bound on the number of calls.

## Two queues in one run

The queue has no shared variable of its own.  A run of it is a run of the ring and a run of the
overflow queue, and `Composed` says that the two states are reachable in their own systems and that
each thread is where its program counter says.  So everything that was proved about the two queues
holds here, and nothing about their accesses is proved again (`inner_of_step`).

Each of the two bounds its own calls.  A call of the queue is one call of the ring, and a call of
the overflow queue comes after a call of the ring that failed, so neither makes more calls than the
queue does.

## The hands of a thread

An element is in the hands of a thread in a push up to the exchange, or the link, that gives it
away, and in a pop from the exchange on that takes it.  In a push that the ring has refused it stays
in hand until the overflow queue has it; this is the only time that an element of the queue is in
neither of the two.  A step moves the element of its own thread and touches no other
(`Ledger.of_exchange`), so the ledger is kept step by step.
-/

namespace ThreadUtils
namespace FiniteOverflowQueue

open FiniteLockFreeQueue (RingSize)

variable {ι : Type*} {α : Type*} {R : RingSize}

/-! ## The two queues in a run -/

/-- The value that a push has in its local variable. -/
def valueOf : FiniteLockFreeQueue.Pc α → Option α
  | .pushLoadTail value | .pushLoadSeq value _ | .pushCas value _ | .pushWrite value _
  | .pushStore value _ | .pushTrue value _ | .pushFalse value => some value
  | _ => none

theorem valueOf_of_access {m : FiniteLockFreeQueue.Mem α} {spurious : Bool}
    {pc : FiniteLockFreeQueue.Pc α} {r : FiniteLockFreeQueue.Mem α × FiniteLockFreeQueue.Pc α}
    (h : m.access R spurious pc = some r) : valueOf r.2 = valueOf pc := by
  cases pc with
  | idle | pushTrue | pushFalse | popTrue | popFalse => cases h
  | pushLoadSeq | popLoadSeq =>
    rw [FiniteLockFreeQueue.Mem.access] at h
    split at h
    · obtain rfl := Option.some.inj h
      rfl
    · split at h
      all_goals
        obtain rfl := Option.some.inj h
        rfl
  | pushCas | popCas =>
    rw [FiniteLockFreeQueue.Mem.access] at h
    split at h
    all_goals
      obtain rfl := Option.some.inj h
      rfl
  | _ =>
    obtain rfl := Option.some.inj h
    rfl

/-- A thread is inside the queue that its program counter names, with the value of its call. -/
def Agree (s : State ι α) (i : ι) : Prop :=
  match s.pc i with
  | .idle => s.finite.pc i = .idle ∧ s.overflow.pc i = .idle
  | .pushFinite value => valueOf (s.finite.pc i) = some value ∧ s.overflow.pc i = .idle
  | .popFinite => s.overflow.pc i = .idle
  | .pushOverflow value => s.finite.pc i = .idle ∧
      ∃ done, LockFreeQueue.Call.Done (.push value) (s.overflow.pc i).phase done
  | .popOverflow => s.finite.pc i = .idle

/-- `1` in a call of the ring. -/
def Pc.inFinite : Pc α → ℕ
  | .pushFinite _ | .popFinite => 1
  | _ => 0

variable [DecidableEq ι] {s s' : State ι α}

/-- The other threads are where they were. -/
theorem pc_of_ne {a : Action ι α} (h : step R s a = some s') {j : ι} (hj : j ≠ a.thread) :
    s'.pc j = s.pc j ∧ s'.finite.pc j = s.finite.pc j ∧ s'.overflow.pc j = s.overflow.pc j := by
  cases effect_of_step h with
  | push i value t hpc ht =>
    obtain rfl := FiniteLockFreeQueue.eq_of_push ht
    exact ⟨Function.update_of_ne hj _ _, Function.update_of_ne hj _ _, rfl⟩
  | pop i t hpc ht =>
    obtain rfl := FiniteLockFreeQueue.eq_of_pop ht
    exact ⟨Function.update_of_ne hj _ _, Function.update_of_ne hj _ _, rfl⟩
  | finite i c t hpc ht =>
    obtain ⟨r, hr, rfl⟩ := FiniteLockFreeQueue.eq_of_access ht
    exact ⟨rfl, Function.update_of_ne hj _ _, rfl⟩
  | overflow i c u hpc hu =>
    obtain ⟨r, hr, rfl⟩ := LockFreeQueue.eq_of_access hu
    exact ⟨rfl, rfl, Function.update_of_ne hj _ _⟩
  | pushed i value t hpc hf ht =>
    obtain rfl := FiniteLockFreeQueue.eq_of_ret ht
    exact ⟨Function.update_of_ne hj _ _, Function.update_of_ne hj _ _, rfl⟩
  | refused i value t u hpc hf ht hu =>
    obtain rfl := FiniteLockFreeQueue.eq_of_ret ht
    obtain rfl := LockFreeQueue.eq_of_push hu
    exact ⟨Function.update_of_ne hj _ _, Function.update_of_ne hj _ _,
      Function.update_of_ne hj _ _⟩
  | overflowed i value u hpc hu =>
    obtain ⟨-, rfl⟩ := LockFreeQueue.eq_of_ret hu
    exact ⟨Function.update_of_ne hj _ _, rfl, Function.update_of_ne hj _ _⟩
  | popped i n result t hpc hf ht =>
    obtain rfl := FiniteLockFreeQueue.eq_of_ret ht
    exact ⟨Function.update_of_ne hj _ _, Function.update_of_ne hj _ _, rfl⟩
  | missed i t u hpc hf ht hu =>
    obtain rfl := FiniteLockFreeQueue.eq_of_ret ht
    obtain rfl := LockFreeQueue.eq_of_pop hu
    exact ⟨Function.update_of_ne hj _ _, Function.update_of_ne hj _ _,
      Function.update_of_ne hj _ _⟩
  | overflowPopped i result u hpc ho hu =>
    obtain ⟨-, rfl⟩ := LockFreeQueue.eq_of_ret hu
    exact ⟨Function.update_of_ne hj _ _, rfl, Function.update_of_ne hj _ _⟩
  | empty i u hpc ho hu =>
    obtain ⟨-, rfl⟩ := LockFreeQueue.eq_of_ret hu
    exact ⟨Function.update_of_ne hj _ _, rfl, Function.update_of_ne hj _ _⟩

theorem agree_of_step {a : Action ι α} (h : step R s a = some s') (hA : ∀ i, Agree s i) (j : ι) :
    Agree s' j := by
  by_cases hj : j = a.thread
  · subst hj
    have hagree := hA a.thread
    unfold Agree at hagree
    cases effect_of_step h with
    | push i value t hpc ht =>
      obtain rfl := FiniteLockFreeQueue.eq_of_push ht
      rw [show (Action.push i value : Action ι α).thread = i from rfl, hpc] at hagree
      simp only [Agree, Action.thread, State.goto, Function.update_self]
      exact ⟨rfl, hagree.2⟩
    | pop i t hpc ht =>
      obtain rfl := FiniteLockFreeQueue.eq_of_pop ht
      rw [show (Action.pop i : Action ι α).thread = i from rfl, hpc] at hagree
      simp only [Agree, Action.thread, State.goto, Function.update_self]
      exact hagree.2
    | finite i c t hpc ht =>
      obtain ⟨r, hr, rfl⟩ := FiniteLockFreeQueue.eq_of_access ht
      rcases hpc with ⟨value, hpc⟩ | hpc
      · rw [show (Action.access i c : Action ι α).thread = i from rfl, hpc] at hagree
        simp only [Agree, Action.thread, hpc, Function.update_self]
        exact ⟨(valueOf_of_access hr).trans hagree.1, hagree.2⟩
      · rw [show (Action.access i c : Action ι α).thread = i from rfl, hpc] at hagree
        simp only [Agree, Action.thread, hpc]
        exact hagree
    | overflow i c u hpc hu =>
      obtain ⟨r, hr, rfl⟩ := LockFreeQueue.eq_of_access hu
      rcases hpc with ⟨value, hpc⟩ | hpc
      · rw [show (Action.access i c : Action ι α).thread = i from rfl, hpc] at hagree
        obtain ⟨hf, done, hdone⟩ := hagree
        simp only [Agree, Action.thread, hpc, Function.update_self]
        exact ⟨hf, _, hdone.access hr⟩
      · rw [show (Action.access i c : Action ι α).thread = i from rfl, hpc] at hagree
        simp only [Agree, Action.thread, hpc]
        exact hagree
    | pushed i value t hpc hf ht =>
      obtain rfl := FiniteLockFreeQueue.eq_of_ret ht
      rw [show (Action.ret i : Action ι α).thread = i from rfl, hpc] at hagree
      simp only [Agree, Action.thread, State.goto, Function.update_self]
      exact ⟨trivial, hagree.2⟩
    | refused i value t u hpc hf ht hu =>
      obtain rfl := FiniteLockFreeQueue.eq_of_ret ht
      obtain rfl := LockFreeQueue.eq_of_push hu
      simp only [Agree, Action.thread, State.goto, Function.update_self]
      exact ⟨trivial, [], rfl, rfl⟩
    | overflowed i value u hpc hu =>
      obtain ⟨-, rfl⟩ := LockFreeQueue.eq_of_ret hu
      rw [show (Action.ret i : Action ι α).thread = i from rfl, hpc] at hagree
      simp only [Agree, Action.thread, State.goto, Function.update_self]
      exact ⟨hagree.1, trivial⟩
    | popped i n result t hpc hf ht =>
      obtain rfl := FiniteLockFreeQueue.eq_of_ret ht
      rw [show (Action.ret i : Action ι α).thread = i from rfl, hpc] at hagree
      simp only [Agree, Action.thread, State.returns, Function.update_self]
      exact ⟨trivial, hagree⟩
    | missed i t u hpc hf ht hu =>
      obtain rfl := FiniteLockFreeQueue.eq_of_ret ht
      simp only [Agree, Action.thread, State.goto, Function.update_self]
    | overflowPopped i result u hpc ho hu =>
      obtain ⟨-, rfl⟩ := LockFreeQueue.eq_of_ret hu
      rw [show (Action.ret i : Action ι α).thread = i from rfl, hpc] at hagree
      simp only [Agree, Action.thread, State.returns, Function.update_self]
      exact ⟨hagree, trivial⟩
    | empty i u hpc ho hu =>
      obtain ⟨-, rfl⟩ := LockFreeQueue.eq_of_ret hu
      rw [show (Action.ret i : Action ι α).thread = i from rfl, hpc] at hagree
      simp only [Agree, Action.thread, State.returns, Function.update_self]
      exact ⟨hagree, trivial⟩
  · obtain ⟨hpc, hf, ho⟩ := pc_of_ne h hj
    have hagree := hA j
    rw [Agree] at hagree ⊢
    rw [hpc, hf, ho]
    exact hagree

/-- The two queues make steps of their own. -/
theorem inner_of_step {a : Action ι α} (h : step R s a = some s') :
    (s'.finite = s.finite ∨ ∃ a, FiniteLockFreeQueue.step R s.finite a = some s'.finite) ∧
      (s'.overflow = s.overflow ∨ ∃ a, LockFreeQueue.step s.overflow a = some s'.overflow) := by
  cases effect_of_step h with
  | push i value t hpc ht | pop i t hpc ht | finite i c t hpc ht | pushed i value t hpc hf ht
  | popped i n result t hpc hf ht => exact ⟨Or.inr ⟨_, ht⟩, Or.inl rfl⟩
  | overflow i c u hpc hu | overflowed i value u hpc hu | overflowPopped i result u hpc ho hu
  | empty i u hpc ho hu => exact ⟨Or.inl rfl, Or.inr ⟨_, hu⟩⟩
  | refused i value t u hpc hf ht hu | missed i t u hpc hf ht hu =>
    exact ⟨Or.inr ⟨_, ht⟩, Or.inr ⟨_, hu⟩⟩

/-- The invariants of the two queues hold in a run of the queue made of them. -/
structure Composed [Fintype ι] (R : RingSize) (s : State ι α) : Prop where
  finite : (FiniteLockFreeQueue.system ι α R).Reachable s.finite
  overflow : (LockFreeQueue.system ι α).Reachable s.overflow
  agree : ∀ i, Agree s i
  finite_calls : s.finite.calls = s.calls.length
  /-- A call of the overflow queue follows a call of the ring. -/
  overflow_calls : s.overflow.calls + ∑ i, (s.pc i).inFinite ≤ s.calls.length

theorem composed_of_reachable [Fintype ι] (hs : (system ι α R).Reachable s) : Composed R s := by
  refine hs.invariant (I := fun s => Composed R s) ?_ ?_
  · rintro s ⟨hf, ho, hpc, hcalls, -⟩
    obtain ⟨dummy, -, -, -, -, -, hopc, hocalls⟩ := id ho
    refine ⟨.start hf, .start ho, fun i => ?_, by rw [hf.2.2.2.2.1, hcalls]; rfl, ?_⟩
    · rw [Agree, hpc]
      exact ⟨hf.2.2.2.1 i, hopc i⟩
    · rw [hocalls, hcalls, Finset.sum_eq_zero fun i _ => by rw [hpc]; rfl]
      exact le_rfl
  · intro s a s' _ hC _ h
    have h : step R s a = some s' := h
    obtain ⟨hfin, hover⟩ := inner_of_step h
    refine ⟨?_, ?_, agree_of_step h hC.agree, ?_, ?_⟩
    · rcases hfin with heq | ⟨b, hb⟩
      · rw [heq]
        exact hC.finite
      · exact .next hC.finite trivial hb
    · rcases hover with heq | ⟨b, hb⟩
      · rw [heq]
        exact hC.overflow
      · exact .next hC.overflow trivial hb
    · have hcalls := hC.finite_calls
      cases effect_of_step h with
      | push i value t hpc ht =>
        obtain rfl := FiniteLockFreeQueue.eq_of_push ht
        simp only [List.length_append, List.length_singleton, hcalls]
      | pop i t hpc ht =>
        obtain rfl := FiniteLockFreeQueue.eq_of_pop ht
        simp only [List.length_append, List.length_singleton, hcalls]
      | finite i c t hpc ht =>
        obtain ⟨r, hr, rfl⟩ := FiniteLockFreeQueue.eq_of_access ht
        exact hcalls
      | pushed i value t hpc hf ht | popped i n result t hpc hf ht
      | refused i value t u hpc hf ht hu | missed i t u hpc hf ht hu =>
        obtain rfl := FiniteLockFreeQueue.eq_of_ret ht
        exact hcalls
      | _ => exact hcalls
    · have hcalls := hC.overflow_calls
      have hmove : ∀ i pc, s'.pc = Function.update s.pc i pc →
          s'.overflow.calls + pc.inFinite + s.calls.length ≤
            s.overflow.calls + (s.pc i).inFinite + s'.calls.length →
          s'.overflow.calls + ∑ i, (s'.pc i).inFinite ≤ s'.calls.length := by
        intro i pc hpc hle
        have hsum := sum_update_exchange Pc.inFinite s.pc i pc
        rw [hpc]
        omega
      cases effect_of_step h with
      | push i value t hpc ht =>
        refine hmove i (.pushFinite value) rfl ?_
        rw [hpc, List.length_append, List.length_singleton]
        exact (Nat.add_right_comm _ _ _).le
      | pop i t hpc ht =>
        refine hmove i .popFinite rfl ?_
        rw [hpc, List.length_append, List.length_singleton]
        exact (Nat.add_right_comm _ _ _).le
      | finite i c t hpc ht => exact hcalls
      | overflow i c u hpc hu =>
        obtain ⟨r, hr, rfl⟩ := LockFreeQueue.eq_of_access hu
        exact hcalls
      | pushed i value t hpc hf ht | popped i n result t hpc hf ht =>
        exact hmove i .idle rfl (Nat.add_le_add_right (Nat.add_le_add_left (Nat.zero_le _) _) _)
      | refused i value t u hpc hf ht hu =>
        obtain rfl := LockFreeQueue.eq_of_push hu
        refine hmove i (.pushOverflow value) rfl ?_
        rw [hpc]
        exact le_rfl
      | missed i t u hpc hf ht hu =>
        obtain rfl := LockFreeQueue.eq_of_pop hu
        refine hmove i .popOverflow rfl ?_
        rw [hpc]
        exact le_rfl
      | overflowed i value u hpc hu | overflowPopped i result u hpc ho hu | empty i u hpc ho hu =>
        obtain ⟨-, rfl⟩ := LockFreeQueue.eq_of_ret hu
        exact hmove i .idle rfl (Nat.add_le_add_right (Nat.add_le_add_left (Nat.zero_le _) _) _)

/-! ## The ledger -/

/-- The elements whose push has begun. -/
def State.begun (s : State ι α) : Multiset α :=
  (s.calls.filterMap QueueCall.value? : List α)

/-- The elements that pops have returned. -/
def State.returned (s : State ι α) : Multiset α :=
  (s.results.reduceOption : List α)

/-- The elements in the two queues. -/
def State.stored (s : State ι α) : Multiset α :=
  (s.finite.contents : Multiset α) + (s.overflow.mem.contents : Multiset α)

/-- The element that a thread has in its hands. -/
def State.inHand (s : State ι α) (i : ι) : Multiset α :=
  (s.finite.pc i).inHand s.finite.pushed + (s.overflow.pc i).phase.inHand

/-- Every element is in one place. -/
def Ledger [Fintype ι] (s : State ι α) : Prop :=
  s.begun = s.returned + s.stored + ∑ i, s.inHand i

omit [DecidableEq ι] in
/-- A step of the thread `i`, from what it does to the places it can reach. -/
theorem Ledger.of_exchange [Fintype ι] (hL : Ledger s) {i : ι}
    (hother : ∀ j ≠ i, s'.inHand j = s.inHand j) {x x' : Multiset α} (hx : s.inHand i = x)
    (hx' : s'.inHand i = x')
    (hmove : s'.begun + (s.returned + s.stored + x) = s.begun + (s'.returned + s'.stored + x')) :
    Ledger s' := by
  subst hx hx'
  have hsum := sum_exchange hother
  rw [Ledger] at hL ⊢
  refine add_right_cancel (b := s.returned + s.stored + s.inHand i) (hmove.trans ?_)
  rw [hL]
  calc s.returned + s.stored + ∑ j, s.inHand j + (s'.returned + s'.stored + s'.inHand i)
      = s.returned + s.stored + (s'.returned + s'.stored) + (∑ j, s.inHand j + s'.inHand i) := by
        abel
    _ = s.returned + s.stored + (s'.returned + s'.stored) + (∑ j, s'.inHand j + s.inHand i) := by
        rw [hsum]
    _ = _ := by abel

theorem calls_le_of_step {a : Action ι α} (h : step R s a = some s') :
    s.calls.length ≤ s'.calls.length := by
  rw [calls_of_step h, List.length_append]
  exact Nat.le_add_right _ _

omit [DecidableEq ι] in
theorem inHand_eq {i : ι} {f : FiniteLockFreeQueue.Pc α} {o : LockFreeQueue.Pc α}
    (hf : s.finite.pc i = f) (ho : s.overflow.pc i = o) :
    s.inHand i = f.inHand s.finite.pushed + o.phase.inHand := by
  rw [State.inHand, hf, ho]

/-- The element of the thread moves to the ring, or back. -/
theorem exchange_finite {a a' c c' o x b r : Multiset α} (h : a' + c' = a + c) :
    b + (r + (c + o) + (a + x)) = b + (r + (c' + o) + (a' + x)) := by
  calc b + (r + (c + o) + (a + x)) = b + r + o + x + (a + c) := by abel
    _ = b + r + o + x + (a' + c') := by rw [h]
    _ = b + (r + (c' + o) + (a' + x)) := by abel

/-- The element of the thread moves to the overflow list, or back. -/
theorem exchange_overflow {a a' c o o' b r : Multiset α} {x : Multiset α} (h : x + o' = a + o) :
    b + (r + (c + o) + (a' + a)) = b + (r + (c + o') + (a' + x)) := by
  calc b + (r + (c + o) + (a' + a)) = b + r + c + a' + (a + o) := by abel
    _ = b + r + c + a' + (x + o') := by rw [h]
    _ = b + (r + (c + o') + (a' + x)) := by abel

/-- **Every step keeps the ledger**, while fewer than `2 ^ 63` calls were made. -/
theorem Ledger.of_step [Fintype ι] (hL : Ledger s) (hC : Composed R s) (h2 : 2 ≤ R.size)
    {a : Action ι α} (h : step R s a = some s') (hb : s'.calls.length < 2 ^ 63) : Ledger s' := by
  have hle := calls_le_of_step h
  have hcalls := hC.finite_calls
  have hcalls' := hC.overflow_calls
  have hI := FiniteLockFreeQueue.inv_of_reachable h2 hC.finite (by omega)
  have hother : (∃ l, s'.finite.pushed = s.finite.pushed ++ l) →
      ∀ j ≠ a.thread, s'.inHand j = s.inHand j := by
    rintro ⟨l, hl⟩ j hj
    obtain ⟨-, hf, ho⟩ := pc_of_ne h hj
    rw [State.inHand, State.inHand, hf, ho, hl, hI.inHand_append]
  have hsame : s'.finite.pushed = s.finite.pushed → ∀ j ≠ a.thread, s'.inHand j = s.inHand j :=
    fun heq => hother ⟨[], by rw [heq, List.append_nil]⟩
  have hagree := hC.agree a.thread
  unfold Agree at hagree
  cases effect_of_step h with
  | push i value t hpc ht =>
    obtain rfl := FiniteLockFreeQueue.eq_of_push ht
    rw [show (Action.push i value : Action ι α).thread = i from rfl, hpc] at hagree
    refine hL.of_exchange (hsame rfl) (inHand_eq hagree.1 hagree.2)
      (inHand_eq (Function.update_self _ _ _) hagree.2) ?_
    show (((s.calls ++ [QueueCall.push value]).filterMap QueueCall.value? : List α) : Multiset α) +
      (s.returned + s.stored + (0 + 0)) = s.begun + (s.returned + s.stored + ({value} + 0))
    rw [List.filterMap_append, ← Multiset.coe_add]
    show s.begun + {value} + (s.returned + s.stored + (0 + 0)) = _
    abel
  | pop i t hpc ht =>
    obtain rfl := FiniteLockFreeQueue.eq_of_pop ht
    rw [show (Action.pop i : Action ι α).thread = i from rfl, hpc] at hagree
    refine hL.of_exchange (hsame rfl) (inHand_eq hagree.1 hagree.2)
      (inHand_eq (Function.update_self _ _ _) hagree.2) ?_
    show (((s.calls ++ [QueueCall.pop]).filterMap QueueCall.value? : List α) : Multiset α) +
      (s.returned + s.stored + (0 + 0)) = s.begun + (s.returned + s.stored + (0 + 0))
    rw [List.filterMap_append, ← Multiset.coe_add]
    show s.begun + 0 + (s.returned + s.stored + (0 + 0)) = _
    abel
  | finite i c t hpc ht =>
    obtain ⟨r, hr, rfl⟩ := FiniteLockFreeQueue.eq_of_access ht
    let t : FiniteLockFreeQueue.State ι α :=
      ⟨r.1, Function.update s.finite.pc i r.2, s.finite.calls,
        (FiniteLockFreeQueue.record s.finite i r.2).1,
        (FiniteLockFreeQueue.record s.finite i r.2).2⟩
    have hpushed : t.pushed = (FiniteLockFreeQueue.record s.finite i r.2).1 := rfl
    obtain ⟨hmove, happend⟩ := hI.inHand_access hr hpushed rfl
    refine hL.of_exchange (hother happend) (inHand_eq (i := i) rfl rfl)
      (inHand_eq (i := i) (Function.update_self _ _ _) rfl) ?_
    exact exchange_finite hmove
  | overflow i c u hpc hu =>
    have hfifo := LockFreeQueue.fifoStep_of_step hC.overflow hu (by
      rw [show u.calls = s.overflow.calls by
        obtain ⟨r, -, rfl⟩ := LockFreeQueue.eq_of_access hu
        rfl, sizeT_eq]
      omega)
    obtain ⟨r, hr, rfl⟩ := LockFreeQueue.eq_of_access hu
    dsimp only [LockFreeQueue.Action.event] at hfifo
    rw [Function.update_self] at hfifo
    have hmove := LockFreeQueue.inHand_access hr hfifo
    exact hL.of_exchange (hsame rfl) (inHand_eq (i := i) rfl rfl)
      (inHand_eq (i := i) rfl (Function.update_self _ _ _)) (exchange_overflow hmove)
  | pushed i value t hpc hf ht =>
    obtain rfl := FiniteLockFreeQueue.eq_of_ret ht
    obtain ⟨v, n, hf⟩ := hf
    rw [show (Action.ret i : Action ι α).thread = i from rfl, hpc] at hagree
    refine hL.of_exchange (hsame rfl) (inHand_eq hf hagree.2)
      (inHand_eq (Function.update_self _ _ _) hagree.2) ?_
    rfl
  | refused i value t u hpc hf ht hu =>
    obtain rfl := FiniteLockFreeQueue.eq_of_ret ht
    obtain rfl := LockFreeQueue.eq_of_push hu
    obtain ⟨v, hf⟩ := hf
    rw [show (Action.ret i : Action ι α).thread = i from rfl, hpc] at hagree
    simp only [hf] at hagree
    obtain rfl := Option.some.inj hagree.1
    refine hL.of_exchange (hsame rfl) (inHand_eq hf hagree.2)
      (inHand_eq (Function.update_self _ _ _) (Function.update_self _ _ _)) ?_
    show s.begun + (s.returned + s.stored + ({v} + 0)) =
      s.begun + (s.returned + s.stored + (0 + {v}))
    rw [add_zero, zero_add]
  | overflowed i value u hpc hu =>
    obtain ⟨hret, rfl⟩ := LockFreeQueue.eq_of_ret hu
    rw [show (Action.ret i : Action ι α).thread = i from rfl, hpc] at hagree
    obtain ⟨hf, done, hdone⟩ := hagree
    rcases hret with ho | ⟨result, ho⟩ | ho
    · exact hL.of_exchange (hsame rfl) (inHand_eq hf ho)
        (inHand_eq hf (Function.update_self _ _ _)) rfl
    · rw [ho] at hdone
      exact hdone.elim
    · rw [ho] at hdone
      exact hdone.elim
  | popped i n result t hpc hf ht =>
    obtain rfl := FiniteLockFreeQueue.eq_of_ret ht
    rw [show (Action.ret i : Action ι α).thread = i from rfl, hpc] at hagree
    refine hL.of_exchange (hsame rfl) (inHand_eq hf hagree)
      (inHand_eq (Function.update_self _ _ _) hagree) ?_
    show s.begun + (s.returned + s.stored + ({result} + 0)) =
      s.begun + (((s.results ++ [some result]).reduceOption : Multiset α) + s.stored + (0 + 0))
    rw [List.reduceOption_append, ← Multiset.coe_add]
    show _ = s.begun + (s.returned + {result} + s.stored + (0 + 0))
    abel
  | missed i t u hpc hf ht hu =>
    obtain rfl := FiniteLockFreeQueue.eq_of_ret ht
    obtain rfl := LockFreeQueue.eq_of_pop hu
    rw [show (Action.ret i : Action ι α).thread = i from rfl, hpc] at hagree
    refine hL.of_exchange (hsame rfl) (inHand_eq hf hagree)
      (inHand_eq (Function.update_self _ _ _) (Function.update_self _ _ _)) ?_
    rfl
  | overflowPopped i result u hpc ho hu =>
    obtain ⟨-, rfl⟩ := LockFreeQueue.eq_of_ret hu
    rw [show (Action.ret i : Action ι α).thread = i from rfl, hpc] at hagree
    refine hL.of_exchange (hsame rfl) (inHand_eq hagree ho)
      (inHand_eq hagree (Function.update_self _ _ _)) ?_
    show s.begun + (s.returned + s.stored + (0 + {result})) =
      s.begun + (((s.results ++ [some result]).reduceOption : Multiset α) + s.stored + (0 + 0))
    rw [List.reduceOption_append, ← Multiset.coe_add]
    show _ = s.begun + (s.returned + {result} + s.stored + (0 + 0))
    abel
  | empty i u hpc ho hu =>
    obtain ⟨-, rfl⟩ := LockFreeQueue.eq_of_ret hu
    rw [show (Action.ret i : Action ι α).thread = i from rfl, hpc] at hagree
    refine hL.of_exchange (hsame rfl) (inHand_eq hagree ho)
      (inHand_eq hagree (Function.update_self _ _ _)) ?_
    show s.begun + (s.returned + s.stored + (0 + 0)) =
      s.begun + (((s.results ++ [none]).reduceOption : Multiset α) + s.stored + (0 + 0))
    rw [List.reduceOption_append, ← Multiset.coe_add]
    show _ = s.begun + (s.returned + 0 + s.stored + (0 + 0))
    rw [add_zero s.returned]

omit [DecidableEq ι] in
theorem ledger_of_initial [Fintype ι] (hs : IsInitial R s) : Ledger s := by
  obtain ⟨hf, ho, -, hcalls, hresults⟩ := hs
  obtain ⟨dummy, halloc, -, hhead, -, -, hopc, -⟩ := ho
  have hfinite : s.finite.contents = [] := by
    rw [FiniteLockFreeQueue.State.contents, hf.2.2.2.2.2.1, List.drop_nil, List.map_nil]
  have hoverflow : s.overflow.mem.contents = [] := by
    rw [LockFreeQueue.Mem.contents, halloc, hhead, Finset.card_singleton]
    rfl
  have hhand : ∀ i, s.inHand i = 0 := fun i => inHand_eq (hf.2.2.2.1 i) (hopc i)
  rw [Ledger, State.begun, State.returned, State.stored, hcalls, hresults, hfinite, hoverflow,
    Finset.sum_eq_zero fun i _ => hhand i]
  rfl

/-- The ledger holds in every run of fewer than `2 ^ 63` calls. -/
theorem ledger_of_reachable [Fintype ι] (h2 : 2 ≤ R.size) (hs : (system ι α R).Reachable s) :
    s.calls.length < 2 ^ 63 → Ledger s := by
  refine hs.invariant (I := fun s => s.calls.length < 2 ^ 63 → Ledger s)
    (fun s h _ => ledger_of_initial h) ?_
  intro s a s' hr ih _ h hb
  have h : step R s a = some s' := h
  exact (ih ((calls_le_of_step h).trans_lt hb)).of_step (composed_of_reachable hr) h2 h hb

end FiniteOverflowQueue
end ThreadUtils
