import ThreadUtils.DataStructures.FiniteLockFreeQueue.Sequential
import ThreadUtils.DataStructures.FiniteLockFreeQueue.Tickets
import ThreadUtils.Transition.Progress

/-!
# The ring is lock-free

A call starts over when its exchange fails, or when the slot of its ticket is already at a later
one.  In both cases the ticket that it has loaded is not the current one any more: another call has
taken it since.  `cost` bounds the steps that a call still makes while nobody takes a ticket, and
depends on whether its own ticket is current.

## What makes a call start over

For an exchange this is plain.  For the slot it needs the invariant: the number of the slot that the
current ticket belongs to is not ahead of that ticket (`Inv.sequence_tail_le`), so a call that
finds a number ahead has an old ticket, and it loads a new one.  A call that holds the current
ticket goes on to its exchange, or fails at once.  The comparison is a signed difference of two
`size_t`, which tells the order of two counters as long as they are less than half the range apart;
this is where the bound on the calls comes in (`intptrDiff_nonpos`).

## The account

A call takes one ticket at most, so the tickets that are taken are paid for by the calls.  A ticket
that is taken may send every other call back, and `State.cost` grows by a constant for each thread.
All other steps but the calls and the spurious failures lower it (`cost_lt_of_step`).

* `ring_lockFree` --- the steps of a run are paid for by the calls that have returned, the calls in
  flight and the spurious failures.

A call whose slot is held by a stalled thread fails; it does not wait.  So nothing is assumed about
the thread that stalls, in contrast to what the answer of such a call is worth.
-/

namespace ThreadUtils
namespace FiniteLockFreeQueue

open TransitionSystem

variable {ι α : Type*} {R : RingSize}

/-- A bound on the steps of a call up to its return, while `head` and `tail` stay as they are and
no exchange fails spuriously. -/
def cost (head tail : ℕ) : Pc α → ℕ
  | .idle => 0
  | .pushLoadTail _ => 6
  | .pushLoadSeq _ t => if t = tail then 5 else 7
  | .pushCas _ t => if t = tail then 4 else 6
  | .pushWrite _ _ => 3
  | .pushStore _ _ => 2
  | .popLoadHead => 6
  | .popLoadSeq h => if h = head then 5 else 7
  | .popCas h => if h = head then 4 else 6
  | .popRead _ => 3
  | .popStore _ _ => 2
  | .pushTrue _ _ | .pushFalse _ | .popTrue _ _ | .popFalse => 1

theorem cost_le (head tail : ℕ) (pc : Pc α) : cost head tail pc ≤ 7 := by
  unfold cost
  split <;> first | omega | (split <;> omega)

/-- The successful exchanges of `tail` and `head`. -/
def State.exchanges (s : State ι α) : ℕ :=
  s.pushed.length + s.popped.length

/-- `1` for a thread outside of a call. -/
def Pc.idling : Pc α → ℕ
  | .idle => 1
  | _ => 0

/-- A call begins. -/
def isCall (t : Transition (State ι α) (Action ι α)) : Bool :=
  match t.action with
  | .push _ _ | .pop _ => true
  | _ => false

/-- A call returns. -/
def isReturn (t : Transition (State ι α) (Action ι α)) : Bool :=
  match t.action with
  | .ret _ => true
  | _ => false

/-- The environment makes an exchange fail. -/
def isSpurious (t : Transition (State ι α) (Action ι α)) : Bool :=
  match t.action with
  | .access _ spurious => spurious
  | _ => false

/-- An exchange succeeds. -/
def isExchange (t : Transition (State ι α) (Action ι α)) : Bool :=
  t.source.exchanges < t.target.exchanges

/-- The steps that may raise the cost of a call. -/
def isBurst (t : Transition (State ι α) (Action ι α)) : Bool :=
  isExchange t || (isCall t || isSpurious t)

/-- A counter that has not reached another one is not ahead of it. -/
theorem intptrDiff_nonpos {a b : ℕ} (hle : a ≤ b) (hb : b ≤ 2 ^ 63) : intptrDiff a b ≤ 0 := by
  rw [intptrDiff, Int.bmod_def, sizeT_eq]
  split <;> omega

variable [Fintype ι] {s : State ι α}

/-- The slot of the current ticket is not at a later one. -/
theorem Inv.sequence_tail_le (hI : Inv R s) (h2 : 2 ≤ R.size) :
    s.mem.sequence (R.slot s.mem.tail) ≤ s.mem.tail := by
  by_contra hlt
  have hfree := (hI.slot_free_of_tail h2 rfl (not_le.mp hlt).le).1
  omega

theorem Inv.sequence_head_le (hI : Inv R s) :
    s.mem.sequence (R.slot s.mem.head) ≤ s.mem.head + 1 := by
  by_contra hlt
  have hready := (hI.slot_ready_of_head rfl (not_le.mp hlt).le).1
  omega

/-- An access that takes no ticket lowers the cost of its call. -/
theorem Inv.cost_lt (hI : Inv R s) (h2 : 2 ≤ R.size) (hb : s.calls < 2 ^ 63) {i : ι}
    {r : Mem α × Pc α} (h : s.mem.access R false (s.pc i) = some r)
    (hrecord : (record s i r.2).1.length + (record s i r.2).2.length ≤ s.exchanges) :
    r.1.head = s.mem.head ∧ r.1.tail = s.mem.tail ∧
      cost s.mem.head s.mem.tail r.2 < cost s.mem.head s.mem.tail (s.pc i) := by
  have hcalls := hI.tail_le_calls
  have hle := hI.head_le_tail
  cases hpc : s.pc i with
  | idle => simp [Mem.access, hpc] at h
  | pushTrue value t => simp [Mem.access, hpc] at h
  | pushFalse value => simp [Mem.access, hpc] at h
  | popTrue n result => simp [Mem.access, hpc] at h
  | popFalse => simp [Mem.access, hpc] at h
  | pushLoadTail value =>
    obtain rfl := Option.some.inj (hpc ▸ h)
    exact ⟨rfl, rfl, by simp [cost]⟩
  | pushLoadSeq value t =>
    simp only [hpc, Mem.access] at h
    split at h
    · obtain rfl := Option.some.inj h
      refine ⟨rfl, rfl, ?_⟩
      dsimp only [cost]
      split <;> omega
    · split at h
      · obtain rfl := Option.some.inj h
        refine ⟨rfl, rfl, ?_⟩
        dsimp only [cost]
        split <;> omega
      · next hzero hneg =>
        -- the ticket was taken after it was loaded
        obtain rfl := Option.some.inj h
        have hne : t ≠ s.mem.tail := by
          rintro rfl
          have hnonpos := intptrDiff_nonpos (hI.sequence_tail_le h2) (by omega)
          omega
        refine ⟨rfl, rfl, ?_⟩
        dsimp only [cost]
        rw [if_neg hne]
        exact Nat.lt_succ_self 6
  | pushCas value t =>
    simp only [hpc, Mem.access] at h
    split at h
    · obtain rfl := Option.some.inj h
      simp only [record, hpc, State.exchanges, List.length_append, List.length_singleton] at hrecord
      omega
    · next hcas =>
      obtain rfl := Option.some.inj h
      have hne : t ≠ s.mem.tail := fun heq => hcas ⟨rfl, heq.symm⟩
      exact ⟨rfl, rfl, by simp [cost, hne]⟩
  | pushWrite value t =>
    obtain rfl := Option.some.inj (hpc ▸ h)
    exact ⟨rfl, rfl, Nat.lt_succ_self 2⟩
  | pushStore value t =>
    obtain rfl := Option.some.inj (hpc ▸ h)
    exact ⟨rfl, rfl, Nat.lt_succ_self 1⟩
  | popLoadHead =>
    obtain rfl := Option.some.inj (hpc ▸ h)
    exact ⟨rfl, rfl, by simp [cost]⟩
  | popLoadSeq n =>
    simp only [hpc, Mem.access] at h
    split at h
    · obtain rfl := Option.some.inj h
      refine ⟨rfl, rfl, ?_⟩
      dsimp only [cost]
      split <;> omega
    · split at h
      · obtain rfl := Option.some.inj h
        refine ⟨rfl, rfl, ?_⟩
        dsimp only [cost]
        split <;> omega
      · next hzero hneg =>
        obtain rfl := Option.some.inj h
        have hne : n ≠ s.mem.head := by
          rintro rfl
          rw [addSizeT_of_lt (by rw [sizeT_eq]; omega)] at hzero hneg
          have hnonpos := intptrDiff_nonpos hI.sequence_head_le (by omega)
          omega
        refine ⟨rfl, rfl, ?_⟩
        dsimp only [cost]
        rw [if_neg hne]
        exact Nat.lt_succ_self 6
  | popCas n =>
    simp only [hpc, Mem.access] at h
    split at h
    · obtain rfl := Option.some.inj h
      simp only [record, hpc, State.exchanges, List.length_append, List.length_singleton] at hrecord
      omega
    · next hcas =>
      obtain rfl := Option.some.inj h
      have hne : n ≠ s.mem.head := fun heq => hcas ⟨rfl, heq.symm⟩
      exact ⟨rfl, rfl, by simp [cost, hne]⟩
  | popRead n =>
    obtain rfl := Option.some.inj (hpc ▸ h)
    exact ⟨rfl, rfl, Nat.lt_succ_self 2⟩
  | popStore n result =>
    obtain rfl := Option.some.inj (hpc ▸ h)
    exact ⟨rfl, rfl, Nat.lt_succ_self 1⟩

/-! ## The steps of a run -/

/-- The cost of the calls in flight. -/
def State.cost (s : State ι α) : ℕ :=
  ∑ i, FiniteLockFreeQueue.cost s.mem.head s.mem.tail (s.pc i)

theorem State.cost_le (s : State ι α) : s.cost ≤ 7 * Fintype.card ι := by
  rw [Nat.mul_comm]
  exact Finset.sum_le_card_nsmul _ _ _ fun i _ => FiniteLockFreeQueue.cost_le _ _ _

/-- A number of threads. -/
theorem sum_le_card {f : Pc α → ℕ} (hf : ∀ pc, f pc ≤ 1) (s : State ι α) :
    ∑ i, f (s.pc i) ≤ Fintype.card ι :=
  (Finset.sum_le_card_nsmul _ _ 1 fun i _ => hf (s.pc i)).trans_eq (Nat.mul_one _)

variable [DecidableEq ι] {s' : State ι α} {a : Action ι α}

/-- Every step that is no burst lowers the cost. -/
theorem cost_lt_of_step (hI : Inv R s) (h2 : 2 ≤ R.size) (hb : s.calls < 2 ^ 63)
    (h : step R s a = some s') (hburst : isBurst ⟨s, a, s'⟩ = false) : s'.cost < s.cost := by
  rw [isBurst, Bool.or_eq_false_iff, Bool.or_eq_false_iff] at hburst
  obtain ⟨hexchange, hcall, hspurious⟩ := hburst
  cases a with
  | push i value => cases hcall
  | pop i => cases hcall
  | access i spurious =>
    obtain rfl : spurious = false := hspurious
    obtain ⟨r, hr, rfl⟩ := Option.map_eq_some_iff.mp h
    obtain ⟨hhead, htail, hlt⟩ := hI.cost_lt h2 hb hr (not_lt.mp (of_decide_eq_false hexchange))
    show ∑ j, FiniteLockFreeQueue.cost r.1.head r.1.tail _ < _
    rw [hhead, htail]
    exact sum_lt_sum_of_update hlt fun _ _ => le_rfl
  | ret i =>
    have hret : ∀ pc, s.pc i = pc → FiniteLockFreeQueue.cost s.mem.head s.mem.tail pc = 1 →
        State.cost { s with pc := Function.update s.pc i .idle } < s.cost := by
      rintro _ rfl hone
      exact sum_lt_sum_of_update (by rw [hone]; exact Nat.one_pos) fun _ _ => le_rfl
    simp only [step] at h
    split at h
    all_goals first
      | (next hpc => obtain rfl := Option.some.inj h; exact hret _ hpc rfl)
      | cases h

omit [Fintype ι] [DecidableEq ι] in
/-- An exchange is the one that its call has pending. -/
theorem pending_of_access {spurious : Bool} {i : ι} {r : Mem α × Pc α}
    (h : s.mem.access R spurious (s.pc i) = some r) :
    (record s i r.2).1.length + (record s i r.2).2.length + r.2.pending ≤
      s.exchanges + (s.pc i).pending ∧ s.exchanges ≤
        (record s i r.2).1.length + (record s i r.2).2.length ∧
      r.2.idling = 0 ∧ (s.pc i).idling = 0 := by
  cases hpc : s.pc i with
  | idle => simp [Mem.access, hpc] at h
  | pushTrue value t => simp [Mem.access, hpc] at h
  | pushFalse value => simp [Mem.access, hpc] at h
  | popTrue n result => simp [Mem.access, hpc] at h
  | popFalse => simp [Mem.access, hpc] at h
  | pushCas value t | popCas n =>
    simp only [hpc, Mem.access] at h
    split at h
    all_goals
      obtain rfl := Option.some.inj h
      simp [record, hpc, State.exchanges, Pc.pending, Pc.idling]
      try omega
  | pushLoadSeq value t | popLoadSeq n =>
    simp only [hpc, Mem.access] at h
    split at h
    · obtain rfl := Option.some.inj h
      simp [record, hpc, State.exchanges, Pc.pending, Pc.idling]
    · split at h
      all_goals
        obtain rfl := Option.some.inj h
        simp [record, hpc, State.exchanges, Pc.pending, Pc.idling]
  | _ =>
    obtain rfl := Option.some.inj (hpc ▸ h)
    simp [record, hpc, State.exchanges, Pc.pending, Pc.idling]

/-- A call makes one exchange at most, and returns at most once. -/
theorem account_of_step (h : step R s a = some s') :
    (∑ i, (s'.pc i).pending + (if isExchange ⟨s, a, s'⟩ then 1 else 0) ≤
      ∑ i, (s.pc i).pending + if isCall ⟨s, a, s'⟩ then 1 else 0) ∧
    ∑ i, (s'.pc i).idling + (if isCall ⟨s, a, s'⟩ then 1 else 0) ≤
      ∑ i, (s.pc i).idling + if isReturn ⟨s, a, s'⟩ then 1 else 0 := by
  have hcall : ∀ i pc, s.pc i = .idle → pc.pending = 1 → pc.idling = 0 →
      ∑ j, (Function.update s.pc i pc j).pending = ∑ j, (s.pc j).pending + 1 ∧
        ∑ j, (Function.update s.pc i pc j).idling + 1 = ∑ j, (s.pc j).idling := by
    intro i pc hidle hpending hidling
    have hsum := sum_update_exchange Pc.pending s.pc i pc
    have hsum' := sum_update_exchange Pc.idling s.pc i pc
    rw [hidle, hpending] at hsum
    rw [hidle, hidling] at hsum'
    exact ⟨hsum, hsum'⟩
  cases a with
  | push i value =>
    simp only [step] at h
    split at h
    · next hpc =>
      obtain rfl := Option.some.inj h
      obtain ⟨hsum, hsum'⟩ := hcall i (.pushLoadTail value) hpc rfl rfl
      exact ⟨by simpa [isExchange, State.exchanges, isCall] using hsum.le, hsum'.le⟩
    · cases h
  | pop i =>
    simp only [step] at h
    split at h
    · next hpc =>
      obtain rfl := Option.some.inj h
      obtain ⟨hsum, hsum'⟩ := hcall i .popLoadHead hpc rfl rfl
      exact ⟨by simpa [isExchange, State.exchanges, isCall] using hsum.le, hsum'.le⟩
    · cases h
  | access i spurious =>
    obtain ⟨r, hr, rfl⟩ := Option.map_eq_some_iff.mp h
    obtain ⟨hpending, hmono, hidle, hidle'⟩ := pending_of_access hr
    have hsum := sum_update_exchange Pc.pending s.pc i r.2
    have hsum' := sum_update_exchange Pc.idling s.pc i r.2
    rw [hidle, hidle'] at hsum'
    refine ⟨?_, hsum'.le⟩
    show ∑ j, (Function.update s.pc i r.2 j).pending + _ ≤ ∑ j, (s.pc j).pending + 0
    split
    · next hexchange =>
      have hlt : s.exchanges < (record s i r.2).1.length + (record s i r.2).2.length :=
        of_decide_eq_true hexchange
      omega
    · omega
  | ret i =>
    have hret : ∀ pc, s.pc i = pc → pc.pending = 0 → pc.idling = 0 →
        ∑ j, (Function.update s.pc i .idle j).pending = ∑ j, (s.pc j).pending ∧
          ∑ j, (Function.update s.pc i .idle j).idling = ∑ j, (s.pc j).idling + 1 := by
      rintro _ rfl hpending hidling
      have hsum := sum_update_exchange Pc.pending s.pc i .idle
      have hsum' := sum_update_exchange Pc.idling s.pc i .idle
      rw [hpending] at hsum
      rw [hidling] at hsum'
      exact ⟨hsum, hsum'⟩
    simp only [step] at h
    split at h
    all_goals first
      | (next hpc =>
          obtain rfl := Option.some.inj h
          obtain ⟨hsum, hsum'⟩ := hret _ hpc rfl rfl
          exact ⟨by simpa [isExchange, State.exchanges, isCall] using hsum.le, hsum'.le⟩)
      | cases h

omit [Fintype ι] in
/-- Every call is counted. -/
theorem calls_of_path {ok : State ι α → Action ι α → Prop}
    {trace : List (Transition (State ι α) (Action ι α))}
    (p : (system ι α R).Path ok s trace s') : s'.calls = s.calls + trace.countP isCall := by
  induction p with
  | nil => rfl
  | @snoc u u' a trace _ _ hstep ih =>
    have hstep : step R u a = some u' := hstep
    rw [List.countP_append, List.countP_singleton, ← Nat.add_assoc, ← ih]
    cases a with
    | push i value =>
      obtain rfl := eq_of_push hstep
      rfl
    | pop i =>
      obtain rfl := eq_of_pop hstep
      rfl
    | access i spurious =>
      obtain ⟨r, -, rfl⟩ := eq_of_access hstep
      rfl
    | ret i =>
      obtain rfl := eq_of_ret hstep
      rfl

/-- The steps of a run, by its calls. -/
theorem length_le_of_calls (h2 : 2 ≤ R.size)
    {trace : List (Transition (State ι α) (Action ι α))} (hs : (system ι α R).Reachable s)
    (p : (system ι α R).Path (fun _ _ => True) s trace s') (hb : s'.calls < 2 ^ 63) :
    trace.length ≤ (2 * trace.countP isCall + trace.countP isSpurious + Fintype.card ι + 1) *
      (7 * Fintype.card ι + 1) := by
  have hpath := ((p.with_invariant (J := (system ι α R).Reachable) hs
    fun _ _ _ hu _ hstep => .next hu trivial hstep).1).within
      (B := fun u => u.calls < 2 ^ 63)
      (fun _ _ _ hstep hlt => lt_of_le_of_lt (calls_le_of_step hstep) hlt) hb
  have hlength := hpath.length_add_le_of_bursts State.cost isBurst (7 * Fintype.card ι)
    (fun _ _ u' _ _ => u'.cost_le) fun u a u' hok hstep hburst =>
      cost_lt_of_step (inv_of_reachable h2 hok.1.2 hok.2) h2 hok.2 hstep hburst
  have hexchange := p.countP_add_le (fun u => ∑ i, (u.pc i).pending) isExchange isCall 1
    fun _ _ _ _ hstep => (account_of_step hstep).1
  have hpending : ∑ i, (s.pc i).pending ≤ Fintype.card ι :=
    sum_le_card (fun pc => by cases pc <;> simp [Pc.pending]) s
  have hcost := s.cost_le
  have hbursts : trace.countP isBurst + 1 ≤ 2 * trace.countP isCall +
      trace.countP isSpurious + Fintype.card ι + 1 := by
    have hburst : trace.countP isBurst ≤
        trace.countP isExchange + (trace.countP isCall + trace.countP isSpurious) :=
      (countP_or_le isExchange (fun t => isCall t || isSpurious t) trace).trans
        (Nat.add_le_add_left (countP_or_le isCall isSpurious trace) _)
    omega
  calc trace.length ≤ 7 * Fintype.card ι + trace.countP isBurst * (7 * Fintype.card ι + 1) := by
        omega
    _ ≤ (trace.countP isBurst + 1) * (7 * Fintype.card ι + 1) := by
        rw [Nat.add_mul, Nat.one_mul]
        omega
    _ ≤ _ := Nat.mul_le_mul_right _ hbursts

/-- **The ring is lock-free.**  A run from any reachable state has no more steps than its returns
and spurious failures pay for. -/
theorem ring_lockFree (R : RingSize) (h2 : 2 ≤ R.size) (s s' : State ι α)
    (trace : List (Transition (State ι α) (Action ι α))) (hs : (system ι α R).Reachable s)
    (p : (system ι α R).Path (fun _ _ => True) s trace s') (hb : s'.calls < 2 ^ 63) :
    trace.length ≤ (2 * trace.countP isReturn + trace.countP isSpurious +
      3 * Fintype.card ι + 1) * (7 * Fintype.card ι + 1) := by
  have hcall := p.countP_add_le (fun u => ∑ i, (u.pc i).idling) isCall isReturn 1
    fun _ _ _ _ hstep => (account_of_step hstep).2
  have hidling : ∑ i, (s.pc i).idling ≤ Fintype.card ι :=
    sum_le_card (fun pc => by cases pc <;> simp [Pc.idling]) s
  refine (length_le_of_calls h2 hs p hb).trans (Nat.mul_le_mul_right _ ?_)
  omega

theorem ring_lockFree_handOver :
    let trace := (system (Fin 2) ℕ ringOfTwo).traceOf emptyOfTwo handOver
    (trace.countP isReturn = 0 ∧ trace.countP isSpurious = 1) ∧
      trace.length ≤ (2 * trace.countP isReturn + trace.countP isSpurious +
        3 * Fintype.card (Fin 2) + 1) * (7 * Fintype.card (Fin 2) + 1) :=
  ⟨by decide, ring_lockFree ringOfTwo (by decide) emptyOfTwo
    ((system (Fin 2) ℕ ringOfTwo).replay emptyOfTwo handOver) _
    (.start ⟨fun _ _ => rfl, rfl, rfl, fun _ => rfl, rfl, rfl, rfl⟩)
    (TransitionSystem.Path.replay handOver (by decide)) (by decide)⟩

end FiniteLockFreeQueue
end ThreadUtils
