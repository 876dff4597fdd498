import ThreadUtils.DataStructures.FiniteLockFreeQueue.FailureAnswers
import ThreadUtils.DataStructures.FiniteOverflowQueue.Conservation

/-!
# A pop that finds nothing

A `pop` looks into the ring and then into the overflow queue.  It may return `false` although
neither of its two looks was wrong and there never was an instant at which both were empty: the
ring may be filled again while the pop looks into the overflow queue.  So the failing pop is not
that of a FIFO.

What it does know is told by the pushes.  `Looked` says that where a pop has looked there is still
nothing.  While no push is in progress no step takes that away (`looked_of_step`), and a pop that
returns `false` then leaves an empty queue behind.

## Why the pushes decide it

Without a push the elements can only become fewer: the steps of a pop add nothing to either of the
queues and take elements from the front (`contents_of_step`).  So a ring that was empty at the
look of the pop is empty at its return.

The look itself is a matter of the ring.  A pop of the ring fails when its slot is behind, and this
may also mean that a push has taken the ticket and not written the slot; but the thread of such a
ticket is in a push (`Composed.pushes_of_writing`).  So without a push the ring is empty when the
pop fails there, and it is the failing look into the overflow queue that ends the pop.

## For the users of the queue

A worker that has popped in vain goes to sleep, so the users rely on this property, and on the fact
that a call of the queue is never stuck (`isSome_of_call`).
-/

namespace ThreadUtils
namespace FiniteOverflowQueue

open FiniteLockFreeQueue (RingSize)

variable {ι α : Type*} {R : RingSize}

/-! ## The pops in the two queues -/

/-- The thread is in a pop of the ring. -/
def popping : FiniteLockFreeQueue.Pc α → Prop
  | .popLoadHead | .popLoadSeq _ | .popCas _ | .popRead _ | .popStore _ _ | .popTrue _ _
  | .popFalse => True
  | _ => False

theorem popping_of_access {m : FiniteLockFreeQueue.Mem α} {spurious : Bool}
    {pc : FiniteLockFreeQueue.Pc α} {r : FiniteLockFreeQueue.Mem α × FiniteLockFreeQueue.Pc α}
    (hpop : popping pc) (h : m.access R spurious pc = some r) : popping r.2 := by
  cases pc with
  | popLoadSeq n =>
    rw [FiniteLockFreeQueue.Mem.access] at h
    split at h
    · obtain rfl := Option.some.inj h
      trivial
    · split at h
      all_goals
        obtain rfl := Option.some.inj h
        trivial
  | popCas n =>
    rw [FiniteLockFreeQueue.Mem.access] at h
    split at h
    all_goals
      obtain rfl := Option.some.inj h
      trivial
  | popLoadHead | popRead | popStore =>
    obtain rfl := Option.some.inj h
    trivial
  | popTrue | popFalse => cases h
  | _ => exact hpop.elim

/-- A pop of the ring takes nothing from `tail`. -/
theorem record_of_popping {s : FiniteLockFreeQueue.State ι α} {i : ι} (hpop : popping (s.pc i))
    (pc : FiniteLockFreeQueue.Pc α) : (FiniteLockFreeQueue.record s i pc).1 = s.pushed ∧
      ∃ l, (FiniteLockFreeQueue.record s i pc).2 = s.popped ++ l := by
  unfold FiniteLockFreeQueue.record
  split
  · next hpc =>
    rw [hpc] at hpop
    exact hpop.elim
  · exact ⟨rfl, [i], rfl⟩
  · exact ⟨rfl, [], (List.append_nil _).symm⟩

/-- A thread in a pop is in a pop of the queue that it looks into. -/
def Pops (s : State ι α) (i : ι) : Prop :=
  match s.pc i with
  | .popFinite => popping (s.finite.pc i)
  | .popOverflow => ∃ done, LockFreeQueue.Call.Done .pop (s.overflow.pc i).phase done
  | _ => True

/-- The thread is in a pop. -/
def Pc.pops : Pc α → Prop
  | .popFinite | .popOverflow => True
  | _ => False

/-- The thread is in a push. -/
def Pc.pushes : Pc α → Prop
  | .pushFinite _ | .pushOverflow _ => True
  | _ => False

/-- As far as the pop has looked, there is nothing. -/
def Looked (s : State ι α) (i : ι) : Prop :=
  match s.pc i with
  | .popFinite => s.finite.pc i = .popFalse → s.finite.contents = []
  | .popOverflow => s.finite.contents = [] ∧
      (LockFreeQueue.Current s.overflow i → s.overflow.mem.contents = [])
  | _ => True

/-- There is nothing in the queue. -/
def State.Empty (s : State ι α) : Prop :=
  s.finite.contents = [] ∧ s.overflow.mem.contents = []

variable [DecidableEq ι] {s s' : State ι α} {a : Action ι α}

theorem pops_of_step (h : step R s a = some s') (hP : ∀ i, Pops s i) (j : ι) : Pops s' j := by
  by_cases hj : j = a.thread
  · subst hj
    have hpops := hP a.thread
    unfold Pops at hpops ⊢
    cases effect_of_step h with
    | push i value t hpc ht => simp [Action.thread, State.goto]
    | pop i t hpc ht =>
      obtain rfl := FiniteLockFreeQueue.eq_of_pop ht
      simp [Action.thread, State.goto, popping]
    | finite i c t hpc ht =>
      obtain ⟨r, hr, rfl⟩ := FiniteLockFreeQueue.eq_of_access ht
      rcases hpc with ⟨value, hpc⟩ | hpc
      · simp [Action.thread, hpc]
      · simp only [Action.thread, hpc, Function.update_self] at hpops ⊢
        exact popping_of_access hpops hr
    | overflow i c u hpc hu =>
      obtain ⟨r, hr, rfl⟩ := LockFreeQueue.eq_of_access hu
      rcases hpc with ⟨value, hpc⟩ | hpc
      · simp [Action.thread, hpc]
      · simp only [Action.thread, hpc, Function.update_self] at hpops ⊢
        obtain ⟨done, hdone⟩ := hpops
        exact ⟨_, hdone.access hr⟩
    | missed i t u hpc hf ht hu =>
      obtain rfl := LockFreeQueue.eq_of_pop hu
      simp only [Action.thread, State.goto, Function.update_self]
      exact ⟨[], rfl⟩
    | pushed i value t hpc hf ht | refused i value t u hpc hf ht hu
    | overflowed i value u hpc hu => simp [Action.thread, State.goto]
    | popped i n result t hpc hf ht | overflowPopped i result u hpc ho hu
    | empty i u hpc ho hu => simp [Action.thread, State.returns]
  · obtain ⟨hpc, hf, ho⟩ := pc_of_ne h hj
    have hpops := hP j
    rw [Pops] at hpops ⊢
    rw [hpc, hf, ho]
    exact hpops

omit [DecidableEq ι] in
theorem pops_of_idle (hpc : ∀ i, s.pc i = .idle) (i : ι) : Pops s i := by
  rw [Pops, hpc i]
  trivial

theorem pops_of_reachable (hs : (system ι α R).Reachable s) : ∀ i, Pops s i := by
  refine hs.invariant (I := fun s => ∀ i, Pops s i) ?_ ?_
  · rintro s ⟨-, -, hpc, -⟩
    exact pops_of_idle hpc
  · intro s a s' _ hP _ h
    exact pops_of_step h hP

omit [DecidableEq ι] in
theorem empty_of_initial (hs : IsInitial R s) : s.Empty := by
  obtain ⟨hf, ⟨dummy, halloc, -, hhead, -⟩, -⟩ := hs
  constructor
  · rw [FiniteLockFreeQueue.State.contents, hf.2.2.2.2.2.1, List.drop_nil, List.map_nil]
  · rw [LockFreeQueue.Mem.contents, halloc, hhead, Finset.card_singleton]
    rfl

/-! ## A step of a pop -/

variable [Fintype ι]

/-- **A pop adds nothing** to the queue, and takes elements only from the front. -/
theorem contents_of_step (hC : Composed R s) (hP : ∀ i, Pops s i)
    (h : step R s a = some s') (hb : s'.calls.length < 2 ^ 63) (hpc : (s.pc a.thread).pops) :
    (s.finite.contents = [] → s'.finite.contents = []) ∧
      (s.overflow.mem.contents = [] → s'.overflow.mem.contents = []) := by
  have hle := calls_le_of_step h
  have hcalls := hC.overflow_calls
  have hpops := hP a.thread
  unfold Pops at hpops
  cases effect_of_step h with
  | push i value t hidle ht | pop i t hidle ht =>
    simp [Action.thread, hidle, Pc.pops] at hpc
  | pushed i value t hpush hf ht | refused i value t u hpush hf ht hu
  | overflowed i value u hpush hu => simp [Action.thread, hpush, Pc.pops] at hpc
  | finite i c t hin ht =>
    obtain ⟨r, hr, rfl⟩ := FiniteLockFreeQueue.eq_of_access ht
    have hpopFinite : s.pc i = .popFinite := by
      refine hin.resolve_left ?_
      rintro ⟨value, hpush⟩
      simp [Action.thread, hpush, Pc.pops] at hpc
    simp only [Action.thread, hpopFinite] at hpops
    obtain ⟨hpushed, l, hpopped⟩ := record_of_popping hpops r.2
    refine ⟨fun hnil => ?_, id⟩
    rw [FiniteLockFreeQueue.State.contents, List.map_eq_nil_iff, List.drop_eq_nil_iff] at hnil ⊢
    rw [hpushed, hpopped, List.length_append]
    exact hnil.trans (Nat.le_add_right _ _)
  | overflow i c u hin hu =>
    have hfifo := LockFreeQueue.fifoStep_of_step hC.overflow hu (by
      rw [show u.calls = s.overflow.calls by
        obtain ⟨r, -, rfl⟩ := LockFreeQueue.eq_of_access hu
        rfl, sizeT_eq]
      omega)
    obtain ⟨r, hr, rfl⟩ := LockFreeQueue.eq_of_access hu
    have hpopOverflow : s.pc i = .popOverflow := by
      refine hin.resolve_left ?_
      rintro ⟨value, hpush⟩
      simp [Action.thread, hpush, Pc.pops] at hpc
    simp only [Action.thread, hpopOverflow] at hpops
    obtain ⟨done, hdone⟩ := hpops
    have hdone' := hdone.access hr
    dsimp only [LockFreeQueue.Action.event] at hfifo
    rw [Function.update_self] at hfifo
    refine ⟨id, fun hnil => ?_⟩
    show r.1.contents = []
    rw [hnil] at hfifo
    generalize hevent : (s.overflow.pc i).event r.2 = event at hfifo hdone'
    generalize hnew : r.1.contents = contents at hfifo
    cases hfifo with
    | internal => rfl
    | enqueue _ value =>
      -- a pop enqueues nothing
      exfalso
      cases hphase : r.2.phase with
      | popping =>
        rw [hphase] at hdone'
        exact absurd hdone' (by simp [LockFreeQueue.Call.Done])
      | popped result =>
        rw [hphase] at hdone'
        have hevents : done ++ [FifoEvent.enqueue value] = [.dequeue result] := hdone'
        cases done with
        | nil => cases hevents
        | cons e done => simp at hevents
      | outside | pushing | pushed =>
        rw [hphase] at hdone'
        exact hdone'
  | popped i n result t hin hf ht =>
    obtain rfl := FiniteLockFreeQueue.eq_of_ret ht
    exact ⟨id, id⟩
  | missed i t u hin hf ht hu =>
    obtain rfl := FiniteLockFreeQueue.eq_of_ret ht
    obtain rfl := LockFreeQueue.eq_of_pop hu
    exact ⟨id, id⟩
  | overflowPopped i result u hin ho hu | empty i u hin ho hu =>
    obtain ⟨-, rfl⟩ := LockFreeQueue.eq_of_ret hu
    exact ⟨id, id⟩

/-- A slot of the ring is written in a push. -/
theorem Composed.pushes_of_writing (hC : Composed R s) (hP : ∀ i, Pops s i) {i : ι} {t : ℕ}
    (h : (s.finite.pc i).writing = some t) : (s.pc i).pushes := by
  have hagree := hC.agree i
  have hpops := hP i
  unfold Agree at hagree
  unfold Pops at hpops
  cases hpc : s.pc i with
  | pushFinite value | pushOverflow value => trivial
  | idle =>
    rw [hpc] at hagree
    rw [hagree.1] at h
    cases h
  | popOverflow =>
    simp only [hpc] at hagree
    rw [hagree] at h
    cases h
  | popFinite =>
    simp only [hpc] at hpops
    cases hf : s.finite.pc i with
    | pushWrite value t | pushStore value t =>
      rw [hf] at hpops
      exact hpops.elim
    | _ =>
      rw [hf] at h
      cases h

omit [DecidableEq ι] in
/-- The counters of an empty ring. -/
theorem contents_eq_nil_of_head (hI : FiniteLockFreeQueue.Inv R s.finite)
    (hhead : s.finite.mem.head = s.finite.mem.tail) : s.finite.contents = [] := by
  rw [FiniteLockFreeQueue.State.contents, List.map_eq_nil_iff, List.drop_eq_nil_iff,
    ← hI.tail_eq, ← hI.head_eq, hhead]

/-- **The look of a pop stays right** while no push is in progress. -/
theorem looked_of_step (h2 : 2 ≤ R.size) (hC : Composed R s) (hC' : Composed R s')
    (hP : ∀ i, Pops s i) (h : step R s a = some s') (hb : s'.calls.length < 2 ^ 63)
    (hpc : (s.pc a.thread).pops)
    (hno : ∀ i, ¬ (s.pc i).pushes) {j : ι} (hL : Looked s j) : Looked s' j := by
  have hle := calls_le_of_step h
  have hcalls := hC.overflow_calls
  have hcalls' := hC.finite_calls
  have hb' : s'.overflow.calls < sizeT := by
    have hover := hC'.overflow_calls
    rw [sizeT_eq]
    omega
  obtain ⟨hfinite, hoverflow⟩ := contents_of_step hC hP h hb hpc
  have hI := FiniteLockFreeQueue.inv_of_reachable h2 hC.finite (by omega)
  obtain ⟨chain, hchain⟩ := LockFreeQueue.inv_of_reachable hC.overflow (by rw [sizeT_eq]; omega)
  by_cases hj : j = a.thread
  · subst hj
    cases effect_of_step h with
    | push i value t hidle ht | pop i t hidle ht =>
      simp [Action.thread, hidle, Pc.pops] at hpc
    | pushed i value t hpush hf ht | refused i value t u hpush hf ht hu
    | overflowed i value u hpush hu => simp [Action.thread, hpush, Pc.pops] at hpc
    | finite i c t hin ht =>
      obtain ⟨r, hr, rfl⟩ := FiniteLockFreeQueue.eq_of_access ht
      have hpop : s.pc i = .popFinite := by
        refine hin.resolve_left ?_
        rintro ⟨value, hpush⟩
        simp [Action.thread, hpush, Pc.pops] at hpc
      simp only [Looked, Action.thread, hpop, Function.update_self]
      intro hfalse
      refine hfinite ?_
      -- the ring was empty, since nobody writes the slot at `head`
      have hblocked : FiniteLockFreeQueue.Blocked R s.finite .pop :=
        hI.blocked_of_failing (by omega) (Or.inl rfl)
          (m := r.1) (by rw [hr, ← show r.2 = FiniteLockFreeQueue.failing .pop from hfalse])
      rcases hblocked with hhead | ⟨k, hwriting⟩
      · exact contents_eq_nil_of_head hI hhead
      · exact absurd (hC.pushes_of_writing hP hwriting) (hno k)
    | overflow i c u hin hu =>
      have hpop : s.pc i = .popOverflow := by
        refine hin.resolve_left ?_
        rintro ⟨value, hpush⟩
        simp [Action.thread, hpush, Pc.pops] at hpc
      have hpops := hP i
      simp only [Looked, Pops, Action.thread, hpop] at hL hpops ⊢
      refine ⟨hfinite hL.1, fun hcur => ?_⟩
      obtain ⟨done, hdone⟩ := hpops
      rcases LockFreeQueue.Current.of_step hchain hb' hu (by simp) hdone.ne_idle hcur with
        hcur | hnil
      · exact hoverflow (hL.2 hcur)
      · exact hnil
    | missed i t u hin hf ht hu =>
      obtain rfl := FiniteLockFreeQueue.eq_of_ret ht
      obtain rfl := LockFreeQueue.eq_of_pop hu
      simp only [Looked, Action.thread, hin] at hL
      simp only [Looked, Action.thread, State.goto, Function.update_self]
      refine ⟨hL hf, fun hcur => ?_⟩
      simp [LockFreeQueue.Current] at hcur
    | popped i n result t hin hf ht | overflowPopped i result u hin ho hu
    | empty i u hin ho hu => simp [Looked, Action.thread, State.returns]
  · obtain ⟨hpcj, hf, ho⟩ := pc_of_ne h hj
    have hpops := hP j
    have hagree := hC.agree j
    unfold Looked Pops at *
    rw [hpcj, hf]
    cases hpcj' : s.pc j with
    | popFinite =>
      simp only [hpcj'] at hL ⊢
      exact fun hfalse => hfinite (hL hfalse)
    | popOverflow =>
      simp only [hpcj'] at hL hpops ⊢
      refine ⟨hfinite hL.1, fun hcur => ?_⟩
      refine hoverflow (hL.2 (hcur.of_same hchain ?_ ho))
      rcases (inner_of_step h).2 with hsame | ⟨b, hstep⟩
      · rw [hsame]
      · exact hchain.head_le hb' hstep
    | _ => trivial

omit [Fintype ι] [DecidableEq ι] in
/-- A pop that is about to return `false` knows that there is nothing in the queue. -/
theorem Looked.empty {i : ι} (hL : Looked s i) (hpc : s.pc i = .popOverflow)
    (hfalse : s.overflow.pc i = .popFalse) : s.Empty := by
  simp only [Looked, hpc] at hL
  refine ⟨hL.1, hL.2 ?_⟩
  rw [LockFreeQueue.Current, hfalse]
  trivial

/-! ## A call is never stuck -/

/-- The overflow queue makes the next access of a call, or the call is at its return. -/
theorem overflow_isSome (hC : Composed R s) (hb : s.overflow.calls < sizeT) {i : ι}
    (hpc : s.overflow.pc i ≠ .idle) :
    (∃ c, (LockFreeQueue.step s.overflow (.access i c)).isSome) ∨
      (s.overflow.pc i = .pushDone ∨ (∃ result, s.overflow.pc i = .popTrue result) ∨
        s.overflow.pc i = .popFalse) ∧ (LockFreeQueue.step s.overflow (.ret i)).isSome := by
  by_cases hdone : s.overflow.pc i = .pushDone ∨ (∃ result, s.overflow.pc i = .popTrue result) ∨
      s.overflow.pc i = .popFalse
  · refine Or.inr ⟨hdone, ?_⟩
    rcases hdone with hdone | ⟨result, hdone⟩ | hdone <;> rw [LockFreeQueue.step, hdone] <;> rfl
  · obtain ⟨c, hc⟩ := LockFreeQueue.access_isSome hC.overflow hb i
      ⟨hpc, fun h => hdone (Or.inl h), fun h => hdone (Or.inr (Or.inr h)),
        fun result h => hdone (Or.inr (Or.inl ⟨result, h⟩))⟩
    refine Or.inl ⟨c, ?_⟩
    rw [LockFreeQueue.step, Option.isSome_map]
    exact hc

/-- **A thread inside a call** can make an access or return from one of the queues. -/
theorem isSome_of_call (hC : Composed R s) (hP : ∀ i, Pops s i)
    (hb : s.calls.length < 2 ^ 63) {i : ι} (hpc : s.pc i ≠ .idle) :
    (∃ c, (step R s (.access i c)).isSome) ∨ (step R s (.ret i)).isSome := by
  have hcalls := hC.overflow_calls
  have hb' : s.overflow.calls < sizeT := by
    rw [sizeT_eq]
    omega
  have hagree := hC.agree i
  have hpops := hP i
  unfold Agree at hagree
  unfold Pops at hpops
  have hring : (s.pc i = .popFinite ∨ ∃ value, s.pc i = .pushFinite value) →
      1 < (s.finite.pc i).rank → (step R s (.access i ⟨false, 0⟩)).isSome := by
    intro hin hrank
    have haccess := FiniteLockFreeQueue.access_isSome (R := R) s.finite.mem false hrank
    rcases hin with hin | ⟨value, hin⟩ <;>
      · rw [step, hin]
        dsimp only [State.stepFinite, FiniteLockFreeQueue.step]
        rw [Option.isSome_map, Option.isSome_map]
        exact haccess
  cases hin : s.pc i with
  | idle => exact absurd hin hpc
  | pushFinite value =>
    simp only [hin] at hagree
    cases hf : s.finite.pc i with
    | pushTrue v n =>
      refine Or.inr ?_
      rw [step, State.ret, hin]
      dsimp only
      rw [hf]
      dsimp only [State.stepFinite, FiniteLockFreeQueue.step]
      rw [hf]
      rfl
    | pushFalse v =>
      refine Or.inr ?_
      rw [step, State.ret, hin]
      dsimp only
      rw [hf]
      dsimp only [State.stepFinite, FiniteLockFreeQueue.step]
      rw [hf]
      dsimp only [Option.map_some, Option.bind_some]
      rw [Option.isSome_map]
      dsimp only [State.stepOverflow, LockFreeQueue.step]
      rw [hagree.2]
      rfl
    | pushLoadTail | pushLoadSeq | pushCas | pushWrite | pushStore =>
      refine Or.inl ⟨_, hring (Or.inr ⟨value, hin⟩) ?_⟩
      rw [hf]
      simp [FiniteLockFreeQueue.Pc.rank]
    | _ =>
      rw [hf] at hagree
      cases hagree.1
  | popFinite =>
    simp only [hin] at hagree hpops
    cases hf : s.finite.pc i with
    | popTrue n result =>
      refine Or.inr ?_
      rw [step, State.ret, hin]
      dsimp only
      rw [hf]
      dsimp only [State.stepFinite, FiniteLockFreeQueue.step]
      rw [hf]
      rfl
    | popFalse =>
      refine Or.inr ?_
      rw [step, State.ret, hin]
      dsimp only
      rw [hf]
      dsimp only [State.stepFinite, FiniteLockFreeQueue.step]
      rw [hf]
      dsimp only [Option.map_some, Option.bind_some]
      rw [Option.isSome_map]
      dsimp only [State.stepOverflow, LockFreeQueue.step]
      rw [hagree]
      rfl
    | popLoadHead | popLoadSeq | popCas | popRead | popStore =>
      refine Or.inl ⟨_, hring (Or.inl hin) ?_⟩
      rw [hf]
      simp [FiniteLockFreeQueue.Pc.rank]
    | _ =>
      rw [hf] at hpops
      exact hpops.elim
  | pushOverflow value =>
    simp only [hin] at hagree
    obtain ⟨-, done, hdone⟩ := hagree
    rcases overflow_isSome hC hb' hdone.ne_idle with ⟨c, hc⟩ | ⟨-, hret⟩
    · refine Or.inl ⟨c, ?_⟩
      rw [step, hin]
      dsimp only [State.stepOverflow]
      rw [Option.isSome_map]
      exact hc
    · refine Or.inr ?_
      rw [step, State.ret, hin]
      dsimp only [State.stepOverflow]
      rw [Option.isSome_map, Option.isSome_map]
      exact hret
  | popOverflow =>
    simp only [hin] at hpops
    obtain ⟨done, hdone⟩ := hpops
    rcases overflow_isSome hC hb' hdone.ne_idle with ⟨c, hc⟩ | ⟨ho, hret⟩
    · refine Or.inl ⟨c, ?_⟩
      rw [step, hin]
      dsimp only [State.stepOverflow]
      rw [Option.isSome_map]
      exact hc
    · refine Or.inr ?_
      rw [step, State.ret, hin]
      dsimp only [State.stepOverflow]
      rcases ho with ho | ⟨result, ho⟩ | ho
      · rw [ho] at hdone
        exact hdone.elim
      all_goals
        rw [ho]
        dsimp only
        rw [Option.isSome_map, Option.isSome_map]
        exact hret

end FiniteOverflowQueue
end ThreadUtils
