import ThreadUtils.DataStructures.FiniteOverflowQueue.FailingPop
import ThreadUtils.TaskManager.Group.Model

/-!
# No operation is stranded in a group

A worker parks after a `pop` that has returned `false`, and such a `pop` does not say that the
queue was empty (`FiniteOverflowQueue.Looked`).  What keeps an operation from being left behind is
that the pushes which mislead a pop release their permits after it.

## Who is in charge

A queue that is not empty has somebody in charge (`Covered`): a permit, a push that has not
released its permit, or a worker that will look again.  A worker inside a `pop` is in charge as
long as its look is right; the steps of other pops keep it right, and a push that makes it wrong
is in charge itself.

So there are three cases for a step of the queue.  A push is due to release a permit, and it covers
the queue whatever else happens.  If no push is in progress, the look of a pop stays right, and a
pop that returns `false` leaves an empty queue behind, so nothing has to be covered.  And a pop that
takes an operation has a worker that will look again afterwards (`Covered.of_pop`).

## Two systems in one

The queue is the one of single accesses, not an atomic one.  A step of the group is a step of its
own, on the permits and the program counters, or a step of the queue, and `Agree` ties the two
together: a thread that is in a push or a pop of the group is in that call of the queue.  The group
proves nothing about the accesses of the queue again.  It uses what a pop knows and needs the bound
on the calls for that.
-/

namespace ThreadUtils
namespace TaskManager
namespace Group

open FiniteLockFreeQueue (RingSize)
open FiniteOverflowQueue (Composed Pops Looked)

variable {ι α : Type*} {R : RingSize}

/-! ## Who is in charge of the queue -/

/-- The thread will release a permit. -/
def Pc.due : Pc → Prop
  | .push _ | .release _ => True
  | _ => False

/-- The worker will look into the queue before it parks, or looks and has overlooked nothing. -/
def State.Awake (s : State ι α) (i : ι) : Prop :=
  match s.pc i with
  | .drain | .exec true => True
  | .pop => Looked s.queue i
  | _ => False

/-- Somebody is in charge of a queue that is not empty. -/
def Covered (s : State ι α) : Prop :=
  ¬ s.queue.Empty → 0 < s.sem ∨ (∃ i, (s.pc i).due) ∨ ∃ i, s.Awake i

/-- A thread is inside the call of the queue that its program counter names. -/
def Agree (s : State ι α) (i : ι) : Prop :=
  match s.pc i with
  | .push _ => (s.queue.pc i).pushes
  | .pop => (s.queue.pc i).pops
  | _ => s.queue.pc i = .idle

variable [DecidableEq ι] {s s' : State ι α} {a : Action ι α}

/-! ## The calls of the queue -/

/-- The return from one of the two queues inside a push. -/
theorem pushes_of_ret {q q' : FiniteOverflowQueue.State ι α} {i : ι} (hpc : (q.pc i).pushes)
    (h : FiniteOverflowQueue.step R q (.ret i) = some q') :
    q'.pc i = .idle ∨ (q'.pc i).pushes := by
  cases FiniteOverflowQueue.effect_of_step h with
  | pushed i value t hin hf ht | overflowed i value u hin hu =>
    exact Or.inl (Function.update_self _ _ _)
  | refused i value t u hin hf ht hu =>
    refine Or.inr ?_
    simp [FiniteOverflowQueue.State.goto, FiniteOverflowQueue.Pc.pushes]
  | popped i n result t hin hf ht | missed i t u hin hf ht hu
  | overflowPopped i result u hin ho hu | empty i u hin ho hu =>
    rw [hin] at hpc
    exact hpc.elim

/-- What the return from one of the two queues is to a pop. -/
inductive PopReturn (q q' : FiniteOverflowQueue.State ι α) (i : ι) : Prop
  /-- It looks into the overflow queue. -/
  | missed : q'.pc i = .popOverflow → q'.results = q.results → PopReturn q q' i
  | taken (result : α) : q'.pc i = .idle → q'.results = q.results ++ [some result] →
      PopReturn q q' i
  | empty : q'.pc i = .idle → q'.results = q.results ++ [none] → q.pc i = .popOverflow →
      q.overflow.pc i = .popFalse → PopReturn q q' i

theorem popReturn_of_ret {q q' : FiniteOverflowQueue.State ι α} {i : ι} (hpc : (q.pc i).pops)
    (h : FiniteOverflowQueue.step R q (.ret i) = some q') : PopReturn q q' i := by
  cases FiniteOverflowQueue.effect_of_step h with
  | pushed i value t hin hf ht | overflowed i value u hin hu | refused i value t u hin hf ht hu =>
    rw [hin] at hpc
    exact hpc.elim
  | popped i n result t hin hf ht | overflowPopped i result u hin ho hu =>
    exact .taken result (Function.update_self _ _ _) rfl
  | missed i t u hin hf ht hu => exact .missed (Function.update_self _ _ _) rfl
  | empty i u hin ho hu => exact .empty (Function.update_self _ _ _) rfl hin ho

omit [DecidableEq ι] in
theorem PopReturn.afterPop_eq {q q' : FiniteOverflowQueue.State ι α} {i : ι}
    (h : PopReturn q q' i) : (q'.pc i = .popOverflow ∧ afterPop q' i = .pop) ∨
      (q'.pc i = .idle ∧ afterPop q' i = .exec true) ∨
      (q'.pc i = .idle ∧ afterPop q' i = .acquire ∧ q.pc i = .popOverflow ∧
        q.overflow.pc i = .popFalse) := by
  cases h with
  | missed hpc hresults =>
    refine Or.inl ⟨hpc, ?_⟩
    rw [afterPop, hpc]
  | taken result hpc hresults =>
    refine Or.inr (Or.inl ⟨hpc, ?_⟩)
    rw [afterPop, hpc, hresults, List.getLast?_concat]
  | empty hpc hresults hin ho =>
    refine Or.inr (Or.inr ⟨hpc, ?_, hin, ho⟩)
    rw [afterPop, hpc, hresults, List.getLast?_concat]

/-- An access of the queue leaves its threads in their calls. -/
theorem pc_of_access {q q' : FiniteOverflowQueue.State ι α} {i : ι} {c : LockFreeQueue.Choice}
    (h : FiniteOverflowQueue.step R q (.access i c) = some q') : q'.pc = q.pc := by
  cases FiniteOverflowQueue.effect_of_step h with
  | finite i c t hin ht | overflow i c u hin hu => rfl

theorem agree_of_step (h : step R s a = some s') (hA : ∀ i, Agree s i) (j : ι) : Agree s' j := by
  have hother : ∀ (i : ι) (b : FiniteOverflowQueue.Action ι α)
      (q : FiniteOverflowQueue.State ι α) (pc : Pc), b.thread = i →
      FiniteOverflowQueue.step R s.queue b = some q → j ≠ i →
      Agree { s.goto i pc with queue := q } j := by
    rintro i b q pc rfl hstep hj
    have hagree := hA j
    unfold Agree at hagree ⊢
    simp only [State.goto, Function.update_of_ne hj]
    rw [(FiniteOverflowQueue.pc_of_ne hstep hj).1]
    exact hagree
  have hquiet : ∀ (i : ι) (pc : Pc) (n : ℕ), s.queue.pc i = .idle →
      (∀ q : FiniteOverflowQueue.State ι α, q.pc i = .idle →
        Agree { s.goto i pc with queue := q } i) →
      Agree { s.goto i pc with sem := n } j := by
    intro i pc n hidle hpc
    by_cases hj : j = i
    · subst hj
      exact hpc s.queue hidle
    · have hagree := hA j
      unfold Agree at hagree ⊢
      simp only [State.goto, Function.update_of_ne hj]
      exact hagree
  cases effect_of_step h with
  | pushOp i op worker q hpc hq =>
    by_cases hj : j = i
    · subst hj
      cases FiniteOverflowQueue.effect_of_step hq with
      | push j value t hidle ht =>
        simp [Agree, State.goto, FiniteOverflowQueue.State.goto, FiniteOverflowQueue.Pc.pushes]
    · exact hother i _ q _ rfl hq hj
  | popOp i q hpc hq =>
    by_cases hj : j = i
    · subst hj
      cases FiniteOverflowQueue.effect_of_step hq with
      | pop j t hidle ht =>
        simp [Agree, State.goto, FiniteOverflowQueue.State.goto, FiniteOverflowQueue.Pc.pops]
    · exact hother i _ q _ rfl hq hj
  | access i c q hpc hq =>
    have hagree := hA j
    unfold Agree at hagree ⊢
    dsimp only
    rw [pc_of_access hq]
    exact hagree
  | pushed i worker q hpc hq =>
    by_cases hj : j = i
    · subst hj
      have hagree := hA j
      simp only [Agree, hpc] at hagree
      unfold Agree
      simp only [State.goto, Function.update_self, afterPush]
      rcases pushes_of_ret hagree hq with hidle | hpushes
      · rw [hidle]
      · cases hin : q.pc j with
        | idle => rfl
        | pushFinite | pushOverflow => trivial
        | popFinite | popOverflow =>
          rw [hin] at hpushes
          exact hpushes.elim
    · exact hother i _ q _ rfl hq hj
  | popped i q hpc hq =>
    by_cases hj : j = i
    · subst hj
      have hagree := hA j
      simp only [Agree, hpc] at hagree
      unfold Agree
      simp only [State.goto, Function.update_self]
      rcases (popReturn_of_ret hagree hq).afterPop_eq with ⟨hin, hafter⟩ | ⟨hin, hafter⟩ |
        ⟨hin, hafter, -⟩ <;> rw [hafter, hin]
      trivial
    · exact hother i _ q _ rfl hq hj
  | release i worker hpc =>
    have hagree := hA i
    simp only [Agree, hpc] at hagree
    refine hquiet i (.exec worker) _ hagree fun q hq => ?_
    simpa [Agree, State.goto] using hq
  | acquire i hpc hsem =>
    have hagree := hA i
    simp only [Agree, hpc] at hagree
    refine hquiet i .drain _ hagree fun q hq => ?_
    simpa [Agree, State.goto] using hq
  | execReturn i hpc =>
    have hagree := hA i
    simp only [Agree, hpc] at hagree
    refine hquiet i .drain s.sem hagree fun q hq => ?_
    simpa [Agree, State.goto] using hq

/-! ## The queue is watched -/

/-- The invariant of the runs with fewer than `2 ^ 63` calls of the queue. -/
structure Inv (R : RingSize) (s : State ι α) : Prop where
  reachable : (FiniteOverflowQueue.system ι α R).Reachable s.queue
  agree : ∀ i, Agree s i
  covered : Covered s

theorem queue_of_step (h : step R s a = some s') :
    s'.queue = s.queue ∨ ∃ b, FiniteOverflowQueue.step R s.queue b = some s'.queue := by
  cases effect_of_step h with
  | pushOp i op worker q hpc hq | popOp i q hpc hq | access i c q hpc hq
  | pushed i worker q hpc hq | popped i q hpc hq => exact Or.inr ⟨_, hq⟩
  | release i worker hpc | acquire i hpc hsem | execReturn i hpc => exact Or.inl rfl

theorem reachable_of_step (hs : (FiniteOverflowQueue.system ι α R).Reachable s.queue)
    (h : step R s a = some s') : (FiniteOverflowQueue.system ι α R).Reachable s'.queue := by
  rcases queue_of_step h with hsame | ⟨b, hb⟩
  · rw [hsame]
    exact hs
  · exact .next hs trivial hb

theorem calls_le_of_step (h : step R s a = some s') :
    s.queue.calls.length ≤ s'.queue.calls.length := by
  rcases queue_of_step h with hsame | ⟨b, hb⟩
  · rw [hsame]
  · exact FiniteOverflowQueue.calls_le_of_step hb

omit [DecidableEq ι] in
/-- A push in the queue is a push of the group. -/
theorem exists_due_of_pushes (hA : ∀ i, Agree s i) {i : ι} (hpushes : (s.queue.pc i).pushes) :
    ∃ worker, s.pc i = .push worker := by
  have hagree := hA i
  unfold Agree at hagree
  cases hpc : s.pc i with
  | push worker => exact ⟨worker, rfl⟩
  | pop =>
    simp only [hpc] at hagree
    cases hin : s.queue.pc i <;> rw [hin] at hagree hpushes <;>
      first | exact hagree.elim | exact hpushes.elim
  | _ =>
    simp only [hpc] at hagree
    rw [hagree] at hpushes
    exact hpushes.elim

variable [Fintype ι]

/-- **A step of a pop** leaves somebody in charge.  The worker that pops goes on with its look, has
an operation to execute, or has looked everywhere. -/
theorem Covered.of_pop (h2 : 2 ≤ R.size) (hI : Inv R s) {i : ι}
    {b : FiniteOverflowQueue.Action ι α} {q : FiniteOverflowQueue.State ι α} (hpc : s.pc i = .pop)
    (hthread : b.thread = i) (hq : FiniteOverflowQueue.step R s.queue b = some q)
    (hb : q.calls.length < 2 ^ 63) {pc : Pc}
    (hafter : pc = .pop ∨ pc = .exec true ∨ (Looked s.queue i → q.Empty)) :
    Covered { s.goto i pc with queue := q } := by
  intro hne
  have hC := FiniteOverflowQueue.composed_of_reachable hI.reachable
  have hC' := FiniteOverflowQueue.composed_of_reachable (.next hI.reachable trivial hq)
  have hP := FiniteOverflowQueue.pops_of_reachable hI.reachable
  have hpops : (s.queue.pc b.thread).pops := by
    have hagree := hI.agree i
    simp only [Agree, hpc] at hagree
    rwa [hthread]
  have hcontents := FiniteOverflowQueue.contents_of_step hC hP hq hb hpops
  have hne' : ¬ s.queue.Empty := fun hempty =>
    hne ⟨hcontents.1 hempty.1, hcontents.2 hempty.2⟩
  by_cases hdue : ∃ j, (s.pc j).due
  · obtain ⟨j, hj⟩ := hdue
    have hji : j ≠ i := by
      rintro rfl
      rw [hpc] at hj
      exact hj
    refine Or.inr (Or.inl ⟨j, ?_⟩)
    simp only [State.goto, Function.update_of_ne hji]
    exact hj
  · rcases hI.covered hne' with hsem | hdue' | ⟨j, hj⟩
    · exact Or.inl hsem
    · exact absurd hdue' hdue
    · have hno : ∀ k, ¬ (s.queue.pc k).pushes := by
        intro k hpushes
        obtain ⟨worker, hk⟩ := exists_due_of_pushes hI.agree hpushes
        exact hdue ⟨k, by rw [hk]; trivial⟩
      have hlooked : ∀ k, Looked s.queue k → Looked q k := fun k hk =>
        FiniteOverflowQueue.looked_of_step h2 hC hC' hP hq hb hpops hno hk
      by_cases hji : j = i
      · subst hji
        simp only [State.Awake, hpc] at hj
        rcases hafter with rfl | rfl | hempty
        · refine Or.inr (Or.inr ⟨j, ?_⟩)
          simp only [State.Awake, State.goto, Function.update_self]
          exact hlooked j hj
        · refine Or.inr (Or.inr ⟨j, ?_⟩)
          simp only [State.Awake, State.goto, Function.update_self]
        · exact absurd (hempty hj) hne
      · refine Or.inr (Or.inr ⟨j, ?_⟩)
        unfold State.Awake at hj ⊢
        simp only [State.goto, Function.update_of_ne hji]
        cases hin : s.pc j with
        | pop =>
          simp only [hin] at hj
          exact hlooked j hj
        | drain => trivial
        | exec worker =>
          cases worker with
          | true => trivial
          | false => simp only [hin] at hj
        | _ => simp only [hin] at hj

/-- **Every step leaves somebody in charge** of the queue. -/
theorem covered_of_step (h2 : 2 ≤ R.size) (hI : Inv R s) (h : step R s a = some s')
    (hb : s'.queue.calls.length < 2 ^ 63) : Covered s' := by
  cases effect_of_step h with
  | pushOp i op worker q hpc hq =>
    intro _
    refine Or.inr (Or.inl ⟨i, ?_⟩)
    simp [State.goto, Pc.due]
  | release i worker hpc => exact fun _ => Or.inl (Nat.succ_pos _)
  | acquire i hpc hsem | execReturn i hpc =>
    intro _
    refine Or.inr (Or.inr ⟨i, ?_⟩)
    simp [State.Awake, State.goto]
  | popOp i q hpc hq =>
    intro _
    refine Or.inr (Or.inr ⟨i, ?_⟩)
    cases FiniteOverflowQueue.effect_of_step hq with
    | pop j t hidle ht =>
      obtain rfl := FiniteLockFreeQueue.eq_of_pop ht
      simp [State.Awake, State.goto, FiniteOverflowQueue.Looked, FiniteOverflowQueue.State.goto]
  | access i c q hpc hq =>
    rcases hpc with ⟨worker, hpc⟩ | hpc
    · intro _
      refine Or.inr (Or.inl ⟨i, ?_⟩)
      dsimp only
      rw [hpc]
      trivial
    · have hcov : Covered { s.goto i .pop with queue := q } :=
        Covered.of_pop h2 hI hpc rfl hq hb (Or.inl rfl)
      have hsame : Function.update s.pc i .pop = s.pc := by
        rw [← hpc]
        exact Function.update_eq_self i s.pc
      rw [State.goto, hsame] at hcov
      exact hcov
  | pushed i worker q hpc hq =>
    intro _
    refine Or.inr (Or.inl ⟨i, ?_⟩)
    simp only [State.goto, Function.update_self, afterPush]
    split <;> trivial
  | popped i q hpc hq =>
    have hagree := hI.agree i
    simp only [Agree, hpc] at hagree
    refine Covered.of_pop h2 hI hpc rfl hq hb ?_
    rcases (popReturn_of_ret hagree hq).afterPop_eq with ⟨-, hafter⟩ | ⟨-, hafter⟩ |
      ⟨-, -, hin, hfalse⟩
    · exact Or.inl hafter
    · exact Or.inr (Or.inl hafter)
    · refine Or.inr (Or.inr fun hlooked => ?_)
      -- the pop returns `false`: its look was at the whole queue
      have hempty := hlooked.empty hin hfalse
      have hC := FiniteOverflowQueue.composed_of_reachable hI.reachable
      have hP := FiniteOverflowQueue.pops_of_reachable hI.reachable
      have hcontents := FiniteOverflowQueue.contents_of_step hC hP hq hb hagree
      exact ⟨hcontents.1 hempty.1, hcontents.2 hempty.2⟩

omit [Fintype ι] in
theorem inv_of_initial (hs : IsInitial R s) : Inv R s := by
  obtain ⟨hqueue, -, hpc⟩ := hs
  refine ⟨.start hqueue, fun i => ?_, fun hne => absurd ?_ hne⟩
  · have hidle := hqueue.2.2.1 i
    unfold Agree
    rcases hpc i with hpc | hpc <;> rw [hpc] <;> exact hidle
  · exact FiniteOverflowQueue.empty_of_initial hqueue

theorem inv_of_reachable (h2 : 2 ≤ R.size) (hs : (system ι α R).Reachable s)
    (hb : s.queue.calls.length < 2 ^ 63) : Inv R s := by
  refine hs.invariant_within (I := Inv R) (B := fun s => s.queue.calls.length < 2 ^ 63) ?_
    (fun s h => inv_of_initial h) ?_ hb
  · exact fun _ _ _ h hlt => (calls_le_of_step h).trans_lt hlt
  · exact fun s a s' hI hlt h => ⟨reachable_of_step hI.reachable h, agree_of_step h hI.agree,
      covered_of_step h2 hI h hlt⟩

/-- **No operation is stranded.**  In every run of fewer than `2 ^ 63` calls of the queue, a queue
that is not empty has a permit, a push that is about to release one, or a worker that will look into
it and has overlooked nothing so far. -/
theorem never_stranded (R : RingSize) (h2 : 2 ≤ R.size) (s : State ι α)
    (hs : (system ι α R).Reachable s) (hb : s.queue.calls.length < 2 ^ 63)
    (hne : ¬ s.queue.Empty) : 0 < s.sem ∨ (∃ i, (s.pc i).due) ∨ ∃ i, s.Awake i :=
  (inv_of_reachable h2 hs hb).covered hne

/-- A group with a client, the thread `0`, and two workers. -/
def newGroup : State (Fin 3) ℕ where
  queue := FiniteOverflowQueue.newQueue 0
  sem := 0
  pc i := if i = 0 then .exec false else .acquire

/-- The client pushes to the ring. -/
def pushToRing (op : ℕ) : List (Action (Fin 3) ℕ) :=
  [.pushOp 0 op] ++ List.replicate 5 (.access 0 ⟨false, 1⟩) ++ [.ret 0, .release 0]

/-- A worker pops from the ring and executes the operation. -/
def popFromRing (i : Fin 3) : List (Action (Fin 3) ℕ) :=
  [.popOp i] ++ List.replicate 5 (.access i ⟨false, 1⟩) ++ [.ret i, .execReturn i]

/-- The client pushes `7` and `8` to the ring and `9` to the overflow queue, and the workers take
the first two.  Both workers find the ring empty; the client pushes `10` to the ring; one worker
takes `9`, and the other one finds the overflow queue empty. -/
def misledSteps : List (Action (Fin 3) ℕ) :=
  let turns (n : ℕ) (i : Fin 3) : List (Action (Fin 3) ℕ) := List.replicate n (.access i ⟨false, 1⟩)
  pushToRing 7 ++ pushToRing 8 ++ [.pushOp 0 9] ++ turns 2 0 ++ [.ret 0] ++ turns 7 0 ++
    [.ret 0, .release 0, .acquire 1, .acquire 2] ++ popFromRing 1 ++ popFromRing 2 ++
    [.popOp 1] ++ turns 2 1 ++ [.popOp 2] ++ turns 2 2 ++ pushToRing 10 ++
    [.ret 2] ++ turns 9 2 ++ [.ret 2, .ret 1] ++ turns 4 1 ++ [.ret 1]

def misled : State (Fin 3) ℕ :=
  (system (Fin 3) ℕ FiniteLockFreeQueue.ringOfTwo).replay newGroup misledSteps

theorem isInitial_newGroup : IsInitial FiniteLockFreeQueue.ringOfTwo newGroup :=
  ⟨FiniteOverflowQueue.isInitial_newQueue 0, rfl, by decide⟩

/-- The `pop` of the worker `1` has returned `false`, although the queue was never empty. -/
theorem never_stranded_misled : misled.queue.results = [some 7, some 8, some 9, none] ∧
    (0 < misled.sem ∨ (∃ i, (misled.pc i).due) ∨ ∃ i, misled.Awake i) :=
  ⟨by decide, never_stranded FiniteLockFreeQueue.ringOfTwo (by decide) misled
    (TransitionSystem.Reachable.replay (.start isInitial_newGroup) misledSteps (by decide))
    (by decide) fun hempty => absurd hempty.1 (by decide)⟩

end Group
end TaskManager
end ThreadUtils
