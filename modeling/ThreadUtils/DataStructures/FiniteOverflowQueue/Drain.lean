import ThreadUtils.DataStructures.FiniteOverflowQueue.Conservation

/-!
# Popping until the first false

From a state with no call in flight the pops that follow, one after the other, see the two
lists of `Buffers`, whichever threads make them (`Alone`).  Up to the first one that returns
false they return what is stored, which by the ledger is what was pushed and not yet popped.

## From any interleaving to two lists

The run up to that state has calls of many threads in it, so nothing is known about the order of the
elements.  When no call is in flight, however, the invariants of the two queues say what a thread
that comes next will see: a ring with a list, and an overflow queue with a list
(`Composed.quiescent`).  From there on the calls are made one at a time, and the results about a
single thread apply; that the calls may be made by different threads does not matter, since between
two calls the lists are the same to all of them (`Follows.transfer`).

The first false comes when both lists are empty, so what was returned before it is all that they
held.  `Follows.exists_drain` adds that it comes at all.

* `conserved` --- nothing is lost or duplicated in a run of fewer than `2 ^ 63` calls.
* `not_conserved` --- a pop that is held up for `2 ^ 64` operations finds the same `head` again
  and takes an element that is not there.

The second is proved without running it: the other thread pops the element and goes on with pairs of
a push and a pop, while the first one is still before its exchange (`HeldUp`).  After `2 ^ 64` pops
`head` is `0` again, and the exchange succeeds.
-/

namespace ThreadUtils
namespace FiniteOverflowQueue

open FiniteLockFreeQueue (RingSize)

variable {ι : Type*} {α : Type*} {R : RingSize}

/-! ## Pops of the two lists -/

/-- The pops up to the first one that returns false. -/
theorem Buffers.eq_of_results {size n : ℕ} (b : Buffers α) (l : List α)
    (h : b.results size (List.replicate n .pop) = l.map some ++ [none]) :
    l = b.finite ++ b.overflow := by
  induction n generalizing b l with
  | zero => exact absurd (congrArg List.length h) (by simp [Buffers.results])
  | succ n ih =>
    obtain ⟨finite, overflow⟩ := b
    rw [List.replicate_succ] at h
    cases l with
    | nil =>
      cases finite with
      | cons value finite => exact absurd (List.cons.inj h).1 (by simp [Buffers.pop])
      | nil =>
        cases overflow with
        | cons value overflow => exact absurd (List.cons.inj h).1 (by simp [Buffers.pop])
        | nil => rfl
    | cons x l =>
      obtain ⟨hfirst, hrest⟩ := List.cons.inj h
      cases finite with
      | cons value finite =>
        obtain rfl := Option.some.inj hfirst
        exact congrArg (value :: ·) (ih ⟨finite, overflow⟩ l hrest)
      | nil =>
        cases overflow with
        | cons value overflow =>
          obtain rfl := Option.some.inj hfirst
          exact congrArg (value :: ·) (ih ⟨[], overflow⟩ l hrest)
        | nil => cases hfirst

/-- As many pops as there are elements, and one more. -/
theorem Buffers.results_replicate_pop (size : ℕ) (b : Buffers α) :
    b.results size (List.replicate ((b.finite ++ b.overflow).length + 1) .pop) =
      (b.finite ++ b.overflow).map some ++ [none] := by
  obtain ⟨finite, overflow⟩ := b
  induction finite with
  | cons value finite ih => exact congrArg (some value :: ·) ih
  | nil =>
    induction overflow with
    | cons value overflow ih => exact congrArg (some value :: ·) ih
    | nil => rfl

variable [DecidableEq ι] {s s' : State ι α}

/-! ## One call at a time -/

/-- No thread but `i` is inside a call. -/
def Alone (i : ι) (s : State ι α) : Prop :=
  ∀ j ≠ i, s.pc j = .idle ∧ s.finite.pc j = .idle ∧ s.overflow.pc j = .idle

/-- The steps of pops that are made one after the other. -/
def PopsOneAtATime (s : State ι α) : Action ι α → Prop
  | .push _ _ => False
  | .pop i => ∀ j ≠ i, s.pc j = .idle
  | .access _ _ | .ret _ => True

theorem Alone.of_step {i : ι} (hA : Alone i s) {a : Action ι α} (hthread : a.thread = i)
    (h : step R s a = some s') : Alone i s' := by
  intro j hj
  obtain ⟨hpc, hf, ho⟩ := pc_of_ne h (hthread ▸ hj)
  rw [hpc, hf, ho]
  exact hA j hj

/-- Only a thread inside a call goes on with it. -/
theorem pc_ne_idle {a : Action ι α} (ha : a.call = []) (h : step R s a = some s') :
    s.pc a.thread ≠ .idle := by
  intro hidle
  cases effect_of_step h with
  | push | pop => cases ha
  | finite i c t hpc ht =>
    rcases hpc with ⟨value, hpc⟩ | hpc
    all_goals cases hpc.symm.trans hidle
  | overflow i c u hpc hu =>
    rcases hpc with ⟨value, hpc⟩ | hpc
    all_goals cases hpc.symm.trans hidle
  | pushed i value t hpc | refused i value t u hpc | overflowed i value u hpc
  | popped i n result t hpc | missed i t u hpc | overflowPopped i result u hpc
  | empty i u hpc => cases hpc.symm.trans hidle

/-- A call begins when no other is in flight. -/
theorem idle_of_pop {i : ι} (h : step R s (.pop i) = some s') : s.pc i = .idle := by
  cases effect_of_step h with
  | pop _ t hpc ht => exact hpc

variable {h₀ : ℕ} {b₀ : Buffers α} {calls₀ : List (QueueCall α)} {results₀ : List (Option α)}

/-- Between two calls the two lists are the same to all threads. -/
theorem Follows.transfer {i j : ι} (hF : Follows R i h₀ b₀ calls₀ results₀ s) (hA : Alone i s)
    (hi : s.pc i = .idle) : Alone j s ∧ Follows R j h₀ b₀ calls₀ results₀ s := by
  obtain ⟨calls, hat, hresults, hcalls⟩ := hF
  rw [At, hi] at hat
  have hall : ∀ k, s.pc k = .idle ∧ s.finite.pc k = .idle ∧ s.overflow.pc k = .idle := by
    intro k
    by_cases hk : k = i
    · exact hk ▸ ⟨hi, hat.1, hat.2.1⟩
    · exact hA k hk
  refine ⟨fun k _ => hall k, calls, ?_, hresults, ?_⟩
  · rw [At, (hall j).1]
    exact ⟨(hall j).2.1, (hall j).2.2, hat.2.2⟩
  · rw [hcalls, hi, (hall j).1]

/-- Some pops were made one after the other, and at most one of them has not returned. -/
structure Draining (R : RingSize) (h₀ : ℕ) (b₀ : Buffers α) (calls₀ : List (QueueCall α))
    (results₀ : List (Option α)) (s : State ι α) : Prop where
  thread : ∃ i, Alone i s ∧ Follows R i h₀ b₀ calls₀ results₀ s
  pops : ∃ n, s.calls = calls₀ ++ List.replicate n .pop

theorem Draining.of_step (hD : Draining R h₀ b₀ calls₀ results₀ s) (h2 : 2 ≤ R.size)
    {a : Action ι α} (hok : PopsOneAtATime s a) (h : step R s a = some s') :
    Draining R h₀ b₀ calls₀ results₀ s' := by
  obtain ⟨⟨i, hA, hF⟩, n, hn⟩ := hD
  have hcalls := calls_of_step h
  cases a with
  | push => exact hok.elim
  | pop j =>
    have hi : s.pc i = .idle := by
      by_cases hij : i = j
      · exact hij ▸ idle_of_pop h
      · exact hok i hij
    obtain ⟨hA, hF⟩ := hF.transfer (j := j) hA hi
    refine ⟨⟨j, hA.of_step rfl h, (hF.of_step h2 rfl h).1⟩, n + 1, ?_⟩
    rw [hcalls, hn, List.append_assoc, List.replicate_succ']
    rfl
  | access j | ret j =>
    obtain rfl : j = i := by
      by_contra hj
      exact pc_ne_idle rfl h (hA j hj).1
    refine ⟨⟨j, hA.of_step rfl h, (hF.of_step h2 rfl h).1⟩, n, ?_⟩
    rw [hcalls, hn]
    exact List.append_nil _

omit [DecidableEq ι] in
/-- **What a drain returns.** -/
theorem Draining.eq_of_results (hD : Draining R h₀ b₀ calls₀ results₀ s)
    (hidle : ∀ i, s.pc i = .idle) {l : List α}
    (hl : s.results = results₀ ++ (l.map some ++ [none])) : l = b₀.finite ++ b₀.overflow := by
  obtain ⟨⟨i, -, calls, -, hresults, hcalls⟩, n, hn⟩ := hD
  rw [hidle i, Pc.call, List.append_nil, hn] at hcalls
  obtain rfl := List.append_cancel_left hcalls
  exact b₀.eq_of_results l (List.append_cancel_left (hresults.symm.trans hl))

/-- A thread that is alone can pop as often as it likes. -/
theorem Follows.exists_pops {i : ι} (hF : Follows R i h₀ b₀ calls₀ results₀ s) (h2 : 2 ≤ R.size)
    (hA : Alone i s) (hidle : s.pc i = .idle) (n : ℕ) :
    ∃ trace s', (system ι α R).Path (fun u a => a.thread = i ∧ PopsOneAtATime u a) s trace s' ∧
      Follows R i h₀ b₀ calls₀ results₀ s' ∧ Alone i s' ∧ s'.pc i = .idle ∧
      s'.calls = s.calls ++ List.replicate n .pop := by
  induction n with
  | zero => exact ⟨[], s, .nil s, hF, hA, hidle, (List.append_nil _).symm⟩
  | succ n ih =>
    obtain ⟨trace, t, p, hF', hA', hidle', hcalls⟩ := ih
    obtain ⟨trace', s', q, hF'', hidle'', hcalls'⟩ := hF'.exists_call h2 hidle' .pop
    have hthread : ∀ a : Action ι α, a = callAction i .pop ∨ a.thread = i ∧ a.Forward →
        a.thread = i := by
      rintro a (rfl | ⟨ha, -⟩)
      · rfl
      · exact ha
    obtain ⟨q', hA''⟩ := q.with_invariant (J := Alone i) hA' fun u a u' hu hok h =>
      hu.of_step (hthread a hok) h
    refine ⟨_, s', p.trans (q'.mono ?_), hF'', hA'', hidle'', ?_⟩
    · rintro u a ⟨rfl | ⟨hthread, hforward⟩, hu⟩
      · exact ⟨rfl, fun j hj => (hu j hj).1⟩
      · refine ⟨hthread, ?_⟩
        cases a with
        | push | pop => exact hforward.elim
        | access | ret => trivial
    · rw [hcalls', hcalls, List.append_assoc, List.replicate_succ']

/-- **A drain comes to its end.** -/
theorem Follows.exists_drain {i : ι} (hF : Follows R i h₀ b₀ s.calls s.results s)
    (h2 : 2 ≤ R.size) (hA : Alone i s) (hidle : s.pc i = .idle) :
    ∃ trace s', (system ι α R).Path (fun u a => a.thread = i ∧ PopsOneAtATime u a) s trace s' ∧
      (∀ j, s'.pc j = .idle) ∧
      s'.results = s.results ++ ((b₀.finite ++ b₀.overflow).map some ++ [none]) := by
  obtain ⟨trace, s', p, ⟨calls, -, hresults, hcalls⟩, hA', hidle', hcalls'⟩ :=
    hF.exists_pops h2 hA hidle ((b₀.finite ++ b₀.overflow).length + 1)
  refine ⟨trace, s', p, fun j => ?_, ?_⟩
  · by_cases hj : j = i
    · exact hj ▸ hidle'
    · exact (hA' j hj).1
  · rw [hidle', Pc.call, List.append_nil, hcalls'] at hcalls
    obtain rfl := List.append_cancel_left hcalls
    rw [hresults, Buffers.results_replicate_pop]

/-! ## Nothing is lost or duplicated -/

section Conserved

variable [Fintype ι]

/-- **When no call is in flight** the two queues hold what is stored. -/
theorem Composed.quiescent (hC : Composed R s) (h2 : 2 ≤ R.size) (hb : s.calls.length < 2 ^ 63)
    (hidle : ∀ i, s.pc i = .idle) (i : ι) :
    Alone i s ∧ Follows R i s.finite.popped.length ⟨s.finite.contents, s.overflow.mem.contents⟩
      s.calls s.results s := by
  have hcalls := hC.finite_calls
  have hcalls' := hC.overflow_calls
  have hinner : ∀ j, s.finite.pc j = .idle ∧ s.overflow.pc j = .idle := by
    intro j
    have hagree := hC.agree j
    rw [Agree, hidle j] at hagree
    exact hagree
  have hI := FiniteLockFreeQueue.inv_of_reachable h2 hC.finite (by omega)
  obtain ⟨chain, hI'⟩ := LockFreeQueue.inv_of_reachable hC.overflow (by rw [sizeT_eq]; omega)
  refine ⟨fun j _ => ⟨hidle j, hinner j⟩, [], ?_, (List.append_nil _).symm, ?_⟩
  · rw [At, hidle i]
    exact ⟨(hinner i).1, (hinner i).2, hI.ring (by omega) fun j => (hinner j).1,
      LockFreeQueue.lined_of_inv hI' (by omega)⟩
  · rw [hidle i, Pc.call, List.append_nil, List.append_nil]

/-- What was pushed and not popped is stored, when no call is in flight. -/
theorem Ledger.quiescent (hL : Ledger s) (hC : Composed R s) (hidle : ∀ i, s.pc i = .idle) :
    s.begun = s.returned + s.stored := by
  have hhand : ∀ i, s.inHand i = 0 := by
    intro i
    have hagree := hC.agree i
    rw [Agree, hidle i] at hagree
    exact inHand_eq hagree.1 hagree.2
  rw [Ledger, Finset.sum_eq_zero fun i _ => hhand i, add_zero] at hL
  exact hL

/-- **Nothing is lost or duplicated** in a run of fewer than `2 ^ 63` calls: at any time the
elements that were returned are among those whose push has begun, and when no call is in
flight the pops up to the first false return what was pushed and not yet popped. -/
theorem conserved (R : RingSize) (h2 : 2 ≤ R.size) (s : State ι α)
    (hs : (system ι α R).Reachable s) (hb : s.calls.length < 2 ^ 63) :
    s.returned ≤ s.begun ∧ ((∀ i, s.pc i = .idle) →
      (∀ i : ι, ∃ (trace : _) (s' : State ι α) (l : List α),
        (system ι α R).Path (fun u a => a.thread = i ∧ PopsOneAtATime u a) s trace s' ∧
          (∀ i, s'.pc i = .idle) ∧ s'.results = s.results ++ (l.map some ++ [none])) ∧
      ∀ (trace : _) (s' : State ι α) (l : List α),
        (system ι α R).Path PopsOneAtATime s trace s' → (∀ i, s'.pc i = .idle) →
          s'.results = s.results ++ (l.map some ++ [none]) →
            s.returned + (l : Multiset α) = s.begun) := by
  have hC := composed_of_reachable hs
  have hL := ledger_of_reachable h2 hs hb
  refine ⟨?_, fun hidle => ⟨fun i => ?_, fun trace s' l p hidle' hl => ?_⟩⟩
  · rw [hL, add_assoc]
    exact Multiset.le_add_right _ _
  · obtain ⟨hA, hF⟩ := hC.quiescent h2 hb hidle i
    obtain ⟨trace, s', p, hidle', hresults⟩ := hF.exists_drain h2 hA (hidle i)
    exact ⟨trace, s', _, p, hidle', hresults⟩
  · rcases isEmpty_or_nonempty ι with hempty | ⟨⟨i⟩⟩
    · cases p with
      | nil => exact absurd (congrArg List.length hl) (by simp)
      | @snoc _ _ a _ _ _ _ => exact hempty.elim a.thread
    · have hD : Draining R s.finite.popped.length
          ⟨s.finite.contents, s.overflow.mem.contents⟩ s.calls s.results s' :=
        p.invariant (I := fun _ u => Draining R s.finite.popped.length
            ⟨s.finite.contents, s.overflow.mem.contents⟩ s.calls s.results u)
          ⟨⟨i, hC.quiescent h2 hb hidle i⟩, 0, (List.append_nil _).symm⟩
          fun _ u a u' hD hok h => hD.of_step h2 hok h
      rw [hD.eq_of_results hidle' hl, hL.quiescent hC hidle, ← Multiset.coe_add]
      rfl

/-- The threads `false` and `true` push `7` and `8` at the same time, and `false` pops `7`. -/
def twoThreadSteps : List (Action Bool ℕ) :=
  let turn (i : Bool) : Action Bool ℕ := .access i ⟨false, 0⟩
  [.push false 7, .push true 8] ++ (List.replicate 3 [turn false, turn true]).flatten ++
    List.replicate 2 (turn false) ++ [.ret false] ++ List.replicate 4 (turn true) ++ [.ret true] ++
    [.pop false] ++ List.replicate 5 (turn false) ++ [.ret false]

def twoThreads : State Bool ℕ :=
  (system Bool ℕ FiniteLockFreeQueue.ringOfTwo).replay (newQueue 0) twoThreadSteps

theorem conserved_twoThreads : ∃ (trace : _) (s' : State Bool ℕ) (l : List ℕ),
    (system Bool ℕ FiniteLockFreeQueue.ringOfTwo).Path PopsOneAtATime twoThreads trace s' ∧
      s'.results = [some 7] ++ (l.map some ++ [none]) ∧
      ({7} : Multiset ℕ) + (l : Multiset ℕ) = {7, 8} := by
  obtain ⟨-, hdrain⟩ := conserved FiniteLockFreeQueue.ringOfTwo (by decide) twoThreads
    (TransitionSystem.Reachable.replay (.start (isInitial_newQueue 0)) twoThreadSteps (by decide))
    (by decide)
  obtain ⟨hexists, hall⟩ := hdrain (by decide)
  obtain ⟨trace, s', l, p, hidle, hresults⟩ := hexists false
  have p := p.mono fun _ _ => And.right
  have hl := hall trace s' l p hidle hresults
  rw [show twoThreads.results = [some 7] by decide] at hresults
  rw [show twoThreads.returned = {7} by decide, show twoThreads.begun = {7, 8} by decide] at hl
  exact ⟨trace, s', l, p, hresults, hl⟩

end Conserved

/-! ## A pop that is held up -/

/-- The thread `false` pushes an element; `true` begins a pop and comes to its exchange. -/
def heldUpSteps : List (Action Bool Unit) :=
  [.push false ()] ++ List.replicate 5 (.access false ⟨false, 0⟩) ++ [.ret false, .pop true] ++
    List.replicate 2 (.access true ⟨false, 0⟩)

def heldUp : State Bool Unit :=
  (system Bool Unit FiniteLockFreeQueue.ringOfTwo).replay (newQueue ()) heldUpSteps

/-- The thread `true` is about to exchange the first ticket. -/
structure HeldUp (s : State Bool Unit) : Prop where
  reachable : (system Bool Unit FiniteLockFreeQueue.ringOfTwo).Reachable s
  pc : s.pc true = .popFinite
  finite_pc : s.finite.pc true = .popCas 0
  follows : Follows FiniteLockFreeQueue.ringOfTwo false 0 ⟨[()], []⟩ [.push (), .pop] [] s
  idle : s.pc false = .idle

theorem heldUp_start : HeldUp heldUp where
  reachable := .replay (.start (isInitial_newQueue ())) heldUpSteps (by decide)
  pc := by decide
  finite_pc := by decide
  follows := by
    have hring : FiniteLockFreeQueue.Ring FiniteLockFreeQueue.ringOfTwo heldUp.finite.mem 0 [()] :=
      ⟨by decide, by decide, by decide, fun k hk => ⟨by
        obtain rfl : k = 0 := Nat.lt_one_iff.mp hk
        decide, rfl⟩, fun k hk hk' => by
        obtain rfl : k = 1 := Nat.le_antisymm (Nat.le_of_lt_succ hk') hk
        decide⟩
    have hline : LockFreeQueue.Lined heldUp.overflow.mem [] :=
      LockFreeQueue.line_of_initial (s := (newQueue () : State Bool Unit).overflow)
        ⟨0, rfl, rfl, rfl, rfl, rfl, fun _ => rfl, rfl⟩
    exact ⟨[], ⟨by decide, by decide, hring, hline⟩, by decide, rfl⟩
  idle := by decide

/-- The other thread can make any calls in the meantime. -/
theorem exists_heldUp (calls : List (QueueCall Unit)) :
    ∃ s, HeldUp s ∧ s.calls = [.push (), .pop] ++ calls := by
  induction calls using List.reverseRecOn with
  | nil => exact ⟨heldUp, heldUp_start, by rfl⟩
  | append_singleton calls call ih =>
    obtain ⟨s, hs, hcalls⟩ := ih
    obtain ⟨trace, s', p, hF, hidle, hcalls'⟩ := hs.follows.exists_call (by decide) hs.idle call
    have hstay := p.invariant
      (I := fun _ u => u.pc true = .popFinite ∧ u.finite.pc true = .popCas 0)
      ⟨hs.pc, hs.finite_pc⟩ fun _ u a u' hu hok h => by
        have hthread : a.thread = false := by
          rcases hok with rfl | ⟨hthread, -⟩
          · cases call <;> rfl
          · exact hthread
        obtain ⟨hpc, hf, -⟩ := pc_of_ne h (j := true) (by rw [hthread]; decide)
        rw [hpc, hf]
        exact hu
    exact ⟨s', ⟨p.reachable hs.reachable, hstay.1, hstay.2, hF, hidle⟩, by
      rw [hcalls', hcalls, List.append_assoc]⟩

/-- A push and a pop, `n` times. -/
def pairs (n : ℕ) : List (QueueCall Unit) :=
  (List.replicate n [.push (), .pop]).flatten

/-- The pairs leave nothing, and each of them moves `head` on. -/
theorem buffers_pairs (n : ℕ) : Buffers.after 2 ⟨[], []⟩ (pairs n) = ⟨[], []⟩ ∧
    Buffers.taken 2 ⟨[], []⟩ (pairs n) = n ∧
    Buffers.results 2 ⟨[], []⟩ (pairs n) = List.replicate n (some ()) ∧
    (pairs n).filterMap QueueCall.value? = List.replicate n () := by
  induction n with
  | zero => exact ⟨rfl, rfl, rfl, rfl⟩
  | succ n ih =>
    obtain ⟨hafter, htaken, hresults, hvalues⟩ := ih
    have hcons : pairs (n + 1) = .push () :: .pop :: pairs n := by
      rw [pairs, List.replicate_succ, List.flatten_cons]
      rfl
    rw [hcons]
    refine ⟨hafter, ?_, congrArg (some () :: ·) hresults, congrArg (() :: ·) hvalues⟩
    exact (congrArg (1 + ·) htaken).trans (Nat.add_comm 1 n)

/-- An access of the ring by the thread that pops. -/
theorem exists_access {s : State Bool Unit}
    {r : FiniteLockFreeQueue.Mem Unit × FiniteLockFreeQueue.Pc Unit}
    (hs : (system Bool Unit FiniteLockFreeQueue.ringOfTwo).Reachable s)
    (hpc : s.pc true = .popFinite)
    (h : s.finite.mem.access FiniteLockFreeQueue.ringOfTwo false (s.finite.pc true) = some r) :
    ∃ t, (system Bool Unit FiniteLockFreeQueue.ringOfTwo).Reachable t ∧ t.pc true = .popFinite ∧
      t.finite.pc true = r.2 ∧ t.results = s.results ∧ t.calls = s.calls := by
  obtain ⟨t, ht⟩ : ∃ t,
      step FiniteLockFreeQueue.ringOfTwo s (.access true ⟨false, 0⟩) = some t := by
    simp only [step, hpc, State.stepFinite, FiniteLockFreeQueue.step, h, Option.map_some]
    exact ⟨_, rfl⟩
  have ht' : (system Bool Unit FiniteLockFreeQueue.ringOfTwo).step s (.access true ⟨false, 0⟩) =
      some t := ht
  refine ⟨t, .next hs trivial ht', ?_⟩
  cases effect_of_step ht with
  | finite _ _ f _ hf =>
    obtain ⟨r', hr', rfl⟩ := FiniteLockFreeQueue.eq_of_access hf
    obtain rfl := Option.some.inj (h.symm.trans hr')
    exact ⟨hpc, Function.update_self true r.2 s.finite.pc, rfl, rfl⟩
  | overflow _ _ _ hpc' => simp [hpc] at hpc'

/-- **The exchange succeeds** when `head` is `0` again, and the pop returns an element. -/
theorem HeldUp.returns {s : State Bool Unit} (hs : HeldUp s) (hhead : s.finite.mem.head = 0) :
    ∃ t, (system Bool Unit FiniteLockFreeQueue.ringOfTwo).Reachable t ∧
      t.results = s.results ++ [some ()] ∧ t.calls = s.calls := by
  obtain ⟨t, ht, hpc, hf, hresults, hcalls⟩ := exists_access hs.reachable hs.pc
    (by rw [hs.finite_pc, FiniteLockFreeQueue.Mem.access, if_pos ⟨rfl, hhead⟩])
  obtain ⟨u, hu, hpc', hf', hresults', hcalls'⟩ := exists_access ht hpc
    (by rw [hf, FiniteLockFreeQueue.Mem.access])
  obtain ⟨v, hv, hpc'', hf'', hresults'', hcalls''⟩ := exists_access hu hpc'
    (by rw [hf', FiniteLockFreeQueue.Mem.access])
  obtain ⟨w, hw, hwresults, hwcalls⟩ : ∃ w,
      step FiniteLockFreeQueue.ringOfTwo v (.ret true) = some w ∧
        w.results = v.results ++ [some ()] ∧ w.calls = v.calls := by
    simp [step, State.ret, hpc'', hf'', State.stepFinite, FiniteLockFreeQueue.step, State.returns]
  have hw' : (system Bool Unit FiniteLockFreeQueue.ringOfTwo).step v (.ret true) = some w := hw
  refine ⟨w, .next hv trivial hw', ?_, ?_⟩
  · rw [hwresults, hresults'', hresults', hresults]
  · rw [hwcalls, hcalls'', hcalls', hcalls]

/-- **A pop that is held up for `2 ^ 64` operations** returns an element that is not there. -/
theorem not_conserved : ∃ s : State Bool Unit,
    (system Bool Unit FiniteLockFreeQueue.ringOfTwo).Reachable s ∧ ¬ s.returned ≤ s.begun := by
  obtain ⟨n, hn⟩ : ∃ n, n + 1 = sizeT := ⟨2 ^ 64 - 1, by rw [sizeT_eq]; norm_num⟩
  obtain ⟨s, hs, hcalls⟩ := exists_heldUp (.pop :: pairs n)
  obtain ⟨hafter, htaken, hresults, hvalues⟩ := buffers_pairs n
  obtain ⟨calls, hat, hsresults, hscalls⟩ := hs.follows
  rw [hs.idle, Pc.call, List.append_nil, hcalls] at hscalls
  obtain rfl := List.append_cancel_left hscalls
  rw [At, hs.idle] at hat
  obtain ⟨-, -, hring, -⟩ := hat
  have htaken' : Buffers.taken 2 ⟨[()], []⟩ (.pop :: pairs n) = sizeT :=
    (congrArg (1 + ·) htaken).trans ((Nat.add_comm 1 n).trans hn)
  have hhead : s.finite.mem.head = 0 := by
    rw [hring.head, Nat.zero_add]
    exact (congrArg (· % sizeT) htaken').trans (Nat.mod_self _)
  obtain ⟨t, ht, htresults, htcalls⟩ := hs.returns hhead
  refine ⟨t, ht, fun hle => ?_⟩
  have hreturned : t.returned.card = n + 2 := by
    rw [State.returned, htresults, hsresults]
    show (([some ()] ++ Buffers.results 2 ⟨[], []⟩ (pairs n) ++ [some ()]).reduceOption).length = _
    have hsome : ∀ x ∈ [some ()] ++ List.replicate n (some ()) ++ [some ()], x.isSome := by
      intro x hx
      cases x with
      | some x => rfl
      | none => simp at hx
    rw [hresults, List.reduceOption_length_eq_iff.mpr hsome]
    simp
  have hbegun : t.begun.card = n + 1 := by
    rw [State.begun, htcalls, hcalls, List.filterMap_append]
    show (() :: (pairs n).filterMap QueueCall.value?).length = n + 1
    rw [hvalues, List.length_cons, List.length_replicate]
  have := Multiset.card_le_card hle
  omega

end FiniteOverflowQueue
end ThreadUtils
