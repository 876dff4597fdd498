import ThreadUtils.DataStructures.LockFreeQueue.Steps

/-!
# The queue refines an atomic FIFO

The list the queue stands for is read off the memory (`Mem.contents`).  Three facts
make the queue an atomic FIFO.

* Every step moves the list by one step of a FIFO: the exchange of `next` in a push
  enqueues, the exchange of `head_` in a pop dequeues, and nothing else changes it.
* Between its call and its return a push enqueues its own value once; a pop that
  returns `true` dequeues once, and returns the element it dequeued; a pop that
  returns `false` does neither (`Call.Done`).
* A pop that returns `false` has an instant at which the list is empty.  It is the
  load of `next`, provided `head_` is still the pair the pop has loaded.  Versions
  only grow, so a `head_` that had moved by then is not restored, and the second
  comparison with `head_` sends the pop around (`Current`).

## Why the third fact needs the run and not the state

At the return of the pop the list need not be empty any more, and no state on the way knows that it
will be the one.  `Current` is therefore read backwards: if it holds after a step and did not hold
before, the step ended where the list is empty, and once it holds it has held since that step
(`Current.of_same`).  At the call it does not hold, at the return it does, so somewhere between the
two there is such a step (`exists_contents_nil`).

## The bound on the calls

A version is a `size_t` and wraps.  With fewer than `2 ^ 64` calls it does not, since every position
of the chain belongs to a call of its own, and only then is it true that versions only grow.
-/

namespace ThreadUtils
namespace LockFreeQueue

open TransitionSystem

variable {ι : Type*} {α : Type*} [DecidableEq ι]

/-! ## The three kinds of steps -/

/-- The two calls of the queue. -/
inductive Call (α : Type*) where
  | push (value : α)
  | pop

/-- The step in which the thread `i` makes a call. -/
def Call.action (i : ι) : Call α → Action ι α
  | .push value => .push i value
  | .pop => .pop i

/-- The program counter right after the call. -/
def Call.entry : Call α → Pc α
  | .push value => .pushNew value
  | .pop => .popLoadHead

/-- A thread is called, makes an access or returns. -/
theorem step_cases {s s' : State ι α} {a : Action ι α} (h : step s a = some s') :
    (∃ i call, a = Call.action i call ∧ s.pc i = .idle ∧
      s' = ⟨s.mem, Function.update s.pc i call.entry, s.calls + 1⟩) ∨
    (∃ i c r, a = .access i c ∧ s.mem.access c (s.pc i) = some r ∧
      s' = ⟨r.1, Function.update s.pc i r.2, s.calls⟩) ∨
    (∃ i, a = .ret i ∧ (s.pc i = .pushDone ∨ (∃ result, s.pc i = .popTrue result) ∨
      s.pc i = .popFalse) ∧ s' = ⟨s.mem, Function.update s.pc i .idle, s.calls⟩) := by
  cases a with
  | push i value =>
    simp only [step] at h
    split at h
    · next hpc => exact Or.inl ⟨i, .push value, rfl, hpc, (Option.some.inj h).symm⟩
    · exact absurd h (by simp)
  | pop i =>
    simp only [step] at h
    split at h
    · next hpc => exact Or.inl ⟨i, .pop, rfl, hpc, (Option.some.inj h).symm⟩
    · exact absurd h (by simp)
  | access i c =>
    obtain ⟨r, hr, hs'⟩ := Option.map_eq_some_iff.mp h
    exact Or.inr (Or.inl ⟨i, c, r, rfl, hr, hs'.symm⟩)
  | ret i =>
    simp only [step] at h
    split at h
    · next hpc => exact Or.inr (Or.inr ⟨i, rfl, .inl hpc, (Option.some.inj h).symm⟩)
    · next result hpc =>
      exact Or.inr (Or.inr ⟨i, rfl, .inr (.inl ⟨result, hpc⟩), (Option.some.inj h).symm⟩)
    · next hpc => exact Or.inr (Or.inr ⟨i, rfl, .inr (.inr hpc), (Option.some.inj h).symm⟩)
    · exact absurd h (by simp)

/-- Calls are never forgotten. -/
theorem calls_le_of_step {s s' : State ι α} {a : Action ι α} (h : step s a = some s') :
    s.calls ≤ s'.calls := by
  rcases step_cases h with ⟨i, call, -, -, rfl⟩ | ⟨i, c, r, -, -, rfl⟩ | ⟨i, -, -, rfl⟩
  · exact Nat.le_succ _
  · exact le_rfl
  · exact le_rfl

/-! ## Every step is a step of a FIFO -/

/-- What a step does to the list. -/
def Action.event (s s' : State ι α) : Action ι α → Option (FifoEvent α)
  | .access i _ => (s.pc i).event (s'.pc i)
  | _ => none

section Runs

variable [Fintype ι]

/-- The invariant and the list after a step. -/
theorem Inv.of_step {s s' : State ι α} {chain : List ℕ} {a : Action ι α} (hI : Inv s chain)
    (hb : s'.calls < sizeT) (h : step s a = some s') :
    ∃ chain', Inv s' chain' ∧
      FifoStep (elements s.mem chain) (a.event s s') (elements s'.mem chain') := by
  have hcalls := calls_le_of_step h
  rcases step_cases h with ⟨i, call, rfl, hpc, rfl⟩ | ⟨i, c, r, rfl, hr, rfl⟩ |
    ⟨i, rfl, hpc, rfl⟩
  · refine ⟨chain, ?_, ?_⟩
    · cases call with
      | push value =>
        refine hI.quiet hpc trivial rfl rfl ?_
        show 1 + s.calls ≤ 0 + (s.calls + 1)
        omega
      | pop =>
        refine hI.quiet hpc trivial rfl rfl ?_
        show 0 + s.calls ≤ 0 + (s.calls + 1)
        omega
    · cases call <;> exact .internal _
  · obtain ⟨chain', hinv, hfifo⟩ := hI.access (lt_of_le_of_lt hcalls hb) hr
    refine ⟨chain', hinv, ?_⟩
    show FifoStep _ ((s.pc i).event (Function.update s.pc i r.2 i)) _
    rw [Function.update_self]
    exact hfifo
  · refine ⟨chain, ?_, .internal _⟩
    rcases hpc with hpc | ⟨result, hpc⟩ | hpc
    all_goals exact hI.read hpc trivial rfl rfl rfl

/-- The invariant holds while fewer than `2 ^ 64` calls were made. -/
theorem inv_of_reachable {s : State ι α} (hs : (system ι α).Reachable s)
    (hb : s.calls < sizeT) : ∃ chain, Inv s chain := by
  refine Reaches.invariant_within (I := fun s => ∃ chain, Inv s chain)
    (B := fun s => s.calls < sizeT) ?_ (fun _ h => inv_init h) ?_ hs hb
  · exact fun _ _ _ h hb' => lt_of_le_of_lt (calls_le_of_step h) hb'
  · rintro s a s' ⟨chain, hI⟩ hb' h
    obtain ⟨chain', hI', -⟩ := hI.of_step hb' h
    exact ⟨chain', hI'⟩

/-- **The refinement step.** -/
theorem fifoStep_of_step {s s' : State ι α} {a : Action ι α} (hs : (system ι α).Reachable s)
    (h : step s a = some s') (hb : s'.calls < sizeT) :
    FifoStep s.mem.contents (a.event s s') s'.mem.contents := by
  obtain ⟨chain, hI⟩ := inv_of_reachable hs (lt_of_le_of_lt (calls_le_of_step h) hb)
  obtain ⟨chain', hI', hfifo⟩ := hI.of_step hb h
  rw [hI.shape.contents_eq, hI'.shape.contents_eq]
  exact hfifo

/-- No access goes through a null pointer: a thread inside a call can always make its
next access. -/
theorem access_isSome {s : State ι α} (hs : (system ι α).Reachable s) (hb : s.calls < sizeT)
    (i : ι) (hpc : s.pc i ≠ .idle ∧ s.pc i ≠ .pushDone ∧ s.pc i ≠ .popFalse ∧
      ∀ result, s.pc i ≠ .popTrue result) : ∃ c, (s.mem.access c (s.pc i)).isSome := by
  obtain ⟨chain, hI⟩ := inv_of_reachable hs hb
  obtain ⟨fresh, hfresh⟩ := Infinite.exists_notMem_finset s.mem.allocated
  have hC := hI.shape
  have htail := hC.tail_lt
  have hhead := hI.head_lt_length
  have hseen : ∀ {b : ℕ} {p : NodePtr}, Seen chain b p → b < chain.length → p.ptr.isSome := by
    intro b p hp hlt
    rw [hp.1, List.getElem?_eq_getElem (lt_of_le_of_lt hp.2 hlt)]
    rfl
  refine ⟨⟨false, fresh⟩, ?_⟩
  have hok := hI.threads i
  cases h : s.pc i with
  | idle => exact absurd h hpc.1
  | pushDone => exact absurd h hpc.2.1
  | popFalse => exact absurd h hpc.2.2.1
  | popTrue result => exact absurd h (hpc.2.2.2 result)
  | pushNew value => simp [Mem.access, hfresh]
  | pushInit value node => rfl
  | pushLoadTail value node => rfl
  | popLoadHead => rfl
  | popLoadTail head => rfl
  | releaseLoad node result => rfl
  | pushLoadNext value node tail =>
    rw [h] at hok
    rw [Mem.access, Option.isSome_map]
    exact hseen hok htail
  | pushLink value node tail next =>
    rw [h] at hok
    rw [Mem.access, Option.isSome_map]
    exact hseen hok.1 htail
  | popLoadNext head tail =>
    rw [h] at hok
    rw [Mem.access, Option.isSome_map]
    exact hseen hok.1 hhead
  | popRead head next =>
    rw [h] at hok
    obtain ⟨-, hle, hnext⟩ := hok
    rw [Mem.access, Option.isSome_map, hnext, List.getElem?_eq_getElem (by omega)]
    rfl
  | releaseStore node free result =>
    rw [h] at hok
    obtain ⟨⟨k, hk, hnode⟩, -⟩ := hok
    rw [Mem.access, Option.isSome_map, hnode, List.getElem?_eq_getElem (by omega)]
    rfl
  | pushCheck value node tail next =>
    simp only [Mem.access]
    split
    · split <;> rfl
    · rfl
  | pushHelp value node tail next =>
    simp only [Mem.access]
    split <;> rfl
  | pushSwing node tail =>
    simp only [Mem.access]
    split <;> rfl
  | popCheck head tail next =>
    simp only [Mem.access]
    split
    · split
      · split <;> rfl
      · rfl
    · rfl
  | popHelp tail next =>
    simp only [Mem.access]
    split <;> rfl
  | popCas head next result =>
    simp only [Mem.access]
    split <;> rfl
  | releaseCas node free result =>
    simp only [Mem.access]
    split <;> rfl

end Runs

/-! ## What a call does between its call and its return -/

/-- How far a call has come. -/
inductive Phase (α : Type*) where
  | outside
  /-- A push that has not linked its node. -/
  | pushing (value : α)
  | pushed
  /-- A pop that has removed nothing. -/
  | popping
  | popped (result : α)

def Pc.phase : Pc α → Phase α
  | .idle => .outside
  | .pushNew value | .pushInit value _ | .pushLoadTail value _ | .pushLoadNext value _ _
  | .pushCheck value _ _ _ | .pushLink value _ _ _ | .pushHelp value _ _ _ => .pushing value
  | .pushSwing _ _ | .pushDone => .pushed
  | .popLoadHead | .popLoadTail _ | .popLoadNext _ _ | .popCheck _ _ _ | .popHelp _ _
  | .popRead _ _ | .popCas _ _ _ | .popFalse => .popping
  | .releaseLoad _ result | .releaseStore _ _ result | .releaseCas _ _ result
  | .popTrue result => .popped result

/-- The operations on the list that a call has done, by how far it has come. -/
def Call.Done : Call α → Phase α → List (FifoEvent α) → Prop
  | .push value, .pushing v, done => v = value ∧ done = []
  | .push value, .pushed, done => done = [.enqueue value]
  | .pop, .popping, done => done = []
  | .pop, .popped result, done => done = [.dequeue result]
  | _, _, _ => False

/-- An access stays in its phase or makes the one operation of its call. -/
theorem Call.Done.access {call : Call α} {done : List (FifoEvent α)} {m : Mem α} {c : Choice}
    {pc : Pc α} {r : Mem α × Pc α} (hd : call.Done pc.phase done)
    (h : m.access c pc = some r) :
    call.Done r.2.phase (done ++ (pc.event r.2).toList) := by
  have quiet : ∀ {p : Pc α}, p.phase = pc.phase → pc.event p = none →
      call.Done p.phase (done ++ (pc.event p).toList) := by
    intro p hp hev
    rw [hp, hev, Option.toList_none, List.append_nil]
    exact hd
  cases pc with
  | idle => exact absurd h (by simp [Mem.access])
  | pushDone => exact absurd h (by simp [Mem.access])
  | popTrue result => exact absurd h (by simp [Mem.access])
  | popFalse => exact absurd h (by simp [Mem.access])
  | pushNew value =>
    simp only [Mem.access] at h
    split at h
    · exact absurd h (by simp)
    · obtain rfl := Option.some.inj h
      exact quiet rfl rfl
  | pushInit value node =>
    obtain rfl := Option.some.inj h
    exact quiet rfl rfl
  | pushLoadTail value node =>
    obtain rfl := Option.some.inj h
    exact quiet rfl rfl
  | pushLoadNext value node tail =>
    obtain ⟨a, -, rfl⟩ := Option.map_eq_some_iff.mp h
    exact quiet rfl rfl
  | pushCheck value node tail next =>
    simp only [Mem.access] at h
    split at h
    · split at h <;> obtain rfl := Option.some.inj h <;> exact quiet rfl rfl
    · obtain rfl := Option.some.inj h
      exact quiet rfl rfl
  | pushLink value node tail next =>
    obtain ⟨a, -, h⟩ := Option.map_eq_some_iff.mp h
    split at h
    · subst h
      cases call with
      | push v =>
        obtain ⟨rfl, rfl⟩ := hd
        rfl
      | pop => exact hd.elim
    · subst h
      exact quiet rfl rfl
  | pushHelp value node tail next =>
    simp only [Mem.access] at h
    split at h <;> obtain rfl := Option.some.inj h <;> exact quiet rfl rfl
  | pushSwing node tail =>
    simp only [Mem.access] at h
    split at h <;> obtain rfl := Option.some.inj h <;> exact quiet rfl rfl
  | popLoadHead =>
    obtain rfl := Option.some.inj h
    exact quiet rfl rfl
  | popLoadTail head =>
    obtain rfl := Option.some.inj h
    exact quiet rfl rfl
  | popLoadNext head tail =>
    obtain ⟨a, -, rfl⟩ := Option.map_eq_some_iff.mp h
    exact quiet rfl rfl
  | popCheck head tail next =>
    simp only [Mem.access] at h
    split at h
    · split at h
      · split at h <;> obtain rfl := Option.some.inj h <;> exact quiet rfl rfl
      · obtain rfl := Option.some.inj h
        exact quiet rfl rfl
    · obtain rfl := Option.some.inj h
      exact quiet rfl rfl
  | popHelp tail next =>
    simp only [Mem.access] at h
    split at h <;> obtain rfl := Option.some.inj h <;> exact quiet rfl rfl
  | popRead head next =>
    obtain ⟨a, -, rfl⟩ := Option.map_eq_some_iff.mp h
    exact quiet rfl rfl
  | popCas head next result =>
    simp only [Mem.access] at h
    split at h
    · obtain rfl := Option.some.inj h
      cases call with
      | push v => exact hd.elim
      | pop =>
        have hd : done = [] := hd
        subst hd
        rfl
    · obtain rfl := Option.some.inj h
      exact quiet rfl rfl
  | releaseLoad node result =>
    obtain rfl := Option.some.inj h
    exact quiet rfl rfl
  | releaseStore node free result =>
    obtain ⟨a, -, rfl⟩ := Option.map_eq_some_iff.mp h
    exact quiet rfl rfl
  | releaseCas node free result =>
    simp only [Mem.access] at h
    split at h <;> obtain rfl := Option.some.inj h <;> exact quiet rfl rfl

/-- The operation on the list that the thread `i` makes in a step. -/
def eventOf (i : ι) (t : Transition (State ι α) (Action ι α)) : Option (FifoEvent α) :=
  match t.action with
  | .access j _ => if j = i then (t.source.pc i).event (t.target.pc i) else none
  | _ => none

/-- The return of the thread `i` is not among the steps. -/
def Inside (i : ι) (_ : State ι α) (a : Action ι α) : Prop :=
  a ≠ .ret i

/-- A thread that is inside a call makes a step. -/
theorem pc_of_step {s s' : State ι α} {a : Action ι α} (i : ι) (h : step s a = some s')
    (hin : a ≠ .ret i) (hpc : s.pc i ≠ .idle) :
    (s'.pc i = s.pc i ∧ eventOf i ⟨s, a, s'⟩ = none) ∨
      ∃ c r, a = .access i c ∧ s.mem.access c (s.pc i) = some r ∧ s'.mem = r.1 ∧
        s'.pc i = r.2 ∧ eventOf i ⟨s, a, s'⟩ = (s.pc i).event r.2 := by
  rcases step_cases h with ⟨j, call, rfl, hj, rfl⟩ | ⟨j, c, r, rfl, hr, rfl⟩ | ⟨j, rfl, hj, rfl⟩
  · have hij : i ≠ j := by
      rintro rfl
      exact hpc hj
    refine Or.inl ⟨Function.update_of_ne hij _ _, ?_⟩
    cases call <;> rfl
  · by_cases hji : j = i
    · subst hji
      refine Or.inr ⟨c, r, rfl, hr, rfl, Function.update_self _ _ _, ?_⟩
      show (if j = j then (s.pc j).event (Function.update s.pc j r.2 j) else none) = _
      rw [if_pos rfl, Function.update_self]
    · exact Or.inl ⟨Function.update_of_ne (Ne.symm hji) _ _, if_neg hji⟩
  · have hij : i ≠ j := by
      rintro rfl
      exact hin rfl
    exact Or.inl ⟨Function.update_of_ne hij _ _, rfl⟩

/-- The program counter right after a call. -/
theorem pc_of_call {s s' : State ι α} {i : ι} (call : Call α)
    (h : step s (call.action i) = some s') : s'.pc i = call.entry ∧ s'.mem = s.mem := by
  rcases step_cases h with ⟨j, call', ha, -, rfl⟩ | ⟨j, c, r, ha, -⟩ | ⟨j, ha, -⟩
  · cases call <;> cases call' <;> cases ha
    all_goals exact ⟨Function.update_self _ _ _, rfl⟩
  · cases call <;> cases ha
  · cases call <;> cases ha

theorem Call.Done.ne_idle {call : Call α} {pc : Pc α} {done : List (FifoEvent α)}
    (hd : call.Done pc.phase done) : pc ≠ .idle := by
  rintro rfl
  cases call <;> exact hd

theorem filterMap_snoc {β γ : Type*} (f : β → Option γ) (l : List β) (b : β) :
    (l ++ [b]).filterMap f = l.filterMap f ++ (f b).toList := by
  rw [List.filterMap_append]
  cases h : f b with
  | none => rw [List.filterMap_cons_none h, List.filterMap_nil, Option.toList_none]
  | some c => rw [List.filterMap_cons_some h, List.filterMap_nil, Option.toList_some]

/-- **The operations of a call**, from the call to any later instant before its return. -/
theorem Call.Done.of_path {s₀ s₁ s₂ : State ι α} {i : ι} {call : Call α}
    {trace : List (Transition (State ι α) (Action ι α))}
    (hcall : (system ι α).step s₀ (call.action i) = some s₁)
    (p : (system ι α).Path (Inside i) s₁ trace s₂) :
    call.Done (s₂.pc i).phase (trace.filterMap (eventOf i)) := by
  refine p.invariant (I := fun tr u => call.Done (u.pc i).phase (tr.filterMap (eventOf i)))
    ?_ ?_
  · rw [(pc_of_call call hcall).1]
    cases call with
    | push value => exact ⟨rfl, rfl⟩
    | pop => rfl
  intro tr u a u' hd hin hstep
  rw [filterMap_snoc]
  rcases pc_of_step i hstep hin hd.ne_idle with ⟨hpc, hev⟩ | ⟨c, r, -, hr, -, hpc, hev⟩
  · rw [hpc, hev, Option.toList_none, List.append_nil]
    exact hd
  · rw [hpc, hev]
    exact hd.access hr

/-! ## A pop that returns `false` -/

/-- A pop that is about to return `false`: `head_` is still the pair it has loaded, and
there was no node behind it. -/
def Current (s : State ι α) (i : ι) : Prop :=
  match s.pc i with
  | .popCheck head tail next => head = tail ∧ next.ptr = none ∧ s.mem.head_ = head
  | .popFalse => True
  | _ => False

/-- Only the exchange of `head_` in `pop` changes it. -/
theorem head_of_access {m : Mem α} {c : Choice} {pc : Pc α} {r : Mem α × Pc α}
    (h : m.access c pc = some r) :
    r.1.head_ = m.head_ ∨ ∃ next result, pc = .popCas m.head_ next result ∧
      r.1.head_ = m.head_.advance next.ptr := by
  cases pc with
  | popCas head next result =>
    simp only [Mem.access] at h
    split at h
    · next hcas =>
      obtain rfl := Option.some.inj h
      obtain rfl := hcas.2
      exact Or.inr ⟨next, result, rfl, rfl⟩
    · obtain rfl := Option.some.inj h
      exact Or.inl rfl
  | _ =>
    refine Or.inl ?_
    simp only [Mem.access, Option.map_eq_some_iff] at h
    grind

omit [DecidableEq ι] in
/-- A `head_` that had moved is not restored. -/
theorem Current.of_same [Fintype ι] {s s' : State ι α} {chain : List ℕ} {i : ι} (hI : Inv s chain)
    (hle : s.mem.head_.count ≤ s'.mem.head_.count) (hpc : s'.pc i = s.pc i)
    (hcur : Current s' i) : Current s i := by
  have hok := hI.threads i
  rw [Current, hpc] at hcur
  unfold Current
  cases h : s.pc i with
  | popCheck head tail next =>
    rw [h] at hcur hok
    obtain ⟨htail, hnext, hhead⟩ := hcur
    obtain ⟨⟨hptr, hcount⟩, -⟩ := hok
    refine ⟨htail, hnext, ?_⟩
    rw [hhead] at hle
    have heq : s.mem.head_.count = head.count := le_antisymm hle hcount
    have hptr' : s.mem.head_.ptr = head.ptr := by rw [hI.shape.head, hptr, heq]
    cases hm : s.mem.head_
    rw [hm] at heq hptr'
    cases head
    rw [NodePtr.mk.injEq]
    exact ⟨hptr', heq⟩
  | popFalse => trivial
  | _ =>
    rw [h] at hcur
    exact hcur

section Runs

variable [Fintype ι]

/-- The version of `head_` only grows. -/
theorem Inv.head_le {s s' : State ι α} {chain : List ℕ} {a : Action ι α} (hI : Inv s chain)
    (hb : s'.calls < sizeT) (h : step s a = some s') :
    s.mem.head_.count ≤ s'.mem.head_.count := by
  have hcalls := calls_le_of_step h
  have hlen := hI.length_le
  rcases step_cases h with ⟨i, call, -, -, rfl⟩ | ⟨i, c, r, -, hr, rfl⟩ | ⟨i, -, -, rfl⟩
  · exact le_rfl
  · show s.mem.head_.count ≤ r.1.head_.count
    rcases head_of_access hr with hsame | ⟨next, result, hpc, hadv⟩
    · rw [hsame]
    · have hok := hI.threads i
      rw [hpc] at hok
      obtain ⟨-, hle, -, -⟩ := hok
      have htail := hI.shape.tail_lt
      have hb' : s.calls < sizeT := hb
      rw [hadv, NodePtr.advance, addSizeT_of_lt (by omega)]
      exact Nat.le_succ _
  · exact le_rfl

/-- A pop becomes current by loading a `next` behind which there is nothing. -/
theorem Current.of_access {s : State ι α} {chain : List ℕ} {i : ι} {c : Choice}
    {r : Mem α × Pc α} {n : ℕ} (hI : Inv s chain) (h : s.mem.access c (s.pc i) = some r)
    (hcur : Current ⟨r.1, Function.update s.pc i r.2, n⟩ i) :
    Current s i ∨ r.1.contents = [] := by
  have hok := hI.threads i
  unfold Current at hcur
  simp only [Function.update_self] at hcur
  unfold Current
  cases hpc : s.pc i with
  | popLoadNext head tail =>
    rw [hpc] at h hok
    obtain ⟨a, ha, rfl⟩ := Option.map_eq_some_iff.mp h
    obtain ⟨-, hnext, hhead⟩ := hcur
    refine Or.inr ?_
    obtain ⟨⟨hptr, -⟩, -⟩ := hok
    have hhead : s.mem.head_ = head := hhead
    have hnext : (s.mem.next a).ptr = none := hnext
    rw [hI.shape.next head.count a (by rw [hhead]) (hptr.symm.trans ha)] at hnext
    have hlast : chain.length ≤ head.count + 1 := List.getElem?_eq_none_iff.mp hnext
    show s.mem.contents = []
    rw [hI.shape.contents_eq, elements, hhead, List.drop_eq_nil_of_le hlast, List.map_nil]
  | popCheck head tail next =>
    rw [hpc] at h
    refine Or.inl ?_
    simp only [Mem.access] at h
    split at h
    · next hhead =>
      split at h
      · next htail =>
        split at h
        · next hnone => exact ⟨htail, hnone, hhead.symm⟩
        · obtain rfl := Option.some.inj h
          exact hcur.elim
      · obtain rfl := Option.some.inj h
        exact hcur.elim
    · obtain rfl := Option.some.inj h
      exact hcur.elim
  | _ =>
    rw [hpc] at h
    simp only [Mem.access, Option.map_eq_some_iff] at h
    grind

/-- A step that makes a pop current ends where the list is empty. -/
theorem Current.of_step {s s' : State ι α} {chain : List ℕ} {a : Action ι α} {i : ι}
    (hI : Inv s chain) (hb : s'.calls < sizeT) (h : step s a = some s') (hin : a ≠ .ret i)
    (hpc : s.pc i ≠ .idle) (hcur : Current s' i) : Current s i ∨ s'.mem.contents = [] := by
  rcases pc_of_step i h hin hpc with ⟨hsame, -⟩ | ⟨c, r, rfl, hr, -⟩
  · exact Or.inl (hcur.of_same hI (hI.head_le hb h) hsame)
  · obtain ⟨r', hr', rfl⟩ := Option.map_eq_some_iff.mp h
    obtain rfl := Option.some.inj (hr.symm.trans hr')
    exact Current.of_access hI hr hcur

/-- **The empty instant.**  A pop that returns `false` has an instant between its call
and its return at which the list is empty. -/
theorem exists_contents_nil {s₀ s₁ s₂ : State ι α} {i : ι}
    {trace : List (Transition (State ι α) (Action ι α))} (hs : (system ι α).Reachable s₀)
    (hcall : (system ι α).step s₀ (.pop i) = some s₁)
    (p : (system ι α).Path (Inside i) s₁ trace s₂)
    (hpc : s₂.pc i = .popFalse) (hb : s₂.calls < sizeT) :
    ∃ t ∈ trace, t.target.mem.contents = [] := by
  have hentry : s₁.pc i = .popLoadHead := (pc_of_call .pop hcall).1
  have hrule := p.exists_or (E := fun u => u.mem.contents = [])
    (R := fun u => (∃ done, Call.pop.Done (u.pc i).phase done) ∧
      (u.calls < sizeT → ¬ Current u i)) ?_ (.next hs trivial hcall) ?_
  · rcases hrule with h | ⟨-, h⟩
    · exact h
    · refine absurd ?_ (h hb)
      rw [Current, hpc]
      trivial
  · rintro u a u' hu ⟨⟨done, hdone⟩, hR⟩ hin hstep
    by_cases hempty : u'.mem.contents = []
    · exact Or.inl hempty
    · refine Or.inr ⟨?_, fun hub hcur => ?_⟩
      · rcases pc_of_step i hstep hin hdone.ne_idle with ⟨hsame, -⟩ | ⟨c, r, -, hr, -, hnew, -⟩
        · exact ⟨done, hsame ▸ hdone⟩
        · exact ⟨_, hnew ▸ hdone.access hr⟩
      · have hub' := lt_of_le_of_lt (calls_le_of_step hstep) hub
        obtain ⟨chain, hI⟩ := inv_of_reachable hu hub'
        rcases Current.of_step hI hub hstep hin hdone.ne_idle hcur with h | h
        · exact hR hub' h
        · exact hempty h
  · rw [hentry]
    refine ⟨⟨[], rfl⟩, fun _ hcur => ?_⟩
    rw [Current, hentry] at hcur
    exact hcur

end Runs

/-! ## The refinement theorem -/

/-- What the user of the queue sees of a call that is about to return: the operations
it made on the list since it was made. -/
structure CallRefines (i : ι) (call : Call α)
    (trace : List (Transition (State ι α) (Action ι α))) (s : State ι α) : Prop where
  /-- A push has enqueued exactly its value, once. -/
  push : ∀ value, call = .push value → s.pc i = .pushDone →
    trace.filterMap (eventOf i) = [.enqueue value]
  /-- A pop has dequeued once, the element that it returns. -/
  pop_true : ∀ result, call = .pop → s.pc i = .popTrue result →
    trace.filterMap (eventOf i) = [.dequeue result]
  /-- A pop that returns `false` has dequeued nothing and met the empty list. -/
  pop_false : call = .pop → s.pc i = .popFalse → trace.filterMap (eventOf i) = [] ∧
    ∃ t ∈ trace, t.target.mem.contents = []

/-- **The queue refines an atomic unbounded FIFO**: for any number of threads and any
interleaving with fewer than `2 ^ 64` calls.  The list is empty at first, every step
moves it by at most one operation of a FIFO, the exchange of `next` by an enqueue and
the exchange of `head_` by a dequeue, and every call makes its own operation. -/
theorem refines_fifo [Fintype ι] :
    (∀ s : State ι α, IsInitial s → s.mem.contents = []) ∧
    (∀ (s : State ι α) a s', (system ι α).Reachable s → (system ι α).step s a = some s' →
      s'.calls < 2 ^ 64 → FifoStep s.mem.contents (a.event s s') s'.mem.contents) ∧
    (∀ (s₀ : State ι α) i call s₁ trace s₂, (system ι α).Reachable s₀ →
      (system ι α).step s₀ (Call.action i call) = some s₁ →
      (system ι α).Path (Inside i) s₁ trace s₂ → s₂.calls < 2 ^ 64 →
      CallRefines i call trace s₂) := by
  refine ⟨fun s h => ?_, fun s a s' hs h hb => fifoStep_of_step hs h hb,
    fun s₀ i call s₁ trace s₂ hs hcall p hb => ⟨?_, ?_, ?_⟩⟩
  · obtain ⟨dummy, halloc, -, hhead, -⟩ := h
    rw [Mem.contents, halloc, hhead, Finset.card_singleton]
    rfl
  · rintro value rfl hpc
    have hd := Call.Done.of_path hcall p
    rw [hpc] at hd
    exact hd
  · rintro result rfl hpc
    have hd := Call.Done.of_path hcall p
    rw [hpc] at hd
    exact hd
  · rintro rfl hpc
    have hd := Call.Done.of_path hcall p
    rw [hpc] at hd
    exact ⟨hd, exists_contents_nil hs hcall p hpc hb⟩

/-- A queue of two threads with the dummy node `0`. -/
def emptyOfTwo : State (Fin 2) ℕ :=
  { mem := { head_ := ⟨some 0, 0⟩, tail_ := ⟨some 0, 0⟩, free_ := ⟨none, 0⟩
             next := fun _ => ⟨none, 0⟩, data := fun _ => 0, allocated := {0} }
    pc := fun _ => .idle, calls := 0 }

/-- Thread `1` begins a pop of the empty queue; thread `0` pushes `7` up to the exchange
of `next`. -/
def beforeLink : List (Action (Fin 2) ℕ) :=
  [.pop 1, .push 0 7, .access 0 ⟨false, 1⟩, .access 0 ⟨false, 0⟩, .access 1 ⟨false, 0⟩,
    .access 0 ⟨false, 0⟩, .access 0 ⟨false, 0⟩, .access 0 ⟨false, 0⟩]

/-- The exchange of `next` in that run enqueues `7`. -/
theorem refines_fifo_link :
    let s := (system (Fin 2) ℕ).replay emptyOfTwo beforeLink
    let s' := (system (Fin 2) ℕ).replay emptyOfTwo (beforeLink ++ [.access 0 ⟨false, 0⟩])
    FifoStep s.mem.contents (some (.enqueue 7)) s'.mem.contents := by
  have hinit : (system (Fin 2) ℕ).Reachable emptyOfTwo :=
    .start ⟨0, rfl, rfl, rfl, rfl, rfl, fun _ => rfl, rfl⟩
  exact refines_fifo.2.1 _ (.access 0 ⟨false, 0⟩) _ (hinit.replay beforeLink (by decide)) rfl
    (by decide)

end LockFreeQueue
end ThreadUtils
