import ThreadUtils.DataStructures.LockFreeQueue.Refinement
import ThreadUtils.Transition.Progress

/-!
# The list is lock-free

A call starts over when a pointer that it has loaded is not the current one any more.  What the
calls can see of the memory is its `View`, and `cost` bounds the steps that a call still makes while
the view stays the same.

## Who pays for a change

The view changes when an exchange succeeds, and the calls in flight have few of them to make: a push
links its node, and somebody swings `tail_` past it; a pop moves `head_` and puts the old dummy on
the free list (`Pc.owing`).  The swing is not tied to a thread.  The push that has linked its node
may fail at it because another call was faster, so the debt is counted with the push until the node
is linked and with the memory afterwards, as long as `tail_` lags behind (`View.lag`).

A call that helps swings `tail_` for somebody else, and so it pays with the lag and not with its own
debt; and `lag_le` says that no more than one node is ever linked behind `tail_`.

## The account

`Inv.pays` is the local statement: an access makes an exchange that was owed, or it keeps the view
and lowers the cost of its own call.  A spurious failure does neither, and so it is paid for by
itself.  An exchange that is made may send every other call back to its start, which raises the cost
by at most `13` for each thread.  From this the account of a run follows by counting: a call brings
two exchanges, an exchange brings at most `13` accesses for each thread.

* `list_lockFree` --- the steps of a run are paid for by the calls that have returned, the calls in
  flight and the spurious failures.

There is no fairness in it and no scheduler: in a long run without spurious failures calls return,
whatever threads stand still.
-/

namespace ThreadUtils
namespace LockFreeQueue

open TransitionSystem

variable {ι α : Type*}

/-! ## What a call still does -/

/-- The pointers that the calls compare with what they have loaded. -/
structure View where
  head : NodePtr
  tail : NodePtr
  free : NodePtr
  /-- The `next` field of the node of `tail_`. -/
  next : NodePtr

def Mem.view (m : Mem α) : View :=
  ⟨m.head_, m.tail_, m.free_, m.next (m.tail_.ptr.getD 0)⟩

/-- A bound on the steps of a call up to its return, while the view stays the same and no exchange
fails spuriously. -/
def cost (v : View) : Pc α → ℕ
  | .idle => 0
  | .pushNew _ => 8
  | .pushInit _ _ => 7
  | .pushLoadTail _ _ => 6
  | .pushLoadNext _ _ tail => if tail = v.tail then 5 else 9
  | .pushCheck _ _ tail next => if tail = v.tail ∧ next = v.next then 4 else 8
  | .pushLink _ _ tail next => if tail = v.tail ∧ next = v.next then 3 else 7
  | .pushHelp _ _ tail _ => if tail = v.tail then 3 else 7
  | .pushSwing _ _ => 2
  | .popLoadHead => 8
  | .popLoadTail head => if head = v.head then 7 else 13
  | .popLoadNext head tail => if head = v.head ∧ tail = v.tail then 6 else 12
  | .popCheck head tail _ => if head = v.head ∧ tail = v.tail then 5 else 11
  | .popHelp tail _ => if tail = v.tail then 4 else 9
  | .popRead head _ => if head = v.head then 4 else 10
  | .popCas head _ _ => if head = v.head then 3 else 9
  | .releaseLoad _ _ => 4
  | .releaseStore _ free _ => if free = v.free then 3 else 6
  | .releaseCas _ free _ => if free = v.free then 2 else 5
  | .pushDone | .popTrue _ | .popFalse => 1

theorem cost_le (v : View) (pc : Pc α) : cost v pc ≤ 13 := by
  unfold cost
  split <;> first | omega | (split <;> omega)

/-- The exchanges that a call has to make.  The swing of `tail_` past its node belongs to a push
until the node is linked. -/
def Pc.owing : Pc α → ℕ
  | .pushNew _ | .pushInit _ _ | .pushLoadTail _ _ | .pushLoadNext _ _ _ | .pushCheck _ _ _ _
  | .pushLink _ _ _ _ | .pushHelp _ _ _ _ => 2
  | .popLoadHead | .popLoadTail _ | .popLoadNext _ _ | .popCheck _ _ _ | .popHelp _ _
  | .popRead _ _ | .popCas _ _ _ => 2
  | .releaseLoad _ _ | .releaseStore _ _ _ | .releaseCas _ _ _ => 1
  | .idle | .pushSwing _ _ | .pushDone | .popTrue _ | .popFalse => 0

/-- `1` while a node is linked behind the node of `tail_`. -/
def View.lag (v : View) : ℕ :=
  v.next.count

/-- `1` for a thread outside of a call. -/
def Pc.idling : Pc α → ℕ
  | .idle => 1
  | _ => 0

variable [Fintype ι] {s : State ι α} {chain : List ℕ}

theorem Inv.lag_eq (hI : Inv s chain) :
    s.mem.view.lag + (s.mem.tail_.count + 1) = chain.length := by
  have hlt := hI.shape.tail_lt
  have hlast := hI.shape.last
  have htail := hI.shape.tail
  rw [List.getElem?_eq_getElem hlt] at htail
  have hnext := hI.shape.next _ _ hI.shape.head_le_tail (List.getElem?_eq_getElem hlt)
  show (s.mem.next (s.mem.tail_.ptr.getD 0)).count + _ = _
  rw [htail, Option.getD_some, hnext, LockFreeQueue.link]
  dsimp only
  split <;> omega

/-- A store outside of the queue does not change the view. -/
theorem Inv.view_store (hI : Inv s chain) {b : ℕ} (hb : chain[s.mem.tail_.count]? ≠ some b)
    {m : Mem α} {p : NodePtr} (hhead : m.head_ = s.mem.head_) (htail : m.tail_ = s.mem.tail_)
    (hfree : m.free_ = s.mem.free_) (hnext : m.next = Function.update s.mem.next b p) :
    m.view = s.mem.view := by
  have hlt := hI.shape.tail_lt
  have hptr := hI.shape.tail
  rw [List.getElem?_eq_getElem hlt] at hptr hb
  rw [Mem.view, Mem.view, hhead, htail, hfree, hnext, hptr, Option.getD_some,
    Function.update_of_ne fun heq => hb (congrArg some heq)]

/-- No more than one node is linked behind the node of `tail_`. -/
theorem Inv.lag_le (hI : Inv s chain) : s.mem.view.lag ≤ 1 := by
  have hlag := hI.lag_eq
  have hlast := hI.shape.last
  omega

/-! ## One access -/

/-- An access pays with an exchange that was owed, or the view stays the same and the access lowers
the cost of its call. -/
inductive Pays (spurious : Bool) (m : Mem α) (pc : Pc α) (r : Mem α × Pc α) : Prop where
  | exchange (lt : r.1.view.lag + r.2.owing < m.view.lag + pc.owing)
  | work (view : r.1.view = m.view) (owing : r.2.owing = pc.owing)
      (lt : spurious = false → cost m.view r.2 < cost m.view pc)

variable [DecidableEq ι]

/-- A swing of `tail_` settles the lag. -/
theorem Inv.lag_swing (hI : Inv s chain) (hcalls : s.calls < sizeT) {i : ι} {q p : Pc α}
    (hpc : s.pc i = q) {target : Option ℕ} (hlink : Linked chain s.mem.tail_.count target)
    (hok : ∀ m : Mem α, ThreadOk m chain p) (hown : p.owned = q.owned)
    (hrel : p.releasing = q.releasing) (hunl : p.unlinked = q.unlinked) :
    View.lag (Mem.view { s.mem with tail_ := s.mem.tail_.advance target }) <
      s.mem.view.lag := by
  have hlag := hI.lag_eq
  have hlag' : View.lag (Mem.view { s.mem with tail_ := s.mem.tail_.advance target }) +
      ((s.mem.tail_.advance target).count + 1) = chain.length :=
    (hI.swing hpc hlink hcalls hok hown hrel hunl).lag_eq
  have hlen := hI.length_le
  have hlt := hlink.1
  rw [NodePtr.advance, addSizeT_of_lt (by omega)] at hlag' ⊢
  dsimp only at hlag' ⊢
  omega

/-- **An access pays.**  It makes an exchange that was owed, or it goes on with its call. -/
theorem Inv.pays (hI : Inv s chain) (hcalls : s.calls < sizeT) {i : ι} {c : Choice}
    {r : Mem α × Pc α} (h : s.mem.access c (s.pc i) = some r) :
    Pays c.spurious s.mem (s.pc i) r := by
  have hok := hI.threads i
  have hlag := hI.lag_le
  cases hpc : s.pc i with
  | idle => simp [Mem.access, hpc] at h
  | pushDone => simp [Mem.access, hpc] at h
  | popTrue result => simp [Mem.access, hpc] at h
  | popFalse => simp [Mem.access, hpc] at h
  | pushNew value =>
    simp only [Mem.access, hpc] at h
    split at h
    · cases h
    · next hfresh =>
      obtain rfl := Option.some.inj h
      have hview := hI.view_store (b := c.fresh) (p := ⟨none, 0⟩)
        (m := { s.mem with
          allocated := insert c.fresh s.mem.allocated
          data := Function.update s.mem.data c.fresh value
          next := Function.update s.mem.next c.fresh ⟨none, 0⟩ })
        (fun heq => hfresh (hI.shape.allocated _ (List.mem_of_getElem? heq))) rfl rfl rfl rfl
      exact .work hview rfl fun _ => Nat.lt_succ_self 7
  | pushInit value node =>
    simp only [Mem.access, hpc, Option.some.injEq] at h
    subst h
    have hp := hI.owned i node value (by rw [hpc]; rfl)
    have hview := hI.view_store (b := node) (p := ⟨none, 0⟩)
      (m := { s.mem with next := Function.update s.mem.next node ⟨none, 0⟩ })
      (fun heq => hp.not_linked (List.mem_of_getElem? heq)) rfl rfl rfl rfl
    exact .work hview rfl fun _ => Nat.lt_succ_self 6
  | pushLoadTail value node =>
    simp only [Mem.access, hpc, Option.some.injEq] at h
    subst h
    exact .work rfl rfl fun _ => by simp [cost, Mem.view]
  | pushLoadNext value node tail =>
    simp only [Mem.access, hpc, Option.map_eq_some_iff] at h
    obtain ⟨a, ha, rfl⟩ := h
    refine .work rfl rfl fun _ => ?_
    dsimp only [cost]
    by_cases htail : tail = s.mem.view.tail
    · have hnext : s.mem.next a = s.mem.view.next := by
        rw [Mem.view, ← show tail = s.mem.tail_ from htail, ha, Option.getD_some]
      rw [if_pos htail, if_pos ⟨htail, hnext⟩]
      exact Nat.lt_succ_self 4
    · rw [if_neg htail, if_neg fun hand => htail hand.1]
      exact Nat.lt_succ_self 8
  | pushCheck value node tail next =>
    simp only [Mem.access, hpc] at h
    split at h
    · next htail =>
      have htail' : tail = s.mem.view.tail := htail
      split at h
      · obtain rfl := Option.some.inj h
        refine .work rfl rfl fun _ => ?_
        dsimp only [cost]
        split <;> omega
      · obtain rfl := Option.some.inj h
        refine .work rfl rfl fun _ => ?_
        dsimp only [cost]
        rw [if_pos htail']
        split <;> omega
    · next htail =>
      obtain rfl := Option.some.inj h
      refine .work rfl rfl fun _ => ?_
      dsimp only [cost]
      rw [if_neg fun hand => htail hand.1]
      omega
  | pushLink value node tail next =>
    rw [hpc] at hok
    obtain ⟨hseen, rfl⟩ := hok
    simp only [Mem.access, hpc, Option.map_eq_some_iff] at h
    obtain ⟨a, ha, h⟩ := h
    split at h
    · next hcas =>
      have hadv : NodePtr.advance ⟨none, 0⟩ (some node) = ⟨some node, 1⟩ := by
        rw [NodePtr.advance, addSizeT_of_lt (by norm_num [sizeT])]
      rw [hadv] at h
      subst h
      have hlag' := (hI.link hpc ha hcas.2).1.lag_le
      refine .exchange ?_
      dsimp only [Pc.owing] at hlag' ⊢
      omega
    · next hcas =>
      subst h
      refine .work rfl rfl fun hspurious => ?_
      dsimp only [cost]
      rw [if_neg]
      · exact Nat.lt_succ_self 6
      · rintro ⟨rfl, hnext⟩
        refine hcas ⟨by rw [hspurious]; rfl, ?_⟩
        rw [hnext, Mem.view, show s.mem.tail_.ptr = some a from ha, Option.getD_some]
  | pushHelp value node tail next =>
    rw [hpc] at hok
    simp only [Mem.access, hpc] at h
    split at h
    · next hcas =>
      obtain rfl := Option.some.inj h
      obtain rfl := hcas.2
      have hswing := hI.lag_swing hcalls hpc hok.2 (p := .pushLoadTail value node)
        (fun _ => trivial) rfl rfl rfl
      exact .exchange (Nat.add_lt_add_right hswing 2)
    · next hcas =>
      obtain rfl := Option.some.inj h
      refine .work rfl rfl fun hspurious => ?_
      dsimp only [cost]
      rw [if_neg fun heq => hcas ⟨by rw [hspurious]; rfl, heq.symm⟩]
      exact Nat.lt_succ_self 6
  | pushSwing node tail =>
    rw [hpc] at hok
    simp only [Mem.access, hpc] at h
    split at h
    · next hcas =>
      obtain rfl := Option.some.inj h
      obtain rfl := hcas.2
      have hswing := hI.lag_swing hcalls hpc hok.2 (p := .pushDone) (fun _ => trivial) rfl rfl rfl
      exact .exchange (Nat.add_lt_add_right hswing 0)
    · obtain rfl := Option.some.inj h
      exact .work rfl rfl fun _ => Nat.lt_succ_self 1
  | popLoadHead =>
    simp only [Mem.access, hpc, Option.some.injEq] at h
    subst h
    exact .work rfl rfl fun _ => by simp [cost, Mem.view]
  | popLoadTail head =>
    simp only [Mem.access, hpc, Option.some.injEq] at h
    subst h
    refine .work rfl rfl fun _ => ?_
    dsimp only [cost]
    by_cases hhead : head = s.mem.view.head
    · rw [if_pos hhead, if_pos ⟨hhead, rfl⟩]
      exact Nat.lt_succ_self 6
    · rw [if_neg hhead, if_neg fun hand => hhead hand.1]
      exact Nat.lt_succ_self 12
  | popLoadNext head tail =>
    simp only [Mem.access, hpc, Option.map_eq_some_iff] at h
    obtain ⟨a, -, rfl⟩ := h
    refine .work rfl rfl fun _ => ?_
    dsimp only [cost]
    split <;> omega
  | popCheck head tail next =>
    simp only [Mem.access, hpc] at h
    split at h
    · next hhead =>
      have hhead' : head = s.mem.view.head := hhead
      split at h
      · split at h
        · obtain rfl := Option.some.inj h
          refine .exchange ?_
          dsimp only [Pc.owing]
          omega
        · obtain rfl := Option.some.inj h
          refine .work rfl rfl fun _ => ?_
          dsimp only [cost]
          by_cases htail : tail = s.mem.view.tail
          · rw [if_pos htail, if_pos ⟨hhead', htail⟩]
            exact Nat.lt_succ_self 4
          · rw [if_neg htail, if_neg fun hand => htail hand.2]
            omega
      · obtain rfl := Option.some.inj h
        refine .work rfl rfl fun _ => ?_
        dsimp only [cost]
        rw [if_pos hhead']
        split <;> omega
    · next hhead =>
      obtain rfl := Option.some.inj h
      refine .work rfl rfl fun _ => ?_
      dsimp only [cost]
      rw [if_neg fun hand => hhead hand.1]
      omega
  | popHelp tail next =>
    rw [hpc] at hok
    simp only [Mem.access, hpc] at h
    split at h
    · next hcas =>
      obtain rfl := Option.some.inj h
      obtain rfl := hcas.2
      have hswing := hI.lag_swing hcalls hpc hok.2 (p := .popLoadHead) (fun _ => trivial)
        rfl rfl rfl
      exact .exchange (Nat.add_lt_add_right hswing 2)
    · next hcas =>
      obtain rfl := Option.some.inj h
      refine .work rfl rfl fun hspurious => ?_
      dsimp only [cost]
      rw [if_neg fun heq => hcas ⟨by rw [hspurious]; rfl, heq.symm⟩]
      exact Nat.lt_succ_self 8
  | popRead head next =>
    simp only [Mem.access, hpc, Option.map_eq_some_iff] at h
    obtain ⟨a, -, rfl⟩ := h
    refine .work rfl rfl fun _ => ?_
    dsimp only [cost]
    split <;> omega
  | popCas head next result =>
    simp only [Mem.access, hpc] at h
    split at h
    · obtain rfl := Option.some.inj h
      refine .exchange ?_
      exact Nat.lt_succ_self (s.mem.view.lag + 1)
    · next hcas =>
      obtain rfl := Option.some.inj h
      refine .work rfl rfl fun hspurious => ?_
      dsimp only [cost]
      rw [if_neg fun heq => hcas ⟨by rw [hspurious]; rfl, heq.symm⟩]
      exact Nat.lt_succ_self 8
  | releaseLoad node result =>
    simp only [Mem.access, hpc, Option.some.injEq] at h
    subst h
    exact .work rfl rfl fun _ => by simp [cost, Mem.view]
  | releaseStore node free result =>
    rw [hpc] at hok
    simp only [Mem.access, hpc, Option.map_eq_some_iff] at h
    obtain ⟨a, rfl, rfl⟩ := h
    obtain ⟨⟨k, hk, hka⟩, -⟩ := hok
    have hview := hI.view_store (b := a) (p := free.advance free.ptr)
      (m := { s.mem with next := Function.update s.mem.next a (free.advance free.ptr) })
      (fun heq => by
        have hpos := hI.shape.position_unique heq hka.symm
        have hle := hI.shape.head_le_tail
        omega) rfl rfl rfl rfl
    refine .work hview rfl fun _ => ?_
    dsimp only [cost]
    split <;> omega
  | releaseCas node free result =>
    simp only [Mem.access, hpc] at h
    split at h
    · obtain rfl := Option.some.inj h
      refine .exchange ?_
      exact Nat.lt_succ_self s.mem.view.lag
    · next hcas =>
      obtain rfl := Option.some.inj h
      refine .work rfl rfl fun hspurious => ?_
      dsimp only [cost]
      rw [if_neg fun heq => hcas ⟨by rw [hspurious]; rfl, heq.symm⟩]
      exact Nat.lt_succ_self 4

/-! ## The steps of a run -/

/-- The exchanges that the calls in flight have to make, and the swing that nobody owes. -/
def State.owing (s : State ι α) : ℕ :=
  s.mem.view.lag + ∑ i, (s.pc i).owing

/-- The cost of the calls in flight. -/
def State.cost (s : State ι α) : ℕ :=
  ∑ i, LockFreeQueue.cost s.mem.view (s.pc i)

omit [DecidableEq ι] in
theorem State.cost_le (s : State ι α) : s.cost ≤ 13 * Fintype.card ι := by
  rw [Nat.mul_comm]
  exact Finset.sum_le_card_nsmul _ _ _ fun i _ => LockFreeQueue.cost_le _ _

omit [DecidableEq ι] in
theorem sum_owing_le (s : State ι α) : ∑ i, (s.pc i).owing ≤ 2 * Fintype.card ι := by
  rw [Nat.mul_comm]
  exact Finset.sum_le_card_nsmul _ _ _ fun i _ => by cases s.pc i <;> simp [Pc.owing]

omit [DecidableEq ι] in
theorem sum_idling_le (s : State ι α) : ∑ i, (s.pc i).idling ≤ Fintype.card ι :=
  (Finset.sum_le_card_nsmul _ _ 1 fun i _ => by cases s.pc i <;> simp [Pc.idling]).trans_eq
    (Nat.mul_one _)

/-- A call begins. -/
def isCall (t : Transition (State ι α) (Action ι α)) : Bool :=
  match t.action with
  | .push _ _ | .pop _ => true
  | _ => false

/-- A call returns. -/
def isReturn (t : Transition (State ι α) (Action ι α)) : Bool :=
  match t.action with
  | .ret _ => true
  | _ => false

/-- The environment makes an exchange fail. -/
def isSpurious (t : Transition (State ι α) (Action ι α)) : Bool :=
  match t.action with
  | .access _ c => c.spurious
  | _ => false

/-- An exchange that was owed is made. -/
def isExchange (t : Transition (State ι α) (Action ι α)) : Bool :=
  t.target.owing < t.source.owing

/-- The steps that may raise the cost of a call. -/
def isBurst (t : Transition (State ι α) (Action ι α)) : Bool :=
  isExchange t || (isCall t || isSpurious t)

variable {s' : State ι α} {a : Action ι α}

omit [DecidableEq ι] in
/-- An access stays inside its call. -/
theorem idling_of_access {m : Mem α} {c : Choice} {pc : Pc α} {r : Mem α × Pc α}
    (h : m.access c pc = some r) : r.2.idling = 0 ∧ pc.idling = 0 := by
  cases pc with
  | idle => cases h
  | _ =>
    refine ⟨?_, rfl⟩
    simp only [Mem.access, Option.map_eq_some_iff] at h
    grind [Pc.idling]

/-- **The account of a step.**  A call owes two exchanges, and no other step owes more than before;
a step that makes no exchange lowers the cost, if it is no call and no spurious failure. -/
theorem Inv.account (hI : Inv s chain) (hb : s.calls < sizeT) (h : step s a = some s') :
    (s'.owing ≤ s.owing + if isCall ⟨s, a, s'⟩ then 2 else 0) ∧
      (∑ i, (s'.pc i).idling + (if isCall ⟨s, a, s'⟩ then 1 else 0) ≤
        ∑ i, (s.pc i).idling + if isReturn ⟨s, a, s'⟩ then 1 else 0) ∧
      (isBurst ⟨s, a, s'⟩ = false → s'.cost < s.cost) := by
  rcases step_cases h with ⟨i, call, rfl, hpc, rfl⟩ | ⟨i, c, r, rfl, hr, rfl⟩ |
    ⟨i, rfl, hpc, rfl⟩
  · have howing := sum_update_exchange Pc.owing s.pc i call.entry
    have hidling := sum_update_exchange Pc.idling s.pc i call.entry
    rw [hpc] at howing hidling
    have hcall : isCall ⟨s, call.action i,
        ⟨s.mem, Function.update s.pc i call.entry, s.calls + 1⟩⟩ = true := by cases call <;> rfl
    have hentry : call.entry.owing = 2 ∧ call.entry.idling = 0 := by cases call <;> exact ⟨rfl, rfl⟩
    rw [hentry.1] at howing
    rw [hentry.2] at hidling
    refine ⟨?_, ?_, fun hburst => ?_⟩
    · rw [hcall, if_pos rfl]
      exact (congrArg (s.mem.view.lag + ·) howing).le
    · rw [hcall, if_pos rfl]
      exact hidling.le.trans (Nat.le_add_right _ _)
    · rw [isBurst, hcall, Bool.true_or, Bool.or_true] at hburst
      cases hburst
  · have howing := sum_update_exchange Pc.owing s.pc i r.2
    have hidling := sum_update_exchange Pc.idling s.pc i r.2
    rw [(idling_of_access hr).1, (idling_of_access hr).2] at hidling
    have hpays := hI.pays hb hr
    refine ⟨?_, hidling.le, fun hburst => ?_⟩
    · show r.1.view.lag + ∑ j, (Function.update s.pc i r.2 j).owing ≤
        s.mem.view.lag + ∑ j, (s.pc j).owing + 0
      cases hpays with
      | exchange hlt => omega
      | work hview howed hlt =>
        rw [hview]
        omega
    · rw [isBurst, Bool.or_eq_false_iff, Bool.or_eq_false_iff] at hburst
      obtain ⟨hexchange, -, hspurious⟩ := hburst
      cases hpays with
      | exchange hlt =>
        have hle : s.mem.view.lag + ∑ j, (s.pc j).owing ≤
            r.1.view.lag + ∑ j, (Function.update s.pc i r.2 j).owing :=
          not_lt.mp (of_decide_eq_false hexchange)
        omega
      | work hview howed hlt =>
        show ∑ j, LockFreeQueue.cost r.1.view _ < _
        rw [hview]
        exact sum_lt_sum_of_update (hlt hspurious) fun _ _ => le_rfl
  · have howing := sum_update_exchange Pc.owing s.pc i .idle
    have hidling := sum_update_exchange Pc.idling s.pc i .idle
    have hdone : (s.pc i).owing = 0 ∧ (s.pc i).idling = 0 ∧
        LockFreeQueue.cost s.mem.view (s.pc i) = 1 := by
      rcases hpc with hpc | ⟨result, hpc⟩ | hpc <;> rw [hpc] <;> exact ⟨rfl, rfl, rfl⟩
    rw [hdone.1] at howing
    rw [hdone.2.1] at hidling
    refine ⟨(congrArg (s.mem.view.lag + ·) howing).le, hidling.le, fun _ => ?_⟩
    exact sum_lt_sum_of_update (by rw [hdone.2.2]; exact Nat.one_pos) fun _ _ => le_rfl

omit [DecidableEq ι] in
/-- An exchange that is made was owed. -/
theorem owing_add_le (howing : s'.owing ≤ s.owing + if isCall ⟨s, a, s'⟩ then 2 else 0) :
    s'.owing + (if isExchange ⟨s, a, s'⟩ then 1 else 0) ≤
      s.owing + if isCall ⟨s, a, s'⟩ then 2 else 0 := by
  cases hexchange : isExchange ⟨s, a, s'⟩ with
  | false =>
    rw [if_neg Bool.false_ne_true]
    exact howing
  | true =>
    have hlt : s'.owing < s.owing := of_decide_eq_true hexchange
    rw [if_pos rfl]
    exact hlt.trans_le (Nat.le_add_right _ _)

omit [DecidableEq ι] in
/-- No more than the swing that nobody owes and the exchanges of the calls in flight. -/
theorem Inv.owing_le (hI : Inv s chain) : s.owing ≤ 2 * Fintype.card ι + 1 := by
  have hlag := hI.lag_le
  have hsum := sum_owing_le s
  rw [State.owing]
  omega

omit [Fintype ι] in
/-- Every call is counted. -/
theorem calls_of_path {ok : State ι α → Action ι α → Prop}
    {trace : List (Transition (State ι α) (Action ι α))}
    (p : (system ι α).Path ok s trace s') : s'.calls = s.calls + trace.countP isCall := by
  induction p with
  | nil => rfl
  | @snoc u u' a trace _ _ hstep ih =>
    rw [List.countP_append, List.countP_singleton, ← Nat.add_assoc, ← ih]
    rcases step_cases hstep with ⟨i, call, rfl, -, rfl⟩ | ⟨i, c, r, rfl, -, rfl⟩ |
      ⟨i, rfl, -, rfl⟩
    · cases call <;> rfl
    · rfl
    · rfl

/-- The step of an account within the budget. -/
theorem account_of_step (hs : (system ι α).Reachable s) (hb : s.calls < sizeT)
    (h : step s a = some s') :
    (s'.owing ≤ s.owing + if isCall ⟨s, a, s'⟩ then 2 else 0) ∧
      (∑ i, (s'.pc i).idling + (if isCall ⟨s, a, s'⟩ then 1 else 0) ≤
        ∑ i, (s.pc i).idling + if isReturn ⟨s, a, s'⟩ then 1 else 0) ∧
      (isBurst ⟨s, a, s'⟩ = false → s'.cost < s.cost) := by
  obtain ⟨chain, hI⟩ := inv_of_reachable hs hb
  exact hI.account hb h

omit [Fintype ι] in
/-- The states of a run are reachable and within the budget. -/
theorem path_within {trace : List (Transition (State ι α) (Action ι α))}
    (hs : (system ι α).Reachable s) (p : (system ι α).Path (fun _ _ => True) s trace s')
    (hb : s'.calls < sizeT) :
    (system ι α).Path (fun u _ => (True ∧ (system ι α).Reachable u) ∧ u.calls < sizeT)
      s trace s' :=
  ((p.with_invariant (J := (system ι α).Reachable) hs
    fun _ _ _ hu _ hstep => .next hu trivial hstep).1).within (B := fun u => u.calls < sizeT)
      (fun _ _ _ hstep hlt => lt_of_le_of_lt (calls_le_of_step hstep) hlt) hb

/-- The steps of a run, by its calls. -/
theorem length_le_of_calls {trace : List (Transition (State ι α) (Action ι α))}
    (hs : (system ι α).Reachable s) (p : (system ι α).Path (fun _ _ => True) s trace s')
    (hb : s'.calls < sizeT) :
    trace.length ≤ (3 * trace.countP isCall + trace.countP isSpurious +
      2 * Fintype.card ι + 2) * (13 * Fintype.card ι + 1) := by
  have hpath := path_within hs p hb
  have hlength := hpath.length_add_le_of_bursts State.cost isBurst (13 * Fintype.card ι)
    (fun _ _ u' _ _ => u'.cost_le) fun u a u' hok hstep =>
      (account_of_step hok.1.2 hok.2 hstep).2.2
  have hexchange := hpath.countP_add_le State.owing isExchange isCall 2
    fun u a u' hok hstep => owing_add_le (account_of_step hok.1.2 hok.2 hstep).1
  have howing : s.owing ≤ 2 * Fintype.card ι + 1 := by
    have hcalls := calls_of_path p
    obtain ⟨chain, hI⟩ := inv_of_reachable hs (by omega)
    exact hI.owing_le
  have hcost := s.cost_le
  have hbursts : trace.countP isBurst + 1 ≤ 3 * trace.countP isCall +
      trace.countP isSpurious + 2 * Fintype.card ι + 2 := by
    have hburst : trace.countP isBurst ≤
        trace.countP isExchange + (trace.countP isCall + trace.countP isSpurious) :=
      (countP_or_le isExchange (fun t => isCall t || isSpurious t) trace).trans
        (Nat.add_le_add_left (countP_or_le isCall isSpurious trace) _)
    omega
  calc trace.length ≤ 13 * Fintype.card ι + trace.countP isBurst * (13 * Fintype.card ι + 1) := by
        omega
    _ ≤ (trace.countP isBurst + 1) * (13 * Fintype.card ι + 1) := by
        rw [Nat.add_mul, Nat.one_mul]
        omega
    _ ≤ _ := Nat.mul_le_mul_right _ hbursts

/-- **The list is lock-free.**  A run from any reachable state has no more steps than its returns
and spurious failures pay for. -/
theorem list_lockFree (s s' : State ι α) (trace : List (Transition (State ι α) (Action ι α)))
    (hs : (system ι α).Reachable s) (p : (system ι α).Path (fun _ _ => True) s trace s')
    (hb : s'.calls < sizeT) :
    trace.length ≤ (3 * trace.countP isReturn + trace.countP isSpurious +
      5 * Fintype.card ι + 2) * (13 * Fintype.card ι + 1) := by
  have hcall := (path_within hs p hb).countP_add_le (fun u => ∑ i, (u.pc i).idling) isCall
    isReturn 1 fun u a u' hok hstep => (account_of_step hok.1.2 hok.2 hstep).2.1
  have hidling := sum_idling_le s
  refine (length_le_of_calls hs p hb).trans (Nat.mul_le_mul_right _ ?_)
  omega

theorem list_lockFree_beforeLink :
    let trace := (system (Fin 2) ℕ).traceOf emptyOfTwo beforeLink
    (trace.length = 8 ∧ trace.countP isReturn = 0) ∧
      trace.length ≤ (3 * trace.countP isReturn + trace.countP isSpurious +
        5 * Fintype.card (Fin 2) + 2) * (13 * Fintype.card (Fin 2) + 1) :=
  ⟨by decide, list_lockFree emptyOfTwo ((system (Fin 2) ℕ).replay emptyOfTwo beforeLink) _
    (.start ⟨0, rfl, rfl, rfl, rfl, rfl, fun _ => rfl, rfl⟩)
    (TransitionSystem.Path.replay beforeLink (by decide)) (by decide)⟩

end LockFreeQueue
end ThreadUtils
