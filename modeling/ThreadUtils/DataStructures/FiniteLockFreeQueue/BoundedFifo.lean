import ThreadUtils.DataStructures.FiniteLockFreeQueue.Sequential
import ThreadUtils.DataStructures.LockQueue

/-!
# A single thread at the bounded queue

The ring that one thread uses alone, whatever capacity its static assertion admits.  The list
it stands for is `Mem.contents`, and `QueueCall.onBounded` says what a call does to a list of at
most `size` elements and what it answers.

## One slot

In a ring of one slot the sequence number that says that the element is ready is also the one
that says that the slot is free for the next push: the number of a slot that was written is its
ticket plus one, and the next ticket of the same slot is a lap further, which is one as well.  The
static assertion admits `SIZE == 1`, and a push into the full ring writes over the element and
answers true (`Ring.overrun`).

## From one call to sequences of calls

`CallAt` says what the thread has done of its call at each program counter, and `Follows` that all
calls before it were answered as on the list.  A step keeps `Follows` if the push in question has
room or there are two slots (`Follows.of_step`).  The condition is on the call and the list, so it
extends to sequences (`Admits`), and a push that overruns is the only call that breaks it.

The answers would be worth little if a call could run for ever, so `Returns` is part of the result:
a call that has not returned can make a step, and it has a bounded number of steps but for the
exchanges that fail spuriously.

* `boundedFifo_iff` --- the calls of a thread return, and have the effects and the answers that
  they have on the list, exactly when there are two slots or no push finds the ring full.
-/

namespace ThreadUtils

/-- What a call of `push` or `pop` answers. -/
inductive QueueReply (α : Type*) where
  | push (ok : Bool)
  | pop (result : Option α)
  deriving DecidableEq

/-- A call on a list of at most `size` elements, and its answer. -/
def QueueCall.onBounded {α : Type*} (size : ℕ) (l : List α) :
    QueueCall α → List α × QueueReply α
  | .push value => if l.length = size then (l, .push false) else (l ++ [value], .push true)
  | .pop => (l.tail, .pop l.head?)

namespace BoundedQueue

variable {α : Type*} (size : ℕ)

/-- The elements after a sequence of calls. -/
def after (calls : List (QueueCall α)) : List α :=
  calls.foldl (fun l call => (call.onBounded size l).1) []

/-- The answers to a sequence of calls. -/
def replies (l : List α) : List (QueueCall α) → List (QueueReply α)
  | [] => []
  | call :: calls => (call.onBounded size l).2 :: replies (call.onBounded size l).1 calls

/-- No push finds `size` elements. -/
def NeverFull (calls : List (QueueCall α)) : Prop :=
  ∀ before value, before ++ [.push value] <+: calls → (after size before).length < size

variable {size}

theorem after_concat (calls : List (QueueCall α)) (call : QueueCall α) :
    after size (calls ++ [call]) = (call.onBounded size (after size calls)).1 := by
  unfold after
  rw [List.foldl_append]
  rfl

theorem replies_concat (calls : List (QueueCall α)) (call : QueueCall α) :
    replies size [] (calls ++ [call]) =
      replies size [] calls ++ [(call.onBounded size (after size calls)).2] := by
  suffices hgen : ∀ l, replies size l (calls ++ [call]) = replies size l calls ++
      [(call.onBounded size (calls.foldl (fun l call => (call.onBounded size l).1) l)).2] from
    hgen []
  intro l
  induction calls generalizing l with
  | nil => rfl
  | cons first calls ih => exact congrArg ((first.onBounded size l).2 :: ·) (ih _)

end BoundedQueue

namespace FiniteLockFreeQueue

open BoundedQueue (after replies NeverFull)
open TransitionSystem (Transition)

variable {ι : Type*} {α : Type*} {R : RingSize}

/-- The elements between `head` and `tail`. -/
def Mem.contents (R : RingSize) (m : Mem α) : List α :=
  (List.range (subSizeT m.tail m.head)).map fun k => m.data (R.slot (addSizeT m.head k))

/-- The thread that makes a step. -/
def Action.thread : Action ι α → ι
  | .push i _ | .pop i | .access i _ | .ret i => i

/-- The call that a step begins. -/
def Action.call? : Action ι α → Option (QueueCall α)
  | .push _ value => some (.push value)
  | .pop _ => some .pop
  | .access _ _ | .ret _ => none

/-- The answer of a call that is about to return. -/
def Pc.reply? : Pc α → Option (QueueReply α)
  | .pushTrue _ _ => some (.push true)
  | .pushFalse _ => some (.push false)
  | .popTrue _ result => some (.pop (some result))
  | .popFalse => some (.pop none)
  | _ => none

/-- The answer that a step gives. -/
def reply? (t : Transition (State ι α) (Action ι α)) : Option (QueueReply α) :=
  match t.action with
  | .ret i => (t.source.pc i).reply?
  | _ => none

/-- The step is an exchange that fails spuriously. -/
def Action.isSpurious : Action ι α → Bool
  | .access _ spurious => spurious
  | _ => false

/-- The calls that are made in a run. -/
def callsOf (trace : List (Transition (State ι α) (Action ι α))) : List (QueueCall α) :=
  trace.filterMap fun t => t.action.call?

/-- The answers that are given in a run. -/
def repliesOf (trace : List (Transition (State ι α) (Action ι α))) : List (QueueReply α) :=
  trace.filterMap reply?

/-- The exchanges of a run that may fail spuriously. -/
def spuriousIn (trace : List (Transition (State ι α) (Action ι α))) : ℕ :=
  trace.countP fun t => t.action.isSpurious

section

variable [DecidableEq ι]

/-- A run in which only the thread `i` uses a new queue. -/
abbrev RunOf (R : RingSize) (i : ι) (trace : List (Transition (State ι α) (Action ι α)))
    (s : State ι α) : Prop :=
  ∃ s₀, IsInitial R s₀ ∧ (system ι α R).Path (fun _ a => a.thread = i) s₀ trace s

/-- The call of the thread `i` goes on, and it returns as soon as its exchanges have failed
spuriously a last time. -/
structure Returns (R : RingSize) (i : ι) (s : State ι α) : Prop where
  goes_on : s.pc i ≠ .idle →
    ∃ a s', a.thread = i ∧ a.call? = none ∧ step R s a = some s'
  bounded : ∀ trace s', (system ι α R).Path (fun _ a => a.thread = i ∧ a.call? = none) s trace s' →
    trace.length ≤ 6 + 2 * spuriousIn trace

/-- A thread that makes these calls on a new queue has a bounded queue. -/
structure BoundedFifo (R : RingSize) (i : ι) (calls : List (QueueCall α)) : Prop where
  returns : ∀ trace (s : State ι α), RunOf R i trace s → callsOf trace <+: calls → Returns R i s
  /-- Between two calls the elements and the answers so far are those of the list. -/
  fifo : ∀ trace (s : State ι α), RunOf R i trace s → callsOf trace <+: calls → s.pc i = .idle →
    s.mem.contents R = after R.size (callsOf trace) ∧
      repliesOf trace = replies R.size [] (callsOf trace)

end

/-! ## What the thread has done -/

theorem Ring.contents_eq {m : Mem α} {h : ℕ} {l : List α} (hR : Ring R m h l) :
    m.contents R = l := by
  have hsize := R.size_le
  have hle := hR.length_le
  have hcount : subSizeT m.tail m.head = l.length := by
    rw [hR.head, hR.tail, subSizeT, sizeT_eq]
    omega
  refine List.ext_getElem ?_ fun k hk hkl => ?_
  · rw [Mem.contents, List.length_map, List.length_range, hcount]
  · simp only [Mem.contents, List.getElem_map, List.getElem_range]
    rw [hR.head, addSizeT_mod, R.slot_mod]
    exact (hR.ready k hkl).2

/-- What the thread has done of its call, if it is in one. -/
def CallAt (R : RingSize) (m : Mem α) (h : ℕ) (l : List α) (pc : Pc α) :
    Option (QueueCall α) → Prop
  | none => pc = .idle ∧ Ring R m h l
  | some (.push value) => PushAt R m h l value pc ∧ (l.length < R.size ∨ 2 ≤ R.size)
  | some .pop => PopAt R m h l pc

/-- The calls but the last one, if it has not returned, have been answered as on the list. -/
def Follows (R : RingSize) (i : ι) (trace : List (Transition (State ι α) (Action ι α)))
    (s : State ι α) : Prop :=
  ∃ h done call, CallAt R s.mem h (after R.size done) (s.pc i) call ∧
    callsOf trace = done ++ call.toList ∧ repliesOf trace = replies R.size [] done

variable {i : ι} {s s' : State ι α} {trace : List (Transition (State ι α) (Action ι α))}

theorem callsOf_concat (t : Transition (State ι α) (Action ι α)) :
    callsOf (trace ++ [t]) = callsOf trace ++ t.action.call?.toList := by
  unfold callsOf
  rw [List.filterMap_append]
  cases ht : t.action.call? <;> simp [ht]

theorem repliesOf_concat (t : Transition (State ι α) (Action ι α)) :
    repliesOf (trace ++ [t]) = repliesOf trace ++ (reply? t).toList := by
  unfold repliesOf
  rw [List.filterMap_append]
  cases ht : reply? t <;> simp [ht]

/-- Whoever is in no call has come to the end of its calls. -/
theorem Follows.of_idle (hF : Follows R i trace s) (hidle : s.pc i = .idle) :
    ∃ h, Ring R s.mem h (after R.size (callsOf trace)) ∧
      repliesOf trace = replies R.size [] (callsOf trace) := by
  obtain ⟨h, done, call, hat, hcalls, hreplies⟩ := hF
  rw [hidle] at hat
  cases call with
  | none =>
    rw [Option.toList_none, List.append_nil] at hcalls
    exact ⟨h, hcalls ▸ hat.2, hcalls ▸ hreplies⟩
  | some call =>
    cases call with
    | push value => exact hat.1.elim
    | pop => exact hat.elim

/-- The call that is about to return has done what it does to the list. -/
theorem CallAt.reply {m : Mem α} {h : ℕ} {l : List α} {pc : Pc α} {call : Option (QueueCall α)}
    {reply : QueueReply α} (hat : CallAt R m h l pc call) (hreply : pc.reply? = some reply) :
    ∃ c h', call = some c ∧ (c.onBounded R.size l).2 = reply ∧
      Ring R m h' (c.onBounded R.size l).1 := by
  cases call with
  | none =>
    rw [hat.1] at hreply
    cases hreply
  | some call =>
    refine ⟨call, ?_⟩
    cases call with
    | push value =>
      obtain ⟨hP, -⟩ := hat
      cases pc with
      | pushTrue v t =>
        obtain ⟨-, hlt, hR⟩ := hP
        cases hreply
        rw [QueueCall.onBounded, if_neg hlt.ne]
        exact ⟨h, rfl, rfl, hR⟩
      | pushFalse v =>
        obtain ⟨-, hfull, hR⟩ := hP
        cases hreply
        rw [QueueCall.onBounded, if_pos hfull]
        exact ⟨h, rfl, rfl, hR⟩
      | popTrue | popFalse => exact hP.elim
      | _ => cases hreply
    | pop =>
      cases pc with
      | popTrue n result =>
        obtain ⟨hfirst, hR⟩ := hat
        cases hreply
        exact ⟨h + 1, rfl, congrArg QueueReply.pop hfirst, hR⟩
      | popFalse =>
        obtain ⟨rfl, hR⟩ := hat
        cases hreply
        exact ⟨h, rfl, rfl, hR⟩
      | pushTrue | pushFalse => exact hat.elim
      | _ => cases hreply

/-- No access goes back by more than one, and only a spurious failure goes back. -/
theorem rank_access_le {m : Mem α} {pc : Pc α} {spurious : Bool} {r : Mem α × Pc α}
    (hr : m.access R spurious pc = some r) : r.2.rank ≤ pc.rank + 1 := by
  cases pc with
  | pushLoadSeq | popLoadSeq =>
    rw [Mem.access] at hr
    split at hr
    · cases hr
      exact Nat.le_add_right 4 2
    · split at hr
      · cases hr
        exact Nat.le_add_right 1 5
      · cases hr
        exact le_rfl
  | pushCas | popCas =>
    rw [Mem.access] at hr
    split at hr
    · cases hr
      exact Nat.le_add_right 3 2
    · cases hr
      exact le_rfl
  | idle | pushTrue | pushFalse | popTrue | popFalse => cases hr
  | _ =>
    cases hr
    exact (Nat.lt_succ_self _).le.trans (Nat.le_add_right _ 1)

/-- An access of an undisturbed call. -/
theorem CallAt.access {m : Mem α} {h : ℕ} {l : List α} {pc : Pc α} {call : Option (QueueCall α)}
    {spurious : Bool} {r : Mem α × Pc α} (hat : CallAt R m h l pc call)
    (hr : m.access R spurious pc = some r) :
    CallAt R r.1 h l r.2 call ∧ (spurious = false → r.2.rank < pc.rank) := by
  cases call with
  | none =>
    rw [hat.1] at hr
    cases hr
  | some call =>
    cases call with
    | push value =>
      obtain ⟨hP, hroom⟩ := hat
      obtain ⟨hP', hrank⟩ := hP.access hroom hr
      exact ⟨⟨hP', hroom⟩, hrank⟩
    | pop => exact PopAt.access hat hr

theorem rank_of_reply {pc : Pc α} {reply : QueueReply α} (hreply : pc.reply? = some reply) :
    pc.rank = 1 := by
  cases pc with
  | pushTrue | pushFalse | popTrue | popFalse => rfl
  | _ => cases hreply

variable [DecidableEq ι]

/-- A thread begins a call when it is in none. -/
theorem idle_of_call {a : Action ι α} (h : step R s a = some s') (hcall : a.call? ≠ none) :
    s.pc a.thread = .idle := by
  cases a with
  | push j value | pop j =>
    rw [step] at h
    split at h
    · assumption
    · cases h
  | access | ret => exact absurd rfl hcall

/-- A call that returns has an answer. -/
theorem exists_reply_of_ret {j : ι} (h : step R s (.ret j) = some s') :
    ∃ reply, (s.pc j).reply? = some reply := by
  rw [step] at h
  cases hpc : s.pc j with
  | pushTrue | pushFalse | popTrue | popFalse => exact ⟨_, rfl⟩
  | _ => rw [hpc] at h; cases h

/-- **Every step of a thread that is alone**, if its push has room or there are two slots. -/
theorem Follows.of_step (hF : Follows R i trace s) {a : Action ι α} (hthread : a.thread = i)
    (hroom : ∀ value, a = .push i value →
      (after R.size (callsOf trace)).length < R.size ∨ 2 ≤ R.size)
    (h : step R s a = some s') : Follows R i (trace ++ [⟨s, a, s'⟩]) s' := by
  have hF' := hF
  obtain ⟨n, done, call, hat, hcalls, hreplies⟩ := hF
  rw [Follows, callsOf_concat, repliesOf_concat]
  cases a with
  | push j value =>
    obtain rfl : j = i := hthread
    have hidle : s.pc j = .idle := idle_of_call h (by simp [Action.call?])
    obtain rfl := eq_of_push h
    obtain ⟨n, hring, hreplies⟩ := hF'.of_idle hidle
    refine ⟨n, callsOf trace, some (.push value), ?_, rfl, ?_⟩
    · simp only [Function.update_self]
      exact ⟨⟨rfl, hring⟩, hroom value rfl⟩
    · rw [hreplies]
      exact List.append_nil _
  | pop j =>
    obtain rfl : j = i := hthread
    have hidle : s.pc j = .idle := idle_of_call h (by simp [Action.call?])
    obtain rfl := eq_of_pop h
    obtain ⟨n, hring, hreplies⟩ := hF'.of_idle hidle
    refine ⟨n, callsOf trace, some .pop, ?_, rfl, ?_⟩
    · simp only [Function.update_self]
      exact hring
    · rw [hreplies]
      exact List.append_nil _
  | access j spurious =>
    obtain rfl : j = i := hthread
    obtain ⟨r, hr, rfl⟩ := eq_of_access h
    refine ⟨n, done, call, ?_, ?_, ?_⟩
    · simp only [Function.update_self]
      exact (hat.access hr).1
    · rw [hcalls]
      exact List.append_nil _
    · rw [hreplies]
      exact List.append_nil _
  | ret j =>
    obtain rfl : j = i := hthread
    obtain ⟨reply, hreply⟩ := exists_reply_of_ret h
    obtain rfl := eq_of_ret h
    obtain ⟨c, n', rfl, hanswer, hring⟩ := hat.reply hreply
    have hstep : reply? (⟨s, .ret j, { s with pc := Function.update s.pc j .idle }⟩ :
        Transition (State ι α) (Action ι α)) = some reply := hreply
    refine ⟨n', done ++ [c], none, ?_, ?_, ?_⟩
    · simp only [Function.update_self, BoundedQueue.after_concat]
      exact ⟨rfl, hring⟩
    · rw [hcalls]
      rfl
    · rw [hstep, hreplies, BoundedQueue.replies_concat, hanswer]
      rfl

/-- A step inside a call leads to its end, unless an exchange fails spuriously. -/
theorem CallAt.of_step {h : ℕ} {l : List α} {call : Option (QueueCall α)}
    (hat : CallAt R s.mem h l (s.pc i) call) {a : Action ι α} (hthread : a.thread = i)
    (hcall : a.call? = none) (hstep : step R s a = some s') :
    (∃ h' l' call', CallAt R s'.mem h' l' (s'.pc i) call') ∧
      (s'.pc i).rank + 1 ≤ (s.pc i).rank + 2 * a.isSpurious.toNat := by
  cases a with
  | push | pop => cases hcall
  | access j spurious =>
    obtain rfl : j = i := hthread
    obtain ⟨r, hr, rfl⟩ := eq_of_access hstep
    obtain ⟨hat', hrank⟩ := hat.access hr
    simp only [Function.update_self, Action.isSpurious]
    refine ⟨⟨h, l, call, hat'⟩, ?_⟩
    cases spurious with
    | false => exact hrank rfl
    | true => exact Nat.add_le_add_right (rank_access_le hr) 1
  | ret j =>
    obtain rfl : j = i := hthread
    obtain ⟨reply, hreply⟩ := exists_reply_of_ret hstep
    obtain rfl := eq_of_ret hstep
    obtain ⟨c, h', -, -, hring⟩ := hat.reply hreply
    simp only [Function.update_self]
    exact ⟨⟨h', _, none, rfl, hring⟩, (rank_of_reply hreply).ge⟩

theorem rank_le (pc : Pc α) : pc.rank ≤ 6 := by
  cases pc <;> simp [Pc.rank]

/-- A call that has not returned goes on. -/
theorem exists_step (R : RingSize) (hidle : s.pc i ≠ .idle) :
    ∃ a s', a.thread = i ∧ a.call? = none ∧ a.isSpurious = false ∧ step R s a = some s' := by
  by_cases hrank : 1 < (s.pc i).rank
  · obtain ⟨r, hr⟩ := Option.isSome_iff_exists.mp (access_isSome (R := R) s.mem false hrank)
    exact ⟨.access i false, _, rfl, rfl, rfl, congrArg (Option.map _) hr⟩
  · suffices hret : ∃ s', step R s (.ret i) = some s' by
      obtain ⟨s', hs'⟩ := hret
      exact ⟨.ret i, s', rfl, rfl, rfl, hs'⟩
    rw [step]
    cases hpc : s.pc i with
    | idle => exact absurd hpc hidle
    | pushTrue | pushFalse | popTrue | popFalse => exact ⟨_, rfl⟩
    | _ =>
      rw [hpc] at hrank
      exact absurd hrank (by simp [Pc.rank])

/-- **A call returns.** -/
theorem CallAt.returns {h : ℕ} {l : List α} {call : Option (QueueCall α)}
    (hat : CallAt R s.mem h l (s.pc i) call) : Returns R i s := by
  constructor
  · intro hidle
    obtain ⟨a, s', hthread, hcall, -, hstep⟩ := exists_step R hidle
    exact ⟨a, s', hthread, hcall, hstep⟩
  · intro trace s' p
    obtain ⟨hle, -⟩ := p.invariant (I := fun tr u =>
        tr.length + (u.pc i).rank ≤ (s.pc i).rank + 2 * spuriousIn tr ∧
          ∃ h l call, CallAt R u.mem h l (u.pc i) call)
      ⟨by simp [spuriousIn], h, l, call, hat⟩ fun tr u a u' hI hok hstep => by
        obtain ⟨hle, n, k, c, hat⟩ := hI
        obtain ⟨hat', hrank⟩ := hat.of_step hok.1 hok.2 hstep
        refine ⟨?_, hat'⟩
        have hspurious : spuriousIn (tr ++ [(⟨u, a, u'⟩ : Transition (State ι α) (Action ι α))]) =
            spuriousIn tr + a.isSpurious.toNat := by
          rw [spuriousIn, spuriousIn, List.countP_append, List.countP_singleton]
          cases a.isSpurious <;> rfl
        rw [hspurious, List.length_append, List.length_singleton]
        omega
    have := rank_le (s.pc i)
    omega

/-- A call whose accesses keep `P` returns with `P` when no exchange fails spuriously. -/
theorem exists_return {P : Mem α → Pc α → Prop}
    (haccess : ∀ m pc r, P m pc → m.access R false pc = some r → P r.1 r.2 ∧ r.2.rank < pc.rank)
    (hidle : ∀ m, ¬ P m .idle) (hs : P s.mem (s.pc i)) :
    ∃ trace s' pc, (system ι α R).Path (fun u a => a.thread = i ∧ P u.mem (u.pc i)) s trace s' ∧
      s'.pc i = .idle ∧ callsOf trace = [] ∧ s'.calls = s.calls ∧ P s'.mem pc ∧ pc.rank = 1 := by
  induction hn : (s.pc i).rank using Nat.strong_induction_on generalizing s with
  | _ n ih =>
    have hne : s.pc i ≠ .idle := fun heq => hidle s.mem (heq ▸ hs)
    obtain ⟨a, t, hthread, hcall, hspurious, hstep⟩ := exists_step R hne
    have hfirst : (system ι α R).Path (fun u a => a.thread = i ∧ P u.mem (u.pc i)) s
        [⟨s, a, t⟩] t := .single ⟨hthread, hs⟩ hstep
    cases a with
    | push | pop => cases hcall
    | access j spurious =>
      obtain rfl : j = i := hthread
      obtain rfl : spurious = false := hspurious
      obtain ⟨r, hr, rfl⟩ := eq_of_access hstep
      obtain ⟨hP, hrank⟩ := haccess _ _ _ hs hr
      obtain ⟨trace, s', pc, p, hidle', hcalls, hcount, hP', hpc⟩ := ih _ (hn ▸ hrank)
        (s := { mem := r.1, pc := Function.update s.pc j r.2, calls := s.calls
                pushed := (record s j r.2).1, popped := (record s j r.2).2 })
        (by simpa using hP) (by simp)
      exact ⟨_, s', pc, hfirst.trans p, hidle', hcalls, hcount, hP', hpc⟩
    | ret j =>
      obtain rfl : j = i := hthread
      obtain ⟨reply, hreply⟩ := exists_reply_of_ret hstep
      obtain rfl := eq_of_ret hstep
      exact ⟨_, _, s.pc j, hfirst, Function.update_self _ _ _, rfl, rfl, hs, rank_of_reply hreply⟩

/-- A call in which no exchange fails spuriously comes to its return. -/
theorem CallAt.exists_return {h : ℕ} {l : List α} {call : Option (QueueCall α)}
    (hat : CallAt R s.mem h l (s.pc i) call) :
    ∃ trace s', (system ι α R).Path (fun _ a => a.thread = i) s trace s' ∧ s'.pc i = .idle ∧
      callsOf trace = [] := by
  cases call with
  | none => exact ⟨[], s, .nil s, hat.1, rfl⟩
  | some call =>
    have hidle : ∀ m, ¬ CallAt R m h l .idle (some call) := by
      intro m hat
      cases call with
      | push value => exact hat.1.elim
      | pop => exact hat.elim
    obtain ⟨trace, s', -, p, hidle', hcalls, -⟩ := FiniteLockFreeQueue.exists_return (R := R)
      (P := fun m pc => CallAt R m h l pc (some call))
      (fun m pc r hP hr => ⟨(hP.access hr).1, (hP.access hr).2 rfl⟩) hidle hat
    exact ⟨trace, s', p.mono fun _ _ hok => hok.1, hidle', hcalls⟩

/-! ## Sequences of calls -/

/-- Two slots, or no push finds the ring full. -/
def Admits (R : RingSize) (calls : List (QueueCall α)) : Prop :=
  2 ≤ R.size ∨ NeverFull R.size calls

omit [DecidableEq ι] in
theorem Admits.of_prefix {calls calls' : List (QueueCall α)} (h : Admits R calls)
    (hcalls : calls' <+: calls) : Admits R calls' :=
  h.imp id fun hnever before value hbefore => hnever before value (hbefore.trans hcalls)

omit [DecidableEq ι] in
/-- The last call of an admitted sequence. -/
theorem Admits.room {calls : List (QueueCall α)} {value : α}
    (h : Admits R (calls ++ [.push value])) :
    (after R.size calls).length < R.size ∨ 2 ≤ R.size :=
  h.symm.imp (fun hnever => hnever calls value (List.prefix_refl _)) id

omit [DecidableEq ι] in
theorem follows_of_initial (i : ι) (hs : IsInitial R s) : Follows R i [] s :=
  ⟨0, [], none, ⟨hs.2.2.2.1 i, ring_of_initial hs⟩, rfl, rfl⟩

/-- **A thread that is alone and makes admitted calls.** -/
theorem Follows.of_runOf (hrun : RunOf R i trace s) (hadmits : Admits R (callsOf trace)) :
    Follows R i trace s := by
  obtain ⟨s₀, hs₀, p⟩ := hrun
  revert hadmits
  refine p.invariant (I := fun tr u => Admits R (callsOf tr) → Follows R i tr u)
    (fun _ => follows_of_initial i hs₀) fun tr u a u' ih hthread hstep hadmits => ?_
  rw [callsOf_concat] at hadmits
  refine (ih (hadmits.of_prefix (List.prefix_append _ _))).of_step hthread (fun value ha => ?_)
    hstep
  subst ha
  exact hadmits.room

/-- A new queue. -/
def newQueue (x : α) : State ι α where
  mem := { sequence := id, data := fun _ => x, head := 0, tail := 0 }
  pc := fun _ => .idle
  calls := 0
  pushed := []
  popped := []

omit [DecidableEq ι] in
theorem isInitial_newQueue (R : RingSize) (x : α) : IsInitial R (newQueue x : State ι α) :=
  ⟨fun _ _ => rfl, rfl, rfl, fun _ => rfl, rfl, rfl, rfl⟩

/-- The step in which the thread `i` makes a call. -/
def callAction (i : ι) : QueueCall α → Action ι α
  | .push value => .push i value
  | .pop => .pop i

/-- A thread in no call can make one. -/
theorem exists_step_call (R : RingSize) (hidle : s.pc i = .idle) (call : QueueCall α) :
    ∃ s', step R s (callAction i call) = some s' ∧ (callAction i call).thread = i ∧
      (callAction i call).call? = some call := by
  cases call with
  | push value | pop =>
    rw [callAction, step, hidle]
    exact ⟨_, rfl, rfl, rfl⟩

/-- **Admitted calls can be made**, and they return. -/
theorem exists_runOf (i : ι) (x : α) {calls : List (QueueCall α)} (hadmits : Admits R calls) :
    ∃ trace s, RunOf R i trace s ∧ s.pc i = .idle ∧ callsOf trace = calls := by
  induction calls using List.reverseRecOn with
  | nil =>
    exact ⟨[], newQueue x, ⟨newQueue x, isInitial_newQueue R x, .nil _⟩, rfl, rfl⟩
  | append_singleton calls call ih =>
    obtain ⟨trace, s, hrun, hidle, rfl⟩ := ih (hadmits.of_prefix (List.prefix_append _ _))
    obtain ⟨t, hstep, hthread, hcall⟩ := exists_step_call R hidle call
    obtain ⟨s₀, hs₀, p⟩ := hrun
    have q := p.snoc hthread hstep
    have hcalls : callsOf (trace ++ [(⟨s, callAction i call, t⟩ : Transition _ _)]) =
        callsOf trace ++ [call] := by
      rw [callsOf_concat, hcall]
      rfl
    obtain ⟨h, done, c, hat, -⟩ := Follows.of_runOf ⟨s₀, hs₀, q⟩ (hcalls ▸ hadmits)
    obtain ⟨trace', s', q', hidle', hcalls'⟩ := hat.exists_return
    refine ⟨_, s', ⟨s₀, hs₀, q.trans q'⟩, hidle', ?_⟩
    rw [callsOf, List.filterMap_append, ← callsOf, ← callsOf, hcalls, hcalls', List.append_nil]

/-! ## A ring of one slot -/

theorem exists_access {r : Mem α × Pc α} (hr : s.mem.access R false (s.pc i) = some r) :
    ∃ s', (system ι α R).step s (.access i false) = some s' ∧ s'.mem = r.1 ∧ s'.pc i = r.2 := by
  refine ⟨_, congrArg (Option.map _) hr, rfl, ?_⟩
  exact Function.update_self i r.2 s.pc

/-- **A push into a full ring of one slot** finds the slot free and returns true. -/
theorem Ring.overrun {h : ℕ} {l : List α} (hR : Ring R s.mem h l) (hidle : s.pc i = .idle)
    (hfull : ¬ l.length < R.size) (hone : ¬ 2 ≤ R.size) (value : α) :
    ∃ trace s', (system ι α R).Path (fun _ a => a.thread = i) s trace s' ∧ s'.pc i = .idle ∧
      callsOf trace = [.push value] ∧ repliesOf trace = [.push true] := by
  have hpos := R.size_pos
  have hdiff : intptrDiff (s.mem.sequence (R.slot s.mem.tail)) s.mem.tail = 0 := by
    rw [hR.pushDiff, if_neg hfull]
    omega
  obtain ⟨s₁, h₁, -, -⟩ := exists_step_call R hidle (.push value)
  have hs₁ := eq_of_push h₁
  have hmem₁ : s₁.mem = s.mem := by rw [hs₁]
  have hpc₁ : s₁.pc i = .pushLoadTail value := by rw [hs₁]; exact Function.update_self _ _ _
  obtain ⟨s₂, h₂, hmem₂, hpc₂⟩ := exists_access (R := R) (s := s₁) (i := i)
    (r := (s.mem, .pushLoadSeq value s.mem.tail)) (by rw [hpc₁, hmem₁]; rfl)
  obtain ⟨s₃, h₃, hmem₃, hpc₃⟩ := exists_access (R := R) (s := s₂) (i := i)
    (r := (s.mem, .pushCas value s.mem.tail)) (by
      rw [hpc₂, hmem₂, Mem.access]
      exact if_pos hdiff)
  obtain ⟨s₄, h₄, hmem₄, hpc₄⟩ := exists_access (R := R) (s := s₃) (i := i)
    (r := (_, .pushWrite value s.mem.tail)) (by
      rw [hpc₃, hmem₃, Mem.access]
      exact if_pos ⟨rfl, rfl⟩)
  obtain ⟨s₅, h₅, hmem₅, hpc₅⟩ := exists_access (R := R) (s := s₄) (i := i)
    (r := (_, .pushStore value s.mem.tail)) (by rw [hpc₄, hmem₄]; rfl)
  obtain ⟨s₆, h₆, hmem₆, hpc₆⟩ := exists_access (R := R) (s := s₅) (i := i)
    (r := (_, .pushTrue value s.mem.tail)) (by rw [hpc₅, hmem₅]; rfl)
  obtain ⟨s₇, h₇⟩ : ∃ s₇, (system ι α R).step s₆ (.ret i) = some s₇ := by
    show ∃ s₇, step R s₆ (.ret i) = some s₇
    rw [step, hpc₆]
    exact ⟨_, rfl⟩
  have hfirst : (system ι α R).Path (fun _ a => a.thread = i) s [⟨s, .push i value, s₁⟩] s₁ :=
    .single rfl h₁
  refine ⟨_, s₇, (((((hfirst.snoc rfl h₂).snoc rfl h₃).snoc rfl h₄).snoc rfl h₅).snoc rfl h₆).snoc
    rfl h₇, ?_, rfl, ?_⟩
  · rw [eq_of_ret (R := R) h₇]
    exact Function.update_self _ _ _
  · have hlast : reply? (⟨s₆, .ret i, s₇⟩ : Transition (State ι α) (Action ι α)) =
        some (.push true) := congrArg Pc.reply? hpc₆
    rw [repliesOf_concat, hlast]
    rfl

/-- A thread that has a bounded queue makes admitted calls. -/
theorem BoundedFifo.admits {calls : List (QueueCall α)} (hfifo : BoundedFifo R i calls) :
    Admits R calls := by
  by_contra hadmits
  obtain ⟨hone, hfull⟩ := not_or.mp hadmits
  refine hfull fun before value hbefore => ?_
  -- the calls before the first push that finds the ring full are admitted
  induction hn : before.length using Nat.strong_induction_on generalizing before value with
  | _ n ih =>
    have hnever : NeverFull R.size before := fun before' value' hbefore' => by
      have hlen := hbefore'.length_le
      rw [List.length_append, List.length_singleton] at hlen
      exact ih before'.length (by omega) before' value'
        (hbefore'.trans ((List.prefix_append _ _).trans hbefore)) rfl
    obtain ⟨trace, s, ⟨s₀, hs₀, p⟩, hidle, rfl⟩ := exists_runOf (R := R) i value (Or.inr hnever)
    obtain ⟨h, hring, hreplies⟩ := (Follows.of_runOf ⟨s₀, hs₀, p⟩ (Or.inr hnever)).of_idle hidle
    by_contra hroom
    obtain ⟨trace', s', p', hidle', hcalls', hreplies'⟩ := hring.overrun hidle hroom hone value
    have hcalls : callsOf (trace ++ trace') = callsOf trace ++ [.push value] := by
      rw [callsOf, List.filterMap_append, ← callsOf, ← callsOf, hcalls']
    have hlast := (hfifo.fifo _ s' ⟨s₀, hs₀, p.trans p'⟩ (hcalls ▸ hbefore) hidle').2
    rw [hcalls, BoundedQueue.replies_concat, ← hreplies, repliesOf, List.filterMap_append,
      ← repliesOf, ← repliesOf, hreplies', QueueCall.onBounded,
      if_pos (le_antisymm hring.length_le (not_lt.mp hroom))] at hlast
    exact absurd (List.append_cancel_left hlast) (by simp)

/-- Admitted calls find a bounded queue. -/
theorem Admits.boundedFifo {calls : List (QueueCall α)} (hadmits : Admits R calls) (i : ι) :
    BoundedFifo R i calls := by
  have hfollows : ∀ trace (s : State ι α), RunOf R i trace s → callsOf trace <+: calls →
      Follows R i trace s := fun trace s hrun hcalls => .of_runOf hrun (hadmits.of_prefix hcalls)
  constructor
  · intro trace s hrun hcalls
    obtain ⟨h, done, call, hat, -⟩ := hfollows trace s hrun hcalls
    exact hat.returns
  · intro trace s hrun hcalls hidle
    obtain ⟨h, hring, hreplies⟩ := (hfollows trace s hrun hcalls).of_idle hidle
    exact ⟨hring.contents_eq, hreplies⟩

/-- **When the ring is a bounded queue** for a thread that uses it alone. -/
theorem boundedFifo_iff (R : RingSize) (i : ι) (calls : List (QueueCall α)) :
    BoundedFifo R i calls ↔ 2 ≤ R.size ∨ NeverFull R.size calls :=
  ⟨BoundedFifo.admits, fun h => Admits.boundedFifo h i⟩

/-- A ring of one slot. -/
def ringOfOne : RingSize := ⟨1, 0, by norm_num, rfl⟩

/-- The second push into a ring of one slot writes over the first element. -/
theorem not_boundedFifo_ringOfOne : ¬ BoundedFifo ringOfOne () [.push 7, .push 8] := by
  intro h
  rcases h.admits with hsize | hnever
  · exact absurd hsize (by decide)
  · exact absurd (hnever [.push 7] 8 (List.prefix_refl _)) (by decide)

end FiniteLockFreeQueue
end ThreadUtils
