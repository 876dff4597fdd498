import Mathlib.Algebra.Order.Ring.Nat
import ThreadUtils.DataStructures.LockQueue

/-!
# Two lists behind one queue

The elements of the queue are in two lists, a bounded one that is tried first and an
overflow list.  While nothing overtakes, the elements in order are those of the bounded list
and then those of the overflow list.  A push that finds room in the bounded list although the
overflow list has elements puts its element before older ones.  This is seen as soon as the
elements that were before it are gone: `fifoOrder` says when it is not.

## When overtaking is not seen

Overtaking as such does no harm.  The element that has overtaken comes out after those that were in
the bounded list before it, and up to then the results are right.  `fifoOrder` walks through the
calls with the two lengths.  At the first push that overtakes the answer is known: it counts the
pops that are still to come and compares them with the length of the bounded list.  Later pushes do
not matter for those pops.

If there is one pop too many, it returns the element that has overtaken, where the single list
returns an older one.  The results differ only if the values do, so the second result chooses them:
all values are the same but the one of the push that overtakes.

* `Buffers.results_eq` --- in that case the results are those of a single list.
* `Buffers.exists_results_ne` --- otherwise they are not, for some values.
-/

namespace ThreadUtils
namespace FiniteOverflowQueue

variable {α : Type*}

/-- The elements of the ring and those of the overflow queue. -/
structure Buffers (α : Type*) where
  finite : List α
  overflow : List α

namespace Buffers

/-- A push, with a ring of the capacity `size`. -/
def push (size : ℕ) (b : Buffers α) (value : α) : Buffers α :=
  if b.finite.length < size then { b with finite := b.finite ++ [value] }
  else { b with overflow := b.overflow ++ [value] }

/-- A pop. -/
def pop (b : Buffers α) : Option α × Buffers α :=
  match b.finite, b.overflow with
  | value :: finite, _ => (some value, { b with finite := finite })
  | [], value :: overflow => (some value, { b with overflow := overflow })
  | [], [] => (none, b)

/-- What a sequence of calls leaves. -/
def after (size : ℕ) (b : Buffers α) : List (QueueCall α) → Buffers α
  | [] => b
  | .push value :: calls => (b.push size value).after size calls
  | .pop :: calls => b.pop.2.after size calls

/-- What the pops of a sequence of calls return. -/
def results (size : ℕ) (b : Buffers α) : List (QueueCall α) → List (Option α)
  | [] => []
  | .push value :: calls => (b.push size value).results size calls
  | .pop :: calls => b.pop.1 :: b.pop.2.results size calls

/-- The number of elements that a sequence of calls takes from the ring. -/
def taken (size : ℕ) (b : Buffers α) : List (QueueCall α) → ℕ
  | [] => 0
  | .push value :: calls => (b.push size value).taken size calls
  | .pop :: calls => min 1 b.finite.length + b.pop.2.taken size calls

variable {size : ℕ}

theorem taken_append (b : Buffers α) (calls calls' : List (QueueCall α)) :
    b.taken size (calls ++ calls') =
      b.taken size calls + (b.after size calls).taken size calls' := by
  induction calls generalizing b with
  | nil => exact (Nat.zero_add _).symm
  | cons call calls ih =>
    cases call with
    | push value => exact ih _
    | pop => exact (congrArg (min 1 b.finite.length + ·) (ih _)).trans (Nat.add_assoc _ _ _).symm

theorem after_append (b : Buffers α) (calls calls' : List (QueueCall α)) :
    b.after size (calls ++ calls') = (b.after size calls).after size calls' := by
  induction calls generalizing b with
  | nil => rfl
  | cons call calls ih => cases call <;> exact ih _

theorem results_append (b : Buffers α) (calls calls' : List (QueueCall α)) :
    b.results size (calls ++ calls') =
      b.results size calls ++ (b.after size calls).results size calls' := by
  induction calls generalizing b with
  | nil => rfl
  | cons call calls ih =>
    cases call with
    | push value => exact ih _
    | pop => exact congrArg (b.pop.1 :: ·) (ih _)

end Buffers

/-- No pop comes to an element that has overtaken another one.  `n` elements are in the ring
and `k` in the overflow queue; the first push that finds room in the ring and elements in
the overflow queue is followed by as many pops at most as there were elements in the ring. -/
def fifoOrder (size : ℕ) : ℕ → ℕ → List QueueCallKind → Bool
  | _, _, [] => true
  | n, k, .push :: kinds =>
      if n < size then
        if k = 0 then fifoOrder size (n + 1) 0 kinds else decide (kinds.count .pop ≤ n)
      else fifoOrder size n (k + 1) kinds
  | n, k, .pop :: kinds =>
      if 0 < n then fifoOrder size (n - 1) k kinds else fifoOrder size 0 (k - 1) kinds

variable {size : ℕ}

theorem count_pop_map_kind_push (calls : List (QueueCall α)) (value : α) :
    ((QueueCall.push value :: calls).map QueueCall.kind).count .pop =
      (calls.map QueueCall.kind).count .pop :=
  List.count_cons_of_ne (by simp [QueueCall.kind])

theorem count_pop_map_kind_pop (calls : List (QueueCall α)) :
    ((QueueCall.pop :: calls).map QueueCall.kind).count .pop =
      (calls.map QueueCall.kind).count .pop + 1 :=
  List.count_cons_self

/-- The elements before an element that overtakes come out in order. -/
theorem Buffers.results_of_count_le (calls : List (QueueCall α)) (first rest overflow data : List α)
    (hpops : (calls.map QueueCall.kind).count .pop ≤ first.length) :
    Buffers.results size ⟨first ++ rest, overflow⟩ calls =
      LockQueue.results (first ++ data) calls := by
  induction calls generalizing first rest overflow data with
  | nil => rfl
  | cons call calls ih =>
    cases call with
    | push value =>
      rw [count_pop_map_kind_push] at hpops
      rw [LockQueue.results, LockQueue.push, List.append_assoc, Buffers.results, Buffers.push]
      split
      · dsimp only
        rw [List.append_assoc]
        exact ih first _ _ _ hpops
      · exact ih first _ _ _ hpops
    | pop =>
      rw [count_pop_map_kind_pop] at hpops
      cases first with
      | nil => exact absurd hpops (by simp)
      | cons a first => exact congrArg (some a :: ·) (ih first _ _ _ (Nat.le_of_succ_le_succ hpops))

/-- The element that has overtaken comes out instead of an older one. -/
theorem Buffers.results_ne_of_lt_count (calls : List (QueueCall α))
    (first rest overflow data : List α) {x y : α} (hxy : x ≠ y)
    (hpops : first.length < (calls.map QueueCall.kind).count .pop) :
    Buffers.results size ⟨first ++ x :: rest, overflow⟩ calls ≠
      LockQueue.results (first ++ y :: data) calls := by
  induction calls generalizing first rest overflow data with
  | nil => exact absurd hpops (by simp)
  | cons call calls ih =>
    cases call with
    | push value =>
      rw [count_pop_map_kind_push] at hpops
      rw [LockQueue.results, LockQueue.push, List.append_assoc, Buffers.results, Buffers.push]
      split
      · dsimp only
        rw [List.append_assoc]
        exact ih first _ _ _ hpops
      · exact ih first _ _ _ hpops
    | pop =>
      rw [count_pop_map_kind_pop] at hpops
      cases first with
      | nil =>
        intro heq
        exact hxy (Option.some.inj (List.cons.inj heq).1)
      | cons a first =>
        intro heq
        exact ih first rest overflow data (Nat.lt_of_succ_lt_succ hpops) (List.cons.inj heq).2

/-- **The results are those of one list** when no pop comes to an element that has
overtaken. -/
theorem Buffers.results_eq (calls : List (QueueCall α)) (b : Buffers α)
    (h : fifoOrder size b.finite.length b.overflow.length (calls.map QueueCall.kind) = true) :
    b.results size calls = LockQueue.results (b.finite ++ b.overflow) calls := by
  induction calls generalizing b with
  | nil => rfl
  | cons call calls ih =>
    obtain ⟨finite, overflow⟩ := b
    cases call with
    | push value =>
      rw [List.map_cons, QueueCall.kind, fifoOrder] at h
      rw [LockQueue.results, LockQueue.push, Buffers.results, Buffers.push]
      split at h
      · next hroom =>
        rw [if_pos hroom]
        split at h
        · next hempty =>
          obtain rfl := List.length_eq_zero_iff.mp hempty
          dsimp only
          rw [List.append_nil]
          refine (ih ⟨finite ++ [value], []⟩ ?_).trans (by rw [List.append_nil])
          rw [List.length_append]
          exact h
        · dsimp only
          rw [List.append_assoc]
          exact Buffers.results_of_count_le calls finite _ _ _ (of_decide_eq_true h)
      · next hfull =>
        rw [if_neg hfull]
        dsimp only
        rw [List.append_assoc]
        refine ih ⟨finite, overflow ++ [value]⟩ ?_
        rw [List.length_append]
        exact h
    | pop =>
      rw [List.map_cons, QueueCall.kind, fifoOrder] at h
      cases finite with
      | cons a finite =>
        dsimp only [List.length_cons] at h
        rw [if_pos (Nat.succ_pos _)] at h
        exact congrArg (some a :: ·) (ih ⟨finite, overflow⟩ h)
      | nil =>
        dsimp only [List.length_nil] at h
        rw [if_neg (lt_irrefl 0)] at h
        cases overflow with
        | nil => exact congrArg (none :: ·) (ih ⟨[], []⟩ h)
        | cons a overflow => exact congrArg (some a :: ·) (ih ⟨[], overflow⟩ h)

/-- Calls of given kinds, with one value. -/
def constantCalls (a : α) (kinds : List QueueCallKind) : List (QueueCall α) :=
  kinds.map fun
    | .push => .push a
    | .pop => .pop

theorem map_kind_constantCalls (a : α) (kinds : List QueueCallKind) :
    (constantCalls a kinds).map QueueCall.kind = kinds := by
  rw [constantCalls, List.map_map]
  refine (List.map_congr_left fun kind _ => ?_).trans (List.map_id kinds)
  cases kind <;> rfl

/-- **The results are not those of one list** otherwise: when all values but that of the
push that overtakes are the same, its element is told from the others. -/
theorem Buffers.exists_results_ne {a b : α} (hab : a ≠ b) (kinds : List QueueCallKind) (n k : ℕ)
    (h : fifoOrder size n k kinds = false) :
    ∃ calls : List (QueueCall α), calls.map QueueCall.kind = kinds ∧
      Buffers.results size ⟨List.replicate n a, List.replicate k a⟩ calls ≠
        LockQueue.results (List.replicate n a ++ List.replicate k a) calls := by
  induction kinds generalizing n k with
  | nil => exact absurd h (by simp [fifoOrder])
  | cons kind kinds ih =>
    cases kind with
    | push =>
      unfold fifoOrder at h
      split at h
      · next hroom =>
        have hroom' : (List.replicate n a).length < size := by rwa [List.length_replicate]
        split at h
        · next hempty =>
          subst hempty
          obtain ⟨calls, hkinds, hne⟩ := ih (n + 1) 0 h
          refine ⟨.push a :: calls, congrArg (_ :: ·) hkinds, ?_⟩
          rw [LockQueue.results, LockQueue.push, Buffers.results, Buffers.push, if_pos hroom']
          rw [List.replicate_succ'] at hne
          simpa using hne
        · next hne =>
          -- this push overtakes
          obtain ⟨j, rfl⟩ := Nat.exists_eq_succ_of_ne_zero hne
          refine ⟨.push b :: constantCalls a kinds,
            congrArg (_ :: ·) (map_kind_constantCalls a kinds), ?_⟩
          rw [LockQueue.results, LockQueue.push, Buffers.results, Buffers.push, if_pos hroom',
            List.append_assoc, List.replicate_succ, List.cons_append]
          refine Buffers.results_ne_of_lt_count _ _ _ _ _ (Ne.symm hab) ?_
          rw [map_kind_constantCalls, List.length_replicate]
          exact not_le.mp (of_decide_eq_false h)
      · next hfull =>
        have hfull' : ¬ (List.replicate n a).length < size := by rwa [List.length_replicate]
        obtain ⟨calls, hkinds, hne⟩ := ih n (k + 1) h
        refine ⟨.push a :: calls, congrArg (_ :: ·) hkinds, ?_⟩
        rw [LockQueue.results, LockQueue.push, Buffers.results, Buffers.push, if_neg hfull',
          List.append_assoc]
        rwa [List.replicate_succ'] at hne
    | pop =>
      unfold fifoOrder at h
      split at h
      · next hpos =>
        obtain ⟨j, rfl⟩ := Nat.exists_eq_succ_of_ne_zero hpos.ne'
        obtain ⟨calls, hkinds, hne⟩ := ih j k h
        refine ⟨.pop :: calls, congrArg (_ :: ·) hkinds, fun heq => hne ?_⟩
        exact (List.cons.inj heq).2
      · next hzero =>
        obtain rfl : n = 0 := by omega
        obtain ⟨calls, hkinds, hne⟩ := ih 0 (k - 1) h
        refine ⟨.pop :: calls, congrArg (_ :: ·) hkinds, fun heq => hne ?_⟩
        cases k with
        | zero => exact (List.cons.inj heq).2
        | succ k => exact (List.cons.inj heq).2

/-- **When the two lists are one queue**, whatever the values. -/
theorem Buffers.forall_results_eq_iff [Nontrivial α] (size : ℕ) (kinds : List QueueCallKind) :
    (∀ calls : List (QueueCall α), calls.map QueueCall.kind = kinds →
      Buffers.results size ⟨[], []⟩ calls = LockQueue.results [] calls) ↔
      fifoOrder size 0 0 kinds = true := by
  constructor
  · intro h
    by_contra hne
    obtain ⟨a, b, hab⟩ := exists_pair_ne α
    obtain ⟨calls, hkinds, hresults⟩ :=
      Buffers.exists_results_ne hab kinds 0 0 (Bool.eq_false_iff.mpr hne)
    exact hresults (h calls hkinds)
  · rintro h calls rfl
    exact Buffers.results_eq calls ⟨[], []⟩ h

end FiniteOverflowQueue
end ThreadUtils
