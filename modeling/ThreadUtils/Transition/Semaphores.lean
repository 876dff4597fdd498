import Mathlib.Algebra.Order.Group.Nat
import Mathlib.Algebra.Order.Pi
import Mathlib.Algebra.Order.Ring.Nat
import ThreadUtils.Transition.Balance

/-!
# The counters of semaphores

A step of a thread releases permits or acquires one, and never both.  So a counter holds what
the run has released and nobody has acquired yet, and how far it grows is decided by the whole
run: nothing about one state bounds it.

* `within_iff_covered` --- a run keeps the counters below a maximum if and only if, at each of
  its instants, the permits released so far exceed those acquired so far by that maximum at most.
* `safeWithin_iff` --- when only the number of released permits is known, and not what the
  acquiring threads do meanwhile, a budget is safe if and only if it is the maximum at most.

The counters have values in an ordered commutative monoid `M`: a number for one semaphore, and
a function for a family of them.
-/

namespace ThreadUtils
namespace TransitionSystem

variable {σ α M K : Type*} {T : TransitionSystem σ α}

/-- The semaphores of a system, with what each step releases and acquires. -/
structure Semaphores (T : TransitionSystem σ α) (M : Type*) [AddCommMonoid M] where
  counter : σ → M
  released : σ → α → M
  acquired : σ → α → M
  counter_init : ∀ s, T.init s → counter s = 0
  counter_step : ∀ s a s', T.step s a = some s' →
    (acquired s a = 0 ∧ counter s' = counter s + released s a) ∨
      (released s a = 0 ∧ counter s' + acquired s a = counter s)

namespace Semaphores

section Balance

variable [AddCommMonoid M] (S : Semaphores T M)

/-- The permits that the steps of a run release. -/
def totalReleased (trace : List (Transition σ α)) : M :=
  total (fun t => S.released t.source t.action) trace

/-- The permits that the steps of a run acquire. -/
def totalAcquired (trace : List (Transition σ α)) : M :=
  total (fun t => S.acquired t.source t.action) trace

variable {S} {ok : σ → α → Prop} {s s' : σ} {trace : List (Transition σ α)}

/-- What was released has been acquired, or the counters hold it. -/
theorem totalAcquired_add_counter (p : T.Path ok s trace s') (hs : T.init s) :
    S.totalAcquired trace + S.counter s' = S.totalReleased trace := by
  refine p.balance _ _ S.counter (S.counter_init s hs) fun u a u' _ h => ?_
  rcases S.counter_step u a u' h with ⟨hacq, hcount⟩ | ⟨hrel, hcount⟩
  · rw [hacq, zero_add, hcount, add_comm]
  · rw [hrel, zero_add, ← hcount, add_comm]

/-- When nobody acquires a permit, the counters hold all that were released. -/
theorem counter_eq_totalReleased (p : T.Path ok s trace s') (hs : T.init s)
    (hidle : ∀ u a, ok u a → S.acquired u a = 0) : S.counter s' = S.totalReleased trace := by
  have hzero : S.totalAcquired trace = 0 := by
    refine List.sum_eq_zero fun x hx => ?_
    obtain ⟨t, ht, rfl⟩ := List.mem_map.mp hx
    exact hidle _ _ (p.ok_of_mem ht)
  rw [← totalAcquired_add_counter p hs, hzero, zero_add]

/-- A round that can be repeated adds its permits to the counters each time. -/
theorem exists_path_nsmul {R : σ → Prop} {b : M}
    (hround : ∀ u, R u →
      ∃ trace u', T.Path ok u trace u' ∧ R u' ∧ S.counter u' = S.counter u + b)
    (n : ℕ) (hs : R s) :
    ∃ trace s', T.Path ok s trace s' ∧ R s' ∧ S.counter s' = S.counter s + n • b := by
  induction n with
  | zero => exact ⟨[], s, .nil s, hs, by rw [zero_nsmul, add_zero]⟩
  | succ n ih =>
    obtain ⟨trace, u, p, hu, hcount⟩ := ih
    obtain ⟨trace', u', q, hu', hcount'⟩ := hround u hu
    refine ⟨trace ++ trace', u', p.trans q, hu', ?_⟩
    rw [hcount', hcount, succ_nsmul, add_assoc]

end Balance

section Maximum

variable [AddCommMonoid M] [PartialOrder M] (S : Semaphores T M)

/-- The precondition of every `release` of a run, for the maximum `m`, and what it is for: the
counters do not exceed `m`. -/
def Within (m : M) (trace : List (Transition σ α)) : Prop :=
  ∀ t ∈ trace, S.counter t.source + S.released t.source t.action ≤ m ∧ S.counter t.target ≤ m

/-- At each instant of a run, the permits released so far exceed those acquired so far by `m`
at most. -/
def Covered (m : M) (trace : List (Transition σ α)) : Prop :=
  ∀ pre, pre <+: trace → S.totalReleased pre ≤ S.totalAcquired pre + m

/-- The runs that release no more than `b` permits keep the counters within `m`, whatever the
acquiring threads do. -/
def SafeWithin (m b : M) : Prop :=
  ∀ s trace s', T.init s → T.Path (fun _ _ => True) s trace s' →
    S.totalReleased trace ≤ b → S.Within m trace

variable [IsOrderedCancelAddMonoid M] [CanonicallyOrderedAdd M] {S} {ok : σ → α → Prop}
  {s s' : σ} {trace : List (Transition σ α)} {m b : M}

omit [CanonicallyOrderedAdd M] in
/-- A counter is the surplus of the permits released over those acquired. -/
theorem counter_le_iff (p : T.Path ok s trace s') (hs : T.init s) :
    S.counter s' ≤ m ↔ S.totalReleased trace ≤ S.totalAcquired trace + m := by
  rw [← totalAcquired_add_counter p hs, add_le_add_iff_left]

/-- **The exact condition on a run.** -/
theorem within_iff_covered (p : T.Path ok s trace s') (hs : T.init s) :
    S.Within m trace ↔ S.Covered m trace := by
  induction p with
  | nil =>
    refine ⟨fun _ pre hpre => ?_, fun _ t ht => absurd ht List.not_mem_nil⟩
    rw [List.prefix_nil.mp hpre]
    exact zero_le
  | snoc q hok hst ih =>
    rename_i u u' a trace
    have hlast := counter_le_iff (S := S) (m := m) (q.snoc hok hst) hs
    constructor
    · intro hW pre hpre
      rcases List.prefix_concat_iff.mp hpre with rfl | hpre'
      · exact hlast.mp (hW ⟨u, a, u'⟩ (by simp)).2
      · exact ih.mp (fun t ht => hW t (List.mem_append_left _ ht)) pre hpre'
    · intro hC
      have hC' : S.Covered m trace := fun pre hpre => hC pre (hpre.trans (List.prefix_append _ _))
      have htarget : S.counter u' ≤ m := hlast.mpr (hC _ List.prefix_rfl)
      refine List.forall_mem_append.mpr ⟨ih.mpr hC', List.forall_mem_singleton.mpr
        ⟨?_, htarget⟩⟩
      rcases S.counter_step u a u' hst with ⟨-, hcount⟩ | ⟨hrel, -⟩
      · exact hcount ▸ htarget
      · rw [hrel, add_zero]
        exact (counter_le_iff q hs).mpr (hC' _ List.prefix_rfl)

omit [IsOrderedCancelAddMonoid M] in
/-- A run within the budget `m` is covered, even if nobody acquires a permit. -/
theorem covered_of_totalReleased_le (h : S.totalReleased trace ≤ m) : S.Covered m trace := by
  rintro pre ⟨rest, rfl⟩
  calc S.totalReleased pre
      ≤ S.totalReleased pre + S.totalReleased rest := le_self_add
    _ = S.totalReleased (pre ++ rest) := (total_append _ _ _).symm
    _ ≤ m := h
    _ ≤ S.totalAcquired pre + m := le_add_self

/-- **The exact budget**, where more than `m` permits of a larger one can be released before
anybody acquires a permit. -/
theorem safeWithin_iff (hreach : ¬ b ≤ m → ∃ s trace s', T.init s ∧
      T.Path (fun u a => S.acquired u a = 0) s trace s' ∧ S.counter s' ≤ b ∧ ¬ S.counter s' ≤ m) :
    S.SafeWithin m b ↔ b ≤ m := by
  refine ⟨fun hsafe => ?_, fun hle s trace s' hs p hb =>
    (within_iff_covered p hs).mpr (covered_of_totalReleased_le (hb.trans hle))⟩
  by_contra hlt
  obtain ⟨s, trace, s', hs, p, hb, hover⟩ := hreach hlt
  rw [counter_eq_totalReleased p hs fun _ _ h => h] at hb
  have hcov := (within_iff_covered p hs).mp
    (hsafe s trace s' hs (p.mono fun _ _ _ => trivial) hb)
  exact hover ((counter_le_iff p hs).mpr (hcov trace List.prefix_rfl))

end Maximum

section Family

variable {S : Semaphores T (K → ℕ)} {ok : σ → α → Prop} {s s' : σ}
  {trace : List (Transition σ α)} {n : ℕ}

/-- A run of steps that release a permit to each semaphore at most and acquire none: a counter
that grows to `n` does not jump over it, and the first one to get there gets there first. -/
theorem exists_path_counter_eq (p : T.Path ok s trace s') (hs : T.init s)
    (hone : ∀ u a, ok u a → S.acquired u a = 0 ∧ ∀ k, S.released u a k ≤ 1) {k : K}
    (hk : n ≤ S.counter s' k) : ∃ trace' u, T.Path ok s trace' u ∧
      (S.counter u ≤ fun _ => n) ∧ ∃ k, S.counter u k = n := by
  -- as long as no counter has reached `n`, all of them are below it
  have hor : (∀ k, S.counter s' k < n) ∨ ∃ trace' u, T.Path ok s trace' u ∧
      (S.counter u ≤ fun _ => n) ∧ ∃ k, S.counter u k = n := by
    clear hk
    induction p with
    | nil =>
      have hzero : ∀ k, S.counter s k = 0 := fun k => congrFun (S.counter_init s hs) k
      rcases Nat.eq_zero_or_pos n with rfl | hn
      · exact Or.inr ⟨[], s, .nil s, fun j => (hzero j).le, k, hzero k⟩
      · exact Or.inl fun k => (hzero k).trans_lt hn
    | snoc q hok hst ih =>
      rename_i u u' a trace
      rcases ih with hlt | hdone
      · have hle : ∀ k, S.counter u' k ≤ n := by
          intro k
          have hcount : S.counter u' k ≤ S.counter u k + 1 := by
            rcases S.counter_step u a u' hst with ⟨-, h⟩ | ⟨-, h⟩
            · rw [h]
              exact Nat.add_le_add_left ((hone u a hok).2 k) _
            · rw [← h]
              exact (Nat.le_add_right _ _).trans (Nat.le_succ _)
          exact hcount.trans (hlt k)
        by_cases hall : ∀ k, S.counter u' k < n
        · exact Or.inl hall
        · push Not at hall
          obtain ⟨j, hj⟩ := hall
          exact Or.inr ⟨_, u', q.snoc hok hst, hle, j, (hle j).antisymm hj⟩
      · exact Or.inr hdone
  exact hor.resolve_left fun h => absurd hk (Nat.not_le.mpr (h k))

end Family

/-- A family of counters, at one of which permits are released. -/
theorem update_add [DecidableEq K] (f : K → ℕ) (k : K) (n : ℕ) :
    Function.update f k (f k + n) = f + Pi.single k n := by
  ext j
  by_cases hj : j = k
  · subst hj
    simp
  · simp [hj]

/-- A family of counters, at one of which a permit is acquired. -/
theorem update_sub_add [DecidableEq K] {f : K → ℕ} {k : K} (h : 0 < f k) :
    Function.update f k (f k - 1) + Pi.single k 1 = f := by
  ext j
  by_cases hj : j = k
  · subst hj
    rw [Pi.add_apply, Function.update_self, Pi.single_eq_same]
    exact Nat.sub_add_cancel h
  · simp [hj]

end Semaphores
end TransitionSystem
end ThreadUtils
