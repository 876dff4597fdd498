import Mathlib.Algebra.BigOperators.Group.Finset.Basic
import Mathlib.Algebra.Order.BigOperators.Group.Finset
import Mathlib.Data.Fintype.BigOperators
import Mathlib.Tactic.Abel

/-!
# Tables over the threads of a system

Counters that many threads maintain together are explained by a sum over the
threads of what each of them still owes.  One step changes one entry of the
table of program counters, so every such invariant is carried by one lemma: how
a sum changes under `Function.update`.

The exchange law is stated without subtraction, as an equation of two sums: the new sum with the
old share is the old sum with the new share.  So it holds in every commutative monoid that cancels,
and with natural numbers what is left is an equation that `omega` can use.

* `forall_update`: a property of all entries survives the update of one.
* `sum_update_exchange`, `sum_exchange`: the exchange law, without subtraction.
* `le_sum_apply`, `sum_eq_zero_iff_forall`: reading a sum at one thread.
-/

namespace ThreadUtils

universe u v w

variable {ι : Type u} {β : Type v} {M : Type w}

/-- A property of the entries of a table survives the update of one entry. -/
theorem forall_update [DecidableEq ι] {P : ι → β → Prop} {f : ι → β} {i : ι} {b : β}
    (hf : ∀ j, P j (f j)) (hb : P i b) : ∀ j, P j (Function.update f i b j) :=
  (Function.forall_update_iff f fun j x => P j x).mpr ⟨hb, fun j _ => hf j⟩

theorem le_update_add [DecidableEq ι] (f : ι → ℕ) (i : ι) (n : ℕ) (j : ι) :
    f j ≤ Function.update f i (f i + n) j := by
  by_cases h : j = i
  · subst h
    rw [Function.update_self]
    exact Nat.le_add_right _ _
  · rw [Function.update_of_ne h]

variable [Fintype ι]

/-- **The exchange law**, for a share that also depends on the index. -/
theorem sum_update_exchange_index [DecidableEq ι] [AddCommMonoid M] (φ : ι → β → M) (f : ι → β)
    (i : ι) (b : β) :
    (∑ j, φ j (Function.update f i b j)) + φ i (f i) = (∑ j, φ j (f j)) + φ i b := by
  have hupd : ∀ j ∈ Finset.univ.erase i, φ j (Function.update f i b j) = φ j (f j) := by
    intro j hj
    rw [Function.update_of_ne (Finset.ne_of_mem_erase hj)]
  rw [← Finset.add_sum_erase Finset.univ (fun j => φ j (Function.update f i b j))
      (Finset.mem_univ i),
    ← Finset.add_sum_erase Finset.univ (fun j => φ j (f j)) (Finset.mem_univ i),
    Finset.sum_congr rfl hupd, Function.update_self]
  abel

/-- **The exchange law.**  Replacing the entry of `i` by `b` exchanges its share
`φ (f i)` of the sum for `φ b`. -/
theorem sum_update_exchange [DecidableEq ι] [AddCommMonoid M] (φ : β → M) (f : ι → β) (i : ι)
    (b : β) :
    (∑ j, φ (Function.update f i b j)) + φ (f i) = (∑ j, φ (f j)) + φ b :=
  sum_update_exchange_index (fun _ => φ) f i b

/-- The exchange law for two tables that differ in one entry. -/
theorem sum_exchange [AddCommMonoid M] {f g : ι → M} {i : ι} (h : ∀ j ≠ i, f j = g j) :
    (∑ j, f j) + g i = (∑ j, g j) + f i := by
  classical
  have hf : f = Function.update g i (f i) := by
    funext j
    by_cases hj : j = i
    · rw [hj, Function.update_self]
    · rw [Function.update_of_ne hj, h j hj]
  have hsum := sum_update_exchange (fun m : M => m) g i (f i)
  rwa [← hf] at hsum

/-- A sum of natural numbers is at least each of its entries. -/
theorem le_sum_apply (φ : ι → ℕ) (i : ι) : φ i ≤ ∑ j, φ j :=
  Finset.single_le_sum (fun _ _ => Nat.zero_le _) (Finset.mem_univ i)

/-- A sum of natural numbers is at least two different entries together. -/
theorem add_le_sum_apply [DecidableEq ι] (φ : ι → ℕ) {i j : ι} (h : i ≠ j) :
    φ i + φ j ≤ ∑ k, φ k := by
  rw [← Finset.sum_pair h]
  exact Finset.sum_le_sum_of_subset (Finset.subset_univ _)

/-- A sum of natural numbers vanishes exactly when every entry does. -/
theorem sum_eq_zero_iff_forall (φ : ι → ℕ) : ∑ j, φ j = 0 ↔ ∀ j, φ j = 0 := by
  rw [Finset.sum_eq_zero_iff]
  exact ⟨fun h j => h j (Finset.mem_univ j), fun h j _ => h j⟩

end ThreadUtils
