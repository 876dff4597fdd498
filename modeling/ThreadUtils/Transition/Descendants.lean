import Mathlib.Data.Multiset.Bind
import ThreadUtils.Transition.TokenGame

/-!
# The descendants of a token

When every token has a rank above that of its children, a game fires nothing but the descendants
of the tokens it starts with: what has been fired and what is still to be fired from the bag
always make up the same tokens (`Fires.balance`).  So the game ends, after as many moves as there
are descendants, and the tokens fired are known beforehand.
-/

namespace ThreadUtils

universe u

variable {α : Type u} {children : α → Multiset α} {rank : α → ℕ}

/-- A token and its descendants of the next `depth - 1` generations. -/
def descendants (children : α → Multiset α) : ℕ → α → Multiset α
  | 0, _ => 0
  | depth + 1, x => x ::ₘ (children x).bind (descendants children depth)

/-- Beyond the rank of a token there are no more generations. -/
theorem descendants_stable (hrank : ∀ x, ∀ y ∈ children x, rank y < rank x) {x : α} {m n : ℕ}
    (hm : rank x < m) (hn : rank x < n) :
    descendants children m x = descendants children n x := by
  induction m generalizing x n with
  | zero => exact absurd hm (Nat.not_lt_zero _)
  | succ m ih =>
    obtain ⟨n, rfl⟩ : ∃ k, n = k + 1 := ⟨n - 1, by omega⟩
    rw [descendants, descendants]
    refine congrArg (x ::ₘ ·) (Multiset.bind_congr fun y hy => ?_)
    have hlt := hrank x y hy
    exact ih (by omega) (by omega)

variable {depth : ℕ}

theorem descendants_eq (hrank : ∀ x, ∀ y ∈ children x, rank y < rank x)
    (hdepth : ∀ x, rank x < depth) (x : α) :
    descendants children depth x = x ::ₘ (children x).bind (descendants children depth) := by
  rw [descendants_stable hrank (hdepth x) (Nat.lt_succ_self (rank x)), descendants]
  refine congrArg (x ::ₘ ·) (Multiset.bind_congr fun y hy => ?_)
  exact descendants_stable hrank (hrank x y hy) (hdepth y)

/-- **The tokens fired and the descendants of the bag** are the descendants of the bag that the
game has started with. -/
theorem Fires.balance (hrank : ∀ x, ∀ y ∈ children x, rank y < rank x)
    (hdepth : ∀ x, rank x < depth) {M E M' : Multiset α} (h : Fires children M E M') :
    E + M'.bind (descendants children depth) = M.bind (descendants children depth) := by
  induction h with
  | refl => exact zero_add _
  | @fire E M' x _ ih =>
    rw [← ih, Multiset.add_bind, Multiset.cons_bind, descendants_eq hrank hdepth x,
      Multiset.cons_add, Multiset.cons_add, Multiset.add_cons,
      add_comm (M'.bind (descendants children depth))]

end ThreadUtils
