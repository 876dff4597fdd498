import Mathlib.Algebra.Order.Group.Multiset
import Mathlib.Data.Multiset.AddSub

/-!
# Token games

A bag of tokens, of which one at a time is fired: it leaves the bag, and its children come
into it.  Which token is fired next is not determined, and a game need not end.  But when
it ends, with an empty bag, then the bag of all tokens fired does not depend on the order
(`Fires.unique`).

A token in the bag can only leave it by being fired.  So it is fired at some time in every
game that ends, and it makes no difference to the rest of the game when it is fired first
(`Fires.first`): this is the whole argument, and it does not need that the descendants of a
token are finitely many.
-/

namespace ThreadUtils

universe u

variable {α : Type u} {children : α → Multiset α}

/-- `Fires children M E M'`: the tokens `E`, fired in some order, lead from `M` to `M'`. -/
inductive Fires (children : α → Multiset α) (M : Multiset α) :
    Multiset α → Multiset α → Prop
  | refl : Fires children M 0 M
  | fire {E M' : Multiset α} (x : α) :
      Fires children M E (x ::ₘ M') → Fires children M (x ::ₘ E) (M' + children x)

namespace Fires

/-- Further tokens may lie in the bag. -/
theorem frame {M E M' : Multiset α} (h : Fires children M E M') (K : Multiset α) :
    Fires children (M + K) E (M' + K) := by
  induction h with
  | refl => exact .refl
  | @fire E M' x _ ih =>
    rw [Multiset.cons_add] at ih
    have h := ih.fire x
    rwa [add_right_comm] at h

/-- **A token that lies in the bag** is still there at the end, or it could have been fired
first. -/
theorem first {x : α} {M E M' : Multiset α} (h : Fires children (x ::ₘ M) E M') :
    (∃ K, M' = x ::ₘ K ∧ Fires children M E K) ∨
      ∃ F, E = x ::ₘ F ∧ Fires children (M + children x) F M' := by
  induction h with
  | refl => exact Or.inl ⟨M, rfl, .refl⟩
  | @fire E M' y _ ih =>
    rcases ih with ⟨K, hK, hM⟩ | ⟨F, rfl, hF⟩
    · rcases Multiset.cons_eq_cons.mp hK with ⟨rfl, rfl⟩ | ⟨-, L, rfl, rfl⟩
      · -- it is the token that is fired now
        exact Or.inr ⟨E, rfl, hM.frame _⟩
      · refine Or.inl ⟨L + children y, ?_, hM.fire y⟩
        rw [Multiset.cons_add]
    · exact Or.inr ⟨y ::ₘ F, Multiset.cons_swap y x F, hF.fire y⟩

/-- No token can be fired from the empty bag. -/
theorem eq_zero {E M' : Multiset α} (h : Fires children 0 E M') : E = 0 ∧ M' = 0 := by
  induction h with
  | refl => exact ⟨rfl, rfl⟩
  | fire x _ ih => exact absurd ih.2 Multiset.cons_ne_zero

/-- A token of the bag can be fired first in every game that ends. -/
theorem first_of_end {x : α} {M E : Multiset α} (h : Fires children (x ::ₘ M) E 0) :
    ∃ F, E = x ::ₘ F ∧ Fires children (M + children x) F 0 := by
  rcases h.first with ⟨K, hK, -⟩ | hfirst
  · exact absurd hK.symm Multiset.cons_ne_zero
  · exact hfirst

/-- **Two games that start with the same bag and end fire the same tokens.** -/
theorem unique {M E F : Multiset α} (h : Fires children M E 0) (h' : Fires children M F 0) :
    E = F := by
  -- by induction on the length of the first game
  induction hn : E.card generalizing M E F with
  | zero =>
    obtain rfl := Multiset.card_eq_zero.mp hn
    rcases M.empty_or_exists_mem with rfl | ⟨x, hx⟩
    · exact h'.eq_zero.1.symm
    · obtain ⟨K, rfl⟩ := Multiset.exists_cons_of_mem hx
      obtain ⟨E', hE', -⟩ := h.first_of_end
      exact absurd hE'.symm Multiset.cons_ne_zero
  | succ n ih =>
    rcases M.empty_or_exists_mem with rfl | ⟨x, hx⟩
    · rw [h.eq_zero.1, h'.eq_zero.1]
    · obtain ⟨K, rfl⟩ := Multiset.exists_cons_of_mem hx
      obtain ⟨E', rfl, hE⟩ := h.first_of_end
      obtain ⟨F', rfl, hF⟩ := h'.first_of_end
      rw [Multiset.card_cons, Nat.add_right_cancel_iff] at hn
      rw [ih hE hF hn]

end Fires
end ThreadUtils
