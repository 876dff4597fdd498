import Mathlib.Algebra.BigOperators.Group.List.Basic
import Mathlib.Data.List.Perm.Basic

/-!
# Lists as bags

Data under way that may be taken in any order are a list, out of which a step takes the element at
any index.
-/

namespace ThreadUtils

variable {α β M : Type*} {l : List α} {n : ℕ} {a : α}

/-- The element that is taken out, with the rest. -/
theorem perm_cons_eraseIdx (h : l[n]? = some a) : l.Perm (a :: l.eraseIdx n) := by
  obtain ⟨hlt, rfl⟩ := List.getElem?_eq_some_iff.mp h
  exact (List.getElem_cons_eraseIdx_perm hlt).symm

theorem countP_eraseIdx (h : l[n]? = some a) (p : α → Bool) :
    l.countP p = (l.eraseIdx n).countP p + if p a then 1 else 0 := by
  rw [(perm_cons_eraseIdx h).countP_eq p, List.countP_cons]

theorem count_map_eraseIdx [DecidableEq β] (h : l[n]? = some a) (f : α → β) (b : β) :
    (l.map f).count b = ((l.eraseIdx n).map f).count b + if f a = b then 1 else 0 := by
  rw [((perm_cons_eraseIdx h).map f).count_eq b, List.map_cons, List.count_cons]
  simp only [beq_iff_eq]

theorem sum_map_eraseIdx [AddCommMonoid M] (h : l[n]? = some a) (f : α → M) :
    (l.map f).sum = ((l.eraseIdx n).map f).sum + f a := by
  rw [((perm_cons_eraseIdx h).map f).sum_eq, List.map_cons, List.sum_cons, add_comm]

theorem length_eraseIdx_of_getElem? (h : l[n]? = some a) :
    l.length = (l.eraseIdx n).length + 1 :=
  (perm_cons_eraseIdx h).length_eq

end ThreadUtils
