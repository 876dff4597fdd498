import Mathlib.Data.Fintype.EquivFin
import Mathlib.Logic.Relation
import Mathlib.Order.WellFounded

/-!
# Who waits for whom

The parties of a system wait for one another.  When a whole set of them waits, each for one of the
set, they wait in a circle, for there are finitely many of them.  And a circle stays: what a waiting
party waits for is not done while the party that has to do it is waiting itself.

A circle is a party that waits for itself in the transitive closure of the relation.  In this form
it needs no list of its parties and no order, and that it stays is an induction along the closure:
each step of the way goes from a waiting party to one that waits as well, so it is still there.

* `exists_transGen_self` --- a set of waiting parties contains a circle.
* `transGen_self_of_step` --- a circle stays, when only a party that does not wait ends a wait.
-/

namespace ThreadUtils
namespace WaitGraph

open Relation

variable {ι : Type*} {r r' : ι → ι → Prop}

/-- **A set of waiting parties contains a circle**, if there are finitely many of them. -/
theorem exists_transGen_self [Finite ι] {S : Set ι} (hne : S.Nonempty)
    (hstep : ∀ i ∈ S, ∃ j ∈ S, r i j) : ∃ i ∈ S, TransGen r i i := by
  by_contra hnot
  -- without a circle there is a party of the set that waits for nobody of the set
  let R : S → S → Prop := fun j i => TransGen r i j
  have htrans : IsTrans S R := ⟨fun _ _ _ hij hjk => hjk.trans hij⟩
  have hirrefl : Std.Irrefl R := ⟨fun i hi => hnot ⟨i, i.2, hi⟩⟩
  obtain ⟨i₀, hi₀⟩ := hne
  obtain ⟨i, -, hmin⟩ := (Finite.wellFounded_of_trans_of_irrefl R).has_min Set.univ
    ⟨⟨i₀, hi₀⟩, trivial⟩
  obtain ⟨j, hj, hij⟩ := hstep i i.2
  exact hmin ⟨j, hj⟩ trivial (.single hij)

/-- The parties on a way to a waiting party go on waiting. -/
theorem transGen_of_step (hstep : ∀ i j k, r i j → r j k → r' i j) {i j k : ι}
    (h : TransGen r i j) (hjk : r j k) : TransGen r' i j := by
  induction h using TransGen.head_induction_on with
  | single hij => exact .single (hstep _ _ _ hij hjk)
  | head hij hj ih =>
    obtain ⟨l, hjl, -⟩ := TransGen.head'_iff.mp hj
    exact .head (hstep _ _ _ hij hjl) ih

/-- **A circle stays**, when a party goes on waiting for one that waits. -/
theorem transGen_self_of_step (hstep : ∀ i j k, r i j → r j k → r' i j) {i : ι}
    (h : TransGen r i i) : TransGen r' i i := by
  obtain ⟨j, hij, -⟩ := TransGen.head'_iff.mp h
  exact transGen_of_step hstep h hij

end WaitGraph
end ThreadUtils
