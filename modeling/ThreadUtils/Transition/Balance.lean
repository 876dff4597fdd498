import ThreadUtils.Transition.Accounting
import ThreadUtils.Transition.System

/-!
# Balances along a run

What the steps of a run put into an account is, at any time, what they have taken out of it
and what the state still holds.  The account has values in any commutative monoid: numbers,
bags, or several of them at once.
-/

namespace ThreadUtils

namespace TransitionSystem

variable {σ α M : Type*} {T : TransitionSystem σ α} [AddCommMonoid M]

/-- What the steps of a run bring together. -/
def total (share : Transition σ α → M) (trace : List (Transition σ α)) : M :=
  (trace.map share).sum

@[simp] theorem total_nil (share : Transition σ α → M) : total share [] = 0 :=
  rfl

theorem total_append (share : Transition σ α → M) (trace trace' : List (Transition σ α)) :
    total share (trace ++ trace') = total share trace + total share trace' := by
  rw [total, List.map_append, List.sum_append]
  rfl

@[simp] theorem total_snoc (share : Transition σ α → M) (trace : List (Transition σ α))
    (t : Transition σ α) : total share (trace ++ [t]) = total share trace + share t := by
  rw [total_append]
  simp [total]

theorem total_add (f g : Transition σ α → M) (trace : List (Transition σ α)) :
    total (fun t => f t + g t) trace = total f trace + total g trace :=
  List.sum_map_add

/-- Counting what the steps list. -/
theorem total_count {β : Type*} [DecidableEq β] (f : Transition σ α → List β)
    (trace : List (Transition σ α)) (b : β) :
    total (fun t => (f t).count b) trace = (trace.flatMap f).count b :=
  List.count_flatMap.symm

/-- **The balance of a run.**  When every step takes `out` and leaves `held` out of what it puts
in and what was held before, so does the run. -/
theorem Path.balance {ok : σ → α → Prop} {s s' : σ} {trace : List (Transition σ α)}
    (p : T.Path ok s trace s') (into out : Transition σ α → M) (held : σ → M) (hstart : held s = 0)
    (hstep : ∀ u a u', ok u a → T.step u a = some u' →
      out ⟨u, a, u'⟩ + held u' = into ⟨u, a, u'⟩ + held u) :
    total out trace + held s' = total into trace := by
  refine p.invariant (I := fun trace s => total out trace + held s = total into trace) ?_
    fun trace u a u' ih hok h => ?_
  · rw [total_nil, total_nil, hstart, add_zero]
  · rw [total_snoc, total_snoc, add_assoc, hstep u a u' hok h, ← ih]
    abel

end TransitionSystem
end ThreadUtils
