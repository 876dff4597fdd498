import Mathlib.Algebra.BigOperators.Group.Finset.Basic
import Mathlib.Algebra.Order.BigOperators.Group.Finset
import Mathlib.Data.Fintype.Basic
import ThreadUtils.Transition.System

/-!
# Progress of a system without locks

A thread that finds its view of the memory outdated starts over.  It can do so for ever, but not
while all others stand still: only a step that changes the memory outdates the views.  Such a step
is a *burst*: it may raise the work that is left, up to a bound, and every other step lowers it.

Lock-freedom is stated as a bound on the length of a finite run.  It is proved by two accounts: the
steps are paid for by the bursts, and the bursts by the calls.  For an infinite run it means that
calls return again and again, since a run in which none returns from some instant on would be longer
than the bound allows.

* `Path.length_add_le_of_bursts` --- a run has no more steps than its bursts pay for.
* `Path.countP_add_le` --- steps of one kind are paid for by steps of another one.
* `Path.project` --- the run of a component in a run of the system.
* `sum_lt_sum_of_update` --- the work of the threads, when one of them makes a step.
-/

namespace ThreadUtils
namespace TransitionSystem

universe u v w w'

variable {σ : Type u} {α : Type v} {T : TransitionSystem σ α}
variable {ok : σ → α → Prop} {s s' : σ} {trace : List (Transition σ α)}

/-- **The burst rule.**  Let every step that is no burst lower `μ`, which never exceeds `b`.  Then
each burst pays for itself and for `b` more steps. -/
theorem Path.length_add_le_of_bursts (p : T.Path ok s trace s') (μ : σ → ℕ)
    (burst : Transition σ α → Bool) (b : ℕ)
    (hle : ∀ u a u', ok u a → T.step u a = some u' → μ u' ≤ b)
    (hlt : ∀ u a u', ok u a → T.step u a = some u' → burst ⟨u, a, u'⟩ = false → μ u' < μ u) :
    trace.length + μ s' ≤ μ s + trace.countP burst * (b + 1) := by
  induction p with
  | nil => simp
  | @snoc u u' a trace _ hok hstep ih =>
    rw [List.length_append, List.length_singleton, List.countP_append, List.countP_singleton]
    cases hburst : burst ⟨u, a, u'⟩ with
    | false =>
      have hlt' := hlt u a u' hok hstep hburst
      rw [if_neg (by simp), Nat.add_zero (trace.countP burst)]
      omega
    | true =>
      have hle' := hle u a u' hok hstep
      rw [if_pos rfl, Nat.add_mul]
      omega

/-- **The exchange rule.**  When the steps `P` are paid for by `ν`, which only the steps `Q` fill
up, each by `k` at most, there are no more steps `P` than `ν` and the steps `Q` pay for. -/
theorem Path.countP_add_le (p : T.Path ok s trace s') (ν : σ → ℕ)
    (P Q : Transition σ α → Bool) (k : ℕ) (hstep : ∀ u a u', ok u a → T.step u a = some u' →
      ν u' + (if P ⟨u, a, u'⟩ then 1 else 0) ≤ ν u + if Q ⟨u, a, u'⟩ then k else 0) :
    ν s' + trace.countP P ≤ ν s + trace.countP Q * k := by
  induction p with
  | nil => simp
  | @snoc u u' a trace _ hok hst ih =>
    have hle := hstep u a u' hok hst
    have hcount : (if Q ⟨u, a, u'⟩ then 1 else 0) * k = if Q ⟨u, a, u'⟩ then k else 0 := by
      split <;> simp
    rw [List.countP_append, List.countP_append, List.countP_singleton, List.countP_singleton,
      Nat.add_mul, hcount]
    omega

/-- The steps of two kinds are not more than those of the one and those of the other. -/
theorem countP_or_le (P Q : Transition σ α → Bool) (trace : List (Transition σ α)) :
    trace.countP (fun t => P t || Q t) ≤ trace.countP P + trace.countP Q := by
  induction trace with
  | nil => simp
  | cons t trace ih =>
    rw [List.countP_cons, List.countP_cons, List.countP_cons]
    cases P t <;> cases Q t <;> simp <;> omega

/-- Steps of two kinds that exclude each other are no more than those of a kind with both. -/
theorem countP_add_countP_le {P Q S : Transition σ α → Bool}
    (h : ∀ t, (P t).toNat + (Q t).toNat ≤ (S t).toNat) (trace : List (Transition σ α)) :
    trace.countP P + trace.countP Q ≤ trace.countP S := by
  induction trace with
  | nil => simp
  | cons t trace ih =>
    have ht := h t
    rw [List.countP_cons, List.countP_cons, List.countP_cons]
    cases hP : P t <;> cases hQ : Q t <;> cases hS : S t <;>
      simp only [hP, hQ, hS, Bool.toNat_true, Bool.toNat_false] at ht ⊢ <;> simp <;> omega

/-! ## The run of a component -/

/-- The step of a component in a step of the system, if it makes one. -/
def component {τ : Type w} {β : Type w'} (f : σ → τ) (act : σ → α → Option β)
    (t : Transition σ α) : Option (Transition τ β) :=
  (act t.source t.action).map fun b => ⟨f t.source, b, f t.target⟩

/-- The steps of the component are counted in the run of the system. -/
theorem length_component {τ : Type w} {β : Type w'} (f : σ → τ) (act : σ → α → Option β)
    (trace : List (Transition σ α)) : (trace.filterMap (component f act)).length =
      trace.countP fun t => (act t.source t.action).isSome := by
  rw [List.length_filterMap_eq_countP]
  refine List.countP_congr fun t _ => ?_
  rw [component, Option.isSome_map]

/-- **A component makes a run of its own** when the steps of the system are steps of it or leave
it as it is. -/
theorem Path.project {τ : Type w} {β : Type w'} {C : TransitionSystem τ β} {f : σ → τ}
    {act : σ → α → Option β} (p : T.Path ok s trace s')
    (hstep : ∀ u a u', T.step u a = some u' →
      (act u a).elim (f u' = f u) fun b => C.step (f u) b = some (f u')) :
    C.Path (fun _ _ => True) (f s) (trace.filterMap (component f act)) (f s') := by
  induction p with
  | nil => exact .nil _
  | @snoc u u' a trace _ _ hst ih =>
    have hcomponent := hstep u a u' hst
    rw [List.filterMap_append]
    cases hact : act u a with
    | none =>
      rw [hact] at hcomponent
      have hsame : f u' = f u := hcomponent
      rw [List.filterMap_cons_none (by rw [component, hact]; rfl), List.filterMap_nil,
        List.append_nil, hsame]
      exact ih
    | some b =>
      rw [hact] at hcomponent
      rw [List.filterMap_cons_some (by rw [component, hact]; rfl), List.filterMap_nil]
      exact .snoc ih trivial hcomponent

end TransitionSystem

/-- **The work of the threads.**  A thread goes on from `h i` to `p`, which lowers its own work,
and no other thread gets more to do. -/
theorem sum_lt_sum_of_update {ι π : Type*} [Fintype ι] [DecidableEq ι] {f g : π → ℕ} {h : ι → π}
    {i : ι} {p : π} (hself : g p < f (h i)) (hother : ∀ j, j ≠ i → g (h j) ≤ f (h j)) :
    ∑ j, g (Function.update h i p j) < ∑ j, f (h j) := by
  refine Finset.sum_lt_sum (fun j _ => ?_) ⟨i, Finset.mem_univ i, ?_⟩
  · by_cases hj : j = i
    · rw [hj, Function.update_self]
      exact hself.le
    · rw [Function.update_of_ne hj]
      exact hother j hj
  · rw [Function.update_self]
    exact hself

end ThreadUtils
