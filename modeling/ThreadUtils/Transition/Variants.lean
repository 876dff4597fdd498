import ThreadUtils.Transition.Fairness

/-!
# Variants of several levels

A run ends when each of its steps lowers a variant.  Here a variant is a list of numbers, the most
important one first: a step lowers one of them and raises none before it (`Lowers`).  What it does
to the numbers behind it does not matter.
-/

namespace ThreadUtils
namespace TransitionSystem

universe u v

variable {σ : Type u} {α : Type v} {T : TransitionSystem σ α}

/-- One of the numbers gets less from `s` to `s'`, and none of those before it more. -/
inductive Lowers (s s' : σ) : List (σ → ℕ) → Prop
  | first {μ : σ → ℕ} {levels : List (σ → ℕ)} : μ s' < μ s → Lowers s s' (μ :: levels)
  | later {μ : σ → ℕ} {levels : List (σ → ℕ)} :
      μ s' ≤ μ s → Lowers s s' levels → Lowers s s' (μ :: levels)

/-- **No run goes on for ever** when each of its steps from some instant on lowers the levels. -/
theorem Run.not_forall_lowers (r : T.Run) (levels : List (σ → ℕ)) (n₀ : ℕ) :
    ¬ ∀ n, n₀ ≤ n → Lowers (r.state n) (r.state (n + 1)) levels := by
  induction levels generalizing n₀ with
  | nil => exact fun h => nomatch h n₀ le_rfl
  | cons μ levels ih =>
    intro h
    -- the first level is lowered finitely often, and from then on the levels below it are
    obtain ⟨n₁, hn₁, hquiet⟩ := r.exists_forall_not
      (P := fun s a => ∃ s', T.step s a = some s' ∧ μ s' < μ s) μ
      (fun n (hn : n₀ ≤ n) => by
        cases h n hn with
        | first hlt => exact hlt.le
        | later hle _ => exact hle)
      (fun n _ ⟨s', hstep, hlt⟩ => by
        rw [r.step n] at hstep
        rwa [Option.some.inj hstep])
    refine ih n₁ fun n hn => ?_
    cases h n (hn₁.trans hn) with
    | first hlt => exact absurd ⟨_, r.step n, hlt⟩ (hquiet n hn)
    | later _ hlowers => exact hlowers

end TransitionSystem
end ThreadUtils
