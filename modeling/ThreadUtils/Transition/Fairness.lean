import Mathlib.Data.Prod.Lex
import Mathlib.Order.WellFounded
import ThreadUtils.Transition.System

/-!
# Infinite runs and fairness

What a system does in the end is a property of its infinite runs, under the assumption that
the scheduler is fair to its threads: a thread that can make a step again and again makes
one.  The steps of a thread are given as a condition `P` on the state before the step and
the action, so that a step that changes nothing can be left out of them.

An argument about the end of a run has two halves.  Some steps cannot be made for ever, because they
lower a number; so from some instant on they are not made (`Run.exists_forall_not`).  Then their
thread stands still, and since the scheduler is fair it must be blocked from some instant on
(`Run.Fair.disabled`).  What is left is to see that it is not blocked, or that it has come to its
end, from the state alone.

* `Run.exists_forall_not` --- the variant rule: steps that decrease a variant stop.
* `Run.Fair.disabled` --- a thread that stops is blocked.
* `Run.joined` --- a thread that waits for the threads of a list, one after the other.
-/

namespace ThreadUtils
namespace TransitionSystem

universe u v w

variable {σ : Type u} {α : Type v} {T : TransitionSystem σ α}

/-- A run that goes on for ever. -/
structure Run (T : TransitionSystem σ α) where
  state : ℕ → σ
  action : ℕ → α
  step : ∀ n, T.step (state n) (action n) = some (state (n + 1))

/-- One of the steps `P` is enabled. -/
def Enabled (T : TransitionSystem σ α) (P : σ → α → Prop) (s : σ) : Prop :=
  ∃ a s', P s a ∧ T.step s a = some s'

/-- The steps `P` that are enabled again and again are made again and again. -/
def Run.Fair (r : T.Run) (P : σ → α → Prop) : Prop :=
  (∀ n, ∃ m, n ≤ m ∧ T.Enabled P (r.state m)) → ∀ n, ∃ m, n ≤ m ∧ P (r.state m) (r.action m)

variable {r : T.Run} {P : σ → α → Prop}

theorem enabled_of_isSome {s : σ} {a : α} (hP : P s a) (h : (T.step s a).isSome) :
    T.Enabled P s := by
  obtain ⟨s', hs'⟩ := Option.isSome_iff_exists.mp h
  exact ⟨a, s', hP, hs'⟩

theorem Run.reachable (r : T.Run) (h : T.Reachable (r.state 0)) (n : ℕ) :
    T.Reachable (r.state n) := by
  induction n with
  | zero => exact h
  | succ n ih => exact .next ih trivial (r.step n)

/-- An invariant of the steps of a run holds from some instant on. -/
theorem Run.invariant_from (r : T.Run) {I : σ → Prop} {n : ℕ} (h : I (r.state n))
    (hstep : ∀ m, n ≤ m → I (r.state m) → I (r.state (m + 1))) {m : ℕ} (hm : n ≤ m) :
    I (r.state m) := by
  induction m, hm using Nat.le_induction with
  | base => exact h
  | succ m hm ih => exact hstep m hm ih

/-- **The variant rule.**  When no step of a run increases the variant, the steps that
decrease it are made finitely often. -/
theorem Run.exists_forall_not {β : Type w} [Preorder β] [WellFoundedLT β] (r : T.Run) (μ : σ → β)
    {n₀ : ℕ} (hle : ∀ n, n₀ ≤ n → μ (r.state (n + 1)) ≤ μ (r.state n))
    (hlt : ∀ n, n₀ ≤ n → P (r.state n) (r.action n) → μ (r.state (n + 1)) < μ (r.state n)) :
    ∃ n, n₀ ≤ n ∧ ∀ m, n ≤ m → ¬ P (r.state m) (r.action m) := by
  obtain ⟨x, ⟨n, hn, rfl⟩, hmin⟩ := wellFounded_lt.has_min
    {x | ∃ n, n₀ ≤ n ∧ μ (r.state n) = x} ⟨_, n₀, le_rfl, rfl⟩
  refine ⟨n, hn, fun m hm hP => ?_⟩
  have hbelow : μ (r.state m) ≤ μ (r.state n) := by
    refine r.invariant_from (I := fun s => μ s ≤ μ (r.state n)) le_rfl (fun k hk hle' => ?_) hm
    exact (hle k (hn.trans hk)).trans hle'
  exact hmin _ ⟨m + 1, by omega, rfl⟩ ((hlt m (hn.trans hm) hP).trans_le hbelow)

/-- The variant rule for two numbers, of which the first one counts first. -/
theorem Run.exists_forall_not_lex (r : T.Run) (μ ν : σ → ℕ) {n₀ : ℕ}
    (hle : ∀ n, n₀ ≤ n → μ (r.state (n + 1)) < μ (r.state n) ∨
      μ (r.state (n + 1)) ≤ μ (r.state n) ∧ ν (r.state (n + 1)) ≤ ν (r.state n))
    (hlt : ∀ n, n₀ ≤ n → P (r.state n) (r.action n) → μ (r.state (n + 1)) < μ (r.state n) ∨
      μ (r.state (n + 1)) ≤ μ (r.state n) ∧ ν (r.state (n + 1)) < ν (r.state n)) :
    ∃ n, n₀ ≤ n ∧ ∀ m, n ≤ m → ¬ P (r.state m) (r.action m) := by
  refine r.exists_forall_not (fun s => toLex (μ s, ν s)) (fun n hn => ?_) fun n hn hP => ?_
  · rw [Prod.Lex.toLex_le_toLex]
    dsimp only
    have h := hle n hn
    omega
  · rw [Prod.Lex.toLex_lt_toLex]
    dsimp only
    have h := hlt n hn hP
    omega

/-- A thread that makes no step any more is blocked in the end. -/
theorem Run.Fair.disabled (hfair : r.Fair P) {n : ℕ}
    (hquiet : ∀ m, n ≤ m → ¬ P (r.state m) (r.action m)) :
    ∃ N, ∀ m, N ≤ m → ¬ T.Enabled P (r.state m) := by
  by_contra hagain
  push Not at hagain
  obtain ⟨m, hm, hP⟩ := hfair (fun N => by
    obtain ⟨m, hm, hen⟩ := hagain N
    exact ⟨m, hm, hen⟩) n
  exact hquiet m hm hP

/-- A thread that stays enabled while it does not move makes a step. -/
theorem Run.Fair.moves (hfair : r.Fair P) {Q : σ → Prop} {n N : ℕ} (hQ : Q (r.state n))
    (hkeep : ∀ m, n ≤ m → Q (r.state m) → ¬ P (r.state m) (r.action m) → Q (r.state (m + 1)))
    (henabled : ∀ m, N ≤ m → Q (r.state m) → T.Enabled P (r.state m)) :
    ∃ m, n ≤ m ∧ Q (r.state m) ∧ P (r.state m) (r.action m) := by
  by_contra hnone
  push Not at hnone
  have hstays : ∀ m, n ≤ m → Q (r.state m) := fun m hm =>
    r.invariant_from hQ (fun k hk hQk => hkeep k hk hQk (hnone k hk hQk)) hm
  obtain ⟨m, hm, hP⟩ := hfair (fun k => ⟨max k (max n N), le_max_left _ _,
    henabled _ (by omega) (hstays _ (by omega))⟩) n
  exact hnone m hm (hstays m hm) hP

/-- What holds of each thread of a list in the end holds of all of them in the end. -/
theorem Run.eventually_all {W : Type w} (r : T.Run) {D : W → σ → Prop} {l : List W}
    (hdone : ∀ w ∈ l, ∃ N, ∀ m, N ≤ m → D w (r.state m)) :
    ∃ N, ∀ m, N ≤ m → ∀ w ∈ l, D w (r.state m) := by
  induction l with
  | nil => exact ⟨0, fun _ _ _ hw => absurd hw (by simp)⟩
  | cons v l ih =>
    obtain ⟨N, hN⟩ := ih fun w hw => hdone w (List.mem_cons_of_mem _ hw)
    obtain ⟨N', hN'⟩ := hdone v (List.mem_cons_self ..)
    refine ⟨max N N', fun m hm w hw => ?_⟩
    rcases List.mem_cons.mp hw with rfl | hw
    · exact hN' m (by omega)
    · exact hN m (by omega) w hw

/-- **Joining a list of threads.**  `J l` says that the threads `l` remain to be joined. -/
theorem Run.joined {W : Type w} {J : List W → σ → Prop} {D : W → σ → Prop}
    (hfair : r.Fair P)
    (hkeep : ∀ n l, J l (r.state n) → ¬ P (r.state n) (r.action n) → J l (r.state (n + 1)))
    (hmove : ∀ n w l, J (w :: l) (r.state n) → P (r.state n) (r.action n) →
      J l (r.state (n + 1)))
    (henabled : ∀ n w l, J (w :: l) (r.state n) → D w (r.state n) → T.Enabled P (r.state n))
    {l : List W} {n : ℕ} (hJ : J l (r.state n))
    (hdone : ∀ w ∈ l, ∃ N, ∀ m, N ≤ m → D w (r.state m)) :
    ∃ m, n ≤ m ∧ J [] (r.state m) := by
  induction l generalizing n with
  | nil => exact ⟨n, le_rfl, hJ⟩
  | cons w l ih =>
    obtain ⟨N, hN⟩ := hdone w (List.mem_cons_self ..)
    obtain ⟨m, hm, hJm, hP⟩ := hfair.moves (Q := J (w :: l)) hJ
      (fun m _ => hkeep m (w :: l)) (fun m hm hJm => henabled m w l hJm (hN m hm))
    obtain ⟨k, hk, hend⟩ := ih (hmove m w l hJm hP) fun v hv => hdone v (List.mem_cons_of_mem _ hv)
    exact ⟨k, by omega, hend⟩

end TransitionSystem
end ThreadUtils
