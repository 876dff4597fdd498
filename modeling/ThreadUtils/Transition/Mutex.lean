import Mathlib.Logic.Function.Basic

/-!
# Who holds a mutex

A model of threads with a mutex records the holder of the mutex twice: in the mutex, and in
the program counters of the threads, which say who is inside a critical section.  `Owns`
is the invariant that the two agree, so that a thread inside a critical section excludes
every other one.  A step of a thread keeps the mutex, locks it or unlocks it.

Where there is a table of mutexes, a step locks or unlocks one of them (`Owns.acquire_at`,
`Owns.release_at`).
-/

namespace ThreadUtils

universe u v

variable {τ : Type u} {holds holds' : τ → Prop} {mutex : Option τ} {t : τ}

/-- The threads inside a critical section of the mutex are those the mutex names. -/
def Owns (holds : τ → Prop) (mutex : Option τ) : Prop :=
  ∀ t, holds t ↔ mutex = some t

/-- Two threads that hold the mutex are one. -/
theorem Owns.unique (h : Owns holds mutex) {t' : τ} (ht : holds t) (ht' : holds t') : t = t' :=
  Option.some.inj (((h t).mp ht).symm.trans ((h t').mp ht'))

/-- A step that nobody notices. -/
theorem Owns.keep (h : Owns holds mutex) (hsame : ∀ u, holds' u ↔ holds u) :
    Owns holds' mutex := by
  intro u
  rw [hsame u]
  exact h u

/-- A thread locks the free mutex. -/
theorem Owns.acquire (h : Owns holds none) (ht : holds' t)
    (hsame : ∀ u, u ≠ t → (holds' u ↔ holds u)) : Owns holds' (some t) := by
  intro u
  by_cases hu : u = t
  · subst hu
    exact ⟨fun _ => rfl, fun _ => ht⟩
  · rw [hsame u hu, h u]
    exact ⟨fun hnone => absurd hnone (by simp), fun heq => absurd (Option.some.inj heq).symm hu⟩

/-- The holder unlocks the mutex. -/
theorem Owns.release (h : Owns holds mutex) (ht : holds t) (ht' : ¬ holds' t)
    (hsame : ∀ u, u ≠ t → (holds' u ↔ holds u)) : Owns holds' none := by
  intro u
  by_cases hu : u = t
  · subst hu
    exact ⟨fun hold => absurd hold ht', fun hnone => absurd hnone (by simp)⟩
  · rw [hsame u hu]
    exact ⟨fun hold => absurd (h.unique hold ht) hu, fun hnone => absurd hnone (by simp)⟩

/-! ## Tables of mutexes -/

section Table

variable {ι : Type v} [DecidableEq ι] {inside inside' : ι → τ → Prop} {table : ι → Option τ}
  {i : ι}

/-- A thread locks the free mutex `i`. -/
theorem Owns.acquire_at (h : ∀ j, Owns (inside j) (table j)) (hfree : table i = none)
    (ht : inside' i t) (hsame : ∀ j u, j ≠ i ∨ u ≠ t → (inside' j u ↔ inside j u)) (j : ι) :
    Owns (inside' j) (Function.update table i (some t) j) := by
  by_cases hj : j = i
  · subst hj
    rw [Function.update_self]
    have hown := h j
    rw [hfree] at hown
    exact hown.acquire ht fun u hu => hsame j u (Or.inr hu)
  · rw [Function.update_of_ne hj]
    exact (h j).keep fun u => hsame j u (Or.inl hj)

/-- The holder unlocks the mutex `i`. -/
theorem Owns.release_at (h : ∀ j, Owns (inside j) (table j)) (ht : inside i t)
    (ht' : ¬ inside' i t) (hsame : ∀ j u, j ≠ i ∨ u ≠ t → (inside' j u ↔ inside j u)) (j : ι) :
    Owns (inside' j) (Function.update table i none j) := by
  by_cases hj : j = i
  · subst hj
    rw [Function.update_self]
    exact (h j).release ht ht' fun u hu => hsame j u (Or.inr hu)
  · rw [Function.update_of_ne hj]
    exact (h j).keep fun u => hsame j u (Or.inl hj)

end Table

end ThreadUtils
