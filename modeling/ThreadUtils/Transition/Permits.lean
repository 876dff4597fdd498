import Mathlib.Data.List.Count
import Mathlib.Logic.Function.Basic

/-!
# Permits and the threads that owe an acquire

Threads wait for permits of a semaphore, and each of them will take a bounded number of
permits before it exits.  When it is one at most, the permits suffice for all of them as
soon as there are as many as threads that still have to take one: a thread that takes a
permit lowers both numbers.
-/

namespace ThreadUtils

universe u v

variable {W : Type u} {P : Type v} {owes : P → Bool} {l : List W} {pc : W → P} {w : W} {p : P}

/-- The number of the threads `l` whose program counter still has to take a permit. -/
def owing (owes : P → Bool) (l : List W) (pc : W → P) : ℕ :=
  l.countP fun w => owes (pc w)

theorem owing_le_length : owing owes l pc ≤ l.length :=
  List.countP_le_length

theorem owing_pos (hw : w ∈ l) (howes : owes (pc w) = true) : 0 < owing owes l pc :=
  List.countP_pos_iff.mpr ⟨w, hw, howes⟩

/-- A thread that does not come to owe a permit. -/
theorem owing_update_le [DecidableEq W] (h : w ∈ l → owes p = true → owes (pc w) = true) :
    owing owes l (Function.update pc w p) ≤ owing owes l pc := by
  refine List.countP_mono_left fun v hv howes => ?_
  by_cases hvw : v = w
  · subst hvw
    rw [Function.update_self] at howes
    exact h hv howes
  · rwa [Function.update_of_ne hvw] at howes

/-- A thread takes its permit. -/
theorem owing_update_lt [DecidableEq W] (hw : w ∈ l) (hold : owes (pc w) = true)
    (hnew : owes p = false) : owing owes l (Function.update pc w p) < owing owes l pc := by
  have hle : ∀ l : List W, owing owes l (Function.update pc w p) ≤ owing owes l pc := fun l =>
    owing_update_le fun _ htrue => absurd (hnew.symm.trans htrue) (by simp)
  induction l with
  | nil => exact absurd hw (by simp)
  | cons v l ih =>
    rw [owing, owing, List.countP_cons, List.countP_cons]
    by_cases hvw : v = w
    · subst hvw
      rw [Function.update_self, hold, hnew]
      have hrest := hle l
      rw [owing, owing] at hrest
      simpa using Nat.lt_succ_of_le hrest
    · rw [Function.update_of_ne hvw]
      exact Nat.add_lt_add_right (ih ((List.mem_cons.mp hw).resolve_left (Ne.symm hvw))) _

end ThreadUtils
