import Mathlib.Data.List.Nodup

/-!
# Lists with links in both directions

A memory of nodes with two links each is a pair of functions `next` and `prev`.  A list of nodes
is threaded through it when each node has the one behind it as its `next` and the one before it as
its `prev`; what stands behind the last node and before the first is a parameter, so that a list
can be cut anywhere and a ring can be closed.

* `NextLinks.append_iff`, `PrevLinks.append_iff` --- a list is threaded when its parts are.
* `NextLinks.relink`, `PrevLinks.relink` --- an edit at the end where two parts meet.
* `walk_eq` --- the loop along `next` meets the list.
-/

namespace ThreadUtils

universe u

variable {ν : Type u}

/-- The node behind each node of the list is its `next`; behind the last one is `q`. -/
def NextLinks (next : ν → ν) (q : ν) : List ν → Prop
  | [] => True
  | a :: nodes => next a = nodes.headD q ∧ NextLinks next q nodes

/-- The node before each node of the list is its `prev`; before the first one is `p`. -/
def PrevLinks (prev : ν → ν) : ν → List ν → Prop
  | _, [] => True
  | p, a :: nodes => prev a = p ∧ PrevLinks prev a nodes

theorem headD_append_headD (l l' : List ν) (q : ν) : (l ++ l').headD q = l.headD (l'.headD q) := by
  cases l <;> rfl

theorem getLastD_append_getLastD (l l' : List ν) (p : ν) :
    (l ++ l').getLastD p = l'.getLastD (l.getLastD p) := by
  rw [List.getLastD_eq_getLast?, List.getLastD_eq_getLast?, List.getLastD_eq_getLast?,
    List.getLast?_append]
  cases l'.getLast? <;> rfl

section Next

variable {next next' : ν → ν} {q q' : ν} {l l' : List ν}

theorem NextLinks.append_iff :
    NextLinks next q (l ++ l') ↔ NextLinks next (l'.headD q) l ∧ NextLinks next q l' := by
  induction l with
  | nil => exact (iff_of_eq (true_and _)).symm
  | cons a l ih =>
    rw [List.cons_append, NextLinks, NextLinks, ih, headD_append_headD, and_assoc]

/-- The links depend on the memory at the nodes of the list only. -/
theorem NextLinks.congr (h : NextLinks next q l) (hagree : ∀ a ∈ l, next' a = next a) :
    NextLinks next' q l := by
  induction l with
  | nil => trivial
  | cons a l ih =>
    refine ⟨(hagree a List.mem_cons_self).trans h.1, ih h.2 fun b hb => ?_⟩
    exact hagree b (List.mem_cons_of_mem _ hb)

/-- Another node is put behind the last one. -/
theorem NextLinks.relink {a : ν} (h : NextLinks next q (l ++ [a]))
    (hagree : ∀ b ∈ l, next' b = next b) (hlast : next' a = q') :
    NextLinks next' q' (l ++ [a]) := by
  obtain ⟨hl, -⟩ := NextLinks.append_iff.mp h
  exact NextLinks.append_iff.mpr ⟨hl.congr hagree, hlast, trivial⟩

end Next

section Prev

variable {prev prev' : ν → ν} {p p' : ν} {l l' : List ν}

theorem PrevLinks.append_iff :
    PrevLinks prev p (l ++ l') ↔ PrevLinks prev p l ∧ PrevLinks prev (l.getLastD p) l' := by
  induction l generalizing p with
  | nil => exact (iff_of_eq (true_and _)).symm
  | cons a l ih => rw [List.cons_append, PrevLinks, PrevLinks, ih, List.getLastD_cons, and_assoc]

theorem PrevLinks.congr (h : PrevLinks prev p l) (hagree : ∀ a ∈ l, prev' a = prev a) :
    PrevLinks prev' p l := by
  induction l generalizing p with
  | nil => trivial
  | cons a l ih =>
    refine ⟨(hagree a List.mem_cons_self).trans h.1, ih h.2 fun b hb => ?_⟩
    exact hagree b (List.mem_cons_of_mem _ hb)

/-- Another node is put before the first one. -/
theorem PrevLinks.relink {a : ν} (h : PrevLinks prev p (a :: l))
    (hagree : ∀ b ∈ l, prev' b = prev b) (hfirst : prev' a = p') : PrevLinks prev' p' (a :: l) :=
  ⟨hfirst, h.2.congr hagree⟩

end Prev

/-! ## The loop along the list -/

/-- The nodes met from `a` before `q`, when at most `fuel` are. -/
def walk [DecidableEq ν] (next : ν → ν) (q : ν) : ℕ → ν → Option (List ν)
  | fuel, a =>
      if a = q then some []
      else match fuel with
        | 0 => none
        | fuel + 1 => (walk next q fuel (next a)).map (a :: ·)

theorem walk_eq [DecidableEq ν] {next : ν → ν} {q : ν} {l : List ν} (h : NextLinks next q l)
    (hq : q ∉ l) {fuel : ℕ} (hfuel : l.length ≤ fuel) : walk next q fuel (l.headD q) = some l := by
  induction l generalizing fuel with
  | nil =>
    unfold walk
    exact if_pos rfl
  | cons a l ih =>
    obtain ⟨n, rfl⟩ : ∃ n, fuel = n + 1 := ⟨fuel - 1, by rw [List.length_cons] at hfuel; omega⟩
    have hne : a ≠ q := fun heq => hq (heq ▸ List.mem_cons_self)
    unfold walk
    rw [List.headD_cons, if_neg hne]
    dsimp only
    rw [h.1, ih h.2 (fun hmem => hq (List.mem_cons_of_mem _ hmem))
      (by rw [List.length_cons] at hfuel; omega)]
    rfl

end ThreadUtils
