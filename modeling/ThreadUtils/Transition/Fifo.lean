import Mathlib.Data.List.Basic

/-!
# An atomic unbounded FIFO

The specification that concurrent queues are compared with: a list whose end
receives and whose front gives.  An implementation refines it when each of its
steps is matched by at most one event of the FIFO on the list it stands for.
-/

namespace ThreadUtils

universe u

/-- The operations of a FIFO, with the element that goes in or comes out. -/
inductive FifoEvent (α : Type u) where
  | enqueue (value : α)
  | dequeue (value : α)

/-- The steps of the FIFO; `none` is a step that leaves the list alone. -/
inductive FifoStep {α : Type u} : List α → Option (FifoEvent α) → List α → Prop
  | internal (l : List α) : FifoStep l none l
  | enqueue (l : List α) (value : α) : FifoStep l (some (.enqueue value)) (l ++ [value])
  | dequeue (value : α) (l : List α) : FifoStep (value :: l) (some (.dequeue value)) l

theorem FifoStep.eq_of_internal {α : Type u} {l l' : List α} (h : FifoStep l none l') : l' = l := by
  cases h
  rfl

theorem FifoStep.eq_of_enqueue {α : Type u} {l l' : List α} {value : α}
    (h : FifoStep l (some (.enqueue value)) l') : l' = l ++ [value] := by
  cases h
  rfl

theorem FifoStep.eq_of_dequeue {α : Type u} {l l' : List α} {value : α}
    (h : FifoStep l (some (.dequeue value)) l') : l = value :: l' := by
  cases h
  rfl

end ThreadUtils
