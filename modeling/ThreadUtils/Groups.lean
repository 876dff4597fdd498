import Mathlib.Data.List.Basic

/-!
# Worker groups

The task manager and the graph runner keep their workers in groups.  A group has a
semaphore of its own, on which its workers wait.
-/

namespace ThreadUtils

variable {G W : Type*}

/-- The groups in the order they were added, and the workers of each group in order. -/
structure Groups (G W : Type*) where
  groups : List G
  workers : G → List W
  /-- `worker->group`. -/
  group : W → G
  mem_groups : ∀ g, g ∈ groups
  mem_workers : ∀ g w, w ∈ workers g ↔ group w = g
  nodup_workers : ∀ g, (workers g).Nodup

/-- All workers, group by group. -/
def Groups.allWorkers (tm : Groups G W) : List W :=
  tm.groups.flatMap tm.workers

end ThreadUtils
