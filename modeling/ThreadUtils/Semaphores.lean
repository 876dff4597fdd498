import ThreadUtils.Dfg.Schedule
import ThreadUtils.Dfg.Semaphores
import ThreadUtils.TaskManager.Completion
import ThreadUtils.TaskManager.Semaphores
import ThreadUtils.Tools.ThreadPool.Completion
import ThreadUtils.Tools.ThreadPool.Semaphores

/-!
# The maximum of a semaphore

`TU_Sem` is `std::counting_semaphore<512>`, which promises counters up to `512`; to release more
is undefined.  The task manager, the thread pool and the graph runner release one permit for
each piece of work and never look at the counter, and a worker takes many pieces of work for one
permit.

## No configuration is safe

A worker need not run while clients push.  So a counter grows by one with every call of
`tu_tm_push_op` or `tu_dfg_push_data`, and by the size of the batch with a call of `tu_tp_lauch`:
it takes every value, in the semaphore of every group of a task manager, in that of every pool, and
in one of every graph runner with an input node.  The number of workers plays no part.

## What is safe

Only a bound on the work helps: the runs that release no more than `b` permits to a semaphore are
within the maximum for `b ≤ 512`, and for no other `b`.
-/

namespace ThreadUtils

open TransitionSystem

variable {G N W C H S V : Type*} [DecidableEq G] [DecidableEq N] [DecidableEq W] [DecidableEq C]
  [DecidableEq H] [DecidableEq S] [DecidableEq V]

/-- The least maximum of `TU_Sem`. -/
def semMax : ℕ := 512

/-- **No maximum is kept**: in each of the three components some run exceeds `512`, and a bound on
the permits that are released makes sure of the maximum only if it is the maximum. -/
theorem semaphores_not_within (tm : Groups G W) (pool : ThreadPool.Pool C H W)
    (dfg : Dfg.Runner G N W) (c : C) (h : H) (data : Dfg.GraphData V)
    (hdata : (dfg.graph.inputs data.type).getD [] ≠ []) :
    ((∀ g, ∃ s, (TaskManager.system tm C S).Reachable s ∧ semMax < s.sem g) ∧
      ∀ b : G → ℕ, (TaskManager.semaphores tm C S).SafeWithin (fun _ => semMax) b ↔
        ∀ g, b g ≤ semMax) ∧
    ((∃ s, (ThreadPool.system pool).Reachable s ∧ semMax < s.sem) ∧
      ∀ b : ℕ, (ThreadPool.semaphores pool).SafeWithin semMax b ↔ b ≤ semMax) ∧
    (∃ s g, (Dfg.system dfg C V).Reachable s ∧ semMax < s.sem g) ∧
      ∀ b : ℕ, (Dfg.semaphores dfg C V).SafeWithin (fun _ => semMax) (fun _ => b) ↔
        b ≤ semMax := by
  obtain ⟨n, hn⟩ := List.exists_mem_of_ne_nil _ hdata
  refine ⟨⟨fun g => ?_, fun b => TaskManager.safeWithin_iff c⟩,
    ⟨?_, fun b => ThreadPool.safeWithin_iff pool c h⟩, ?_, fun b => Dfg.safeWithin_iff c hn⟩
  · obtain ⟨_, s, p, hs⟩ := TaskManager.exists_path_pushes tm S c g (semMax + 1)
    refine ⟨s, p.reachable (.start rfl), ?_⟩
    rw [hs, Pi.single_eq_same]
    exact Nat.lt_succ_self semMax
  · obtain ⟨_, s, p, hs⟩ := ThreadPool.exists_path_lauch pool c h (semMax + 1)
    exact ⟨s, p.reachable (.start rfl), hs ▸ Nat.lt_succ_self semMax⟩
  · obtain ⟨_, s, p, -, g, hg⟩ := Dfg.exists_path_counter_eq dfg c data hn (semMax + 1)
    exact ⟨s, g, p.reachable (.start rfl), hg ▸ Nat.lt_succ_self semMax⟩

/-- The chain of two nodes accepts data; one permit too many in the budget is not safe. -/
theorem semaphores_not_within_chain :
    let dfg := Dfg.chainOn [()] (by decide) (by decide) 1
    ((∃ s, (TaskManager.system TaskManager.oneWorker Unit Unit).Reachable s ∧
        semMax < s.sem ()) ∧
      ¬ (TaskManager.semaphores TaskManager.oneWorker Unit Unit).SafeWithin (fun _ => semMax)
        (fun _ => 513)) ∧
    ((∃ s, (ThreadPool.system ThreadPool.onePool).Reachable s ∧ semMax < s.sem) ∧
      ¬ (ThreadPool.semaphores ThreadPool.onePool).SafeWithin semMax 513) ∧
    (∃ s g, (Dfg.system dfg Unit ℕ).Reachable s ∧ semMax < s.sem g) ∧
      (Dfg.semaphores dfg Unit ℕ).SafeWithin (fun _ => semMax) (fun _ => 512) := by
  intro dfg
  obtain ⟨⟨htm, htm'⟩, ⟨hpool, hpool'⟩, hdfg, hdfg'⟩ := semaphores_not_within (S := Unit)
    TaskManager.oneWorker ThreadPool.onePool dfg () () (⟨some 7, 0⟩ : Dfg.GraphData ℕ) (by decide)
  refine ⟨⟨htm (), fun h => ?_⟩, ⟨hpool, fun h => ?_⟩, hdfg, (hdfg' _).mpr le_rfl⟩
  · exact absurd ((htm' _).mp h ()) (by decide)
  · exact absurd ((hpool' _).mp h) (by decide)

/-- `513` pushes, a launch of `513` jobs and `513` data, before a worker acquires a permit. -/
theorem not_sem_le_semMax :
    let dfg := Dfg.chainOn [()] (by decide) (by decide) 1
    (∃ s, (TaskManager.system TaskManager.oneWorker Unit Unit).Reachable s ∧
      s.sem () = semMax + 1) ∧
    (∃ s, (ThreadPool.system ThreadPool.onePool).Reachable s ∧ s.sem = semMax + 1) ∧
    ∃ s, (Dfg.system dfg Unit ℕ).Reachable s ∧ s.sem () = semMax + 1 := by
  intro dfg
  obtain ⟨_, s, p, hs⟩ :=
    TaskManager.exists_path_pushes TaskManager.oneWorker Unit () () (semMax + 1)
  obtain ⟨_, t, q, ht⟩ := ThreadPool.exists_path_lauch ThreadPool.onePool () () (semMax + 1)
  obtain ⟨_, u, r, -, g, hu⟩ := Dfg.exists_path_counter_eq dfg ()
    (⟨some 7, 0⟩ : Dfg.GraphData ℕ) (n := false) (by decide) (semMax + 1)
  refine ⟨⟨s, p.reachable (.start rfl), ?_⟩, ⟨t, q.reachable (.start rfl), ht⟩, u,
    r.reachable (.start rfl), hu⟩
  rw [hs, Pi.single_eq_same]

end ThreadUtils
