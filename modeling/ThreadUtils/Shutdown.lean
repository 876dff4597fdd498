import ThreadUtils.Dfg.Schedule
import ThreadUtils.Dfg.Shutdown
import ThreadUtils.TaskManager.Shutdown
import ThreadUtils.Tools.ThreadPool.Completion
import ThreadUtils.Tools.ThreadPool.Shutdown

/-!
# Shutdown

The task manager, the thread pool and the graph runner shut down alike: the flags first,
then one permit for each worker, then the joins.  In none of them can this deadlock.
-/

namespace ThreadUtils

variable {G N W C H S V : Type*} [DecidableEq G] [DecidableEq N] [DecidableEq W] [DecidableEq C]
  [DecidableEq H] [DecidableEq S] [DecidableEq V] [Fintype G] [Fintype N] [Fintype W] [Fintype C]
  [Fintype S]

theorem shutdown_returns (tm : Groups G W) (pool : ThreadPool.Pool C H W)
    (dfg : Dfg.Runner G N W) (c : C) :
    (∀ g groups, ∀ s₁ : TaskManager.State G W C S, TaskManager.Released tm c g groups s₁ →
      TaskManager.ShutsDown tm c g groups s₁) ∧
    (∀ s₁, ThreadPool.Released pool c s₁ → ThreadPool.ShutsDown pool c s₁) ∧
    ∀ g groups, ∀ s₁ : Dfg.State G N W C V, Dfg.Released dfg c g groups s₁ →
      Dfg.ShutsDown dfg c g groups s₁ :=
  ⟨fun _ _ _ => TaskManager.shutsDown_of_released, fun _ => ThreadPool.shutsDown_of_released,
    fun _ _ _ => Dfg.shutsDown_of_released⟩

/-- A client pushes an operation to the task manager and shuts it down. -/
def pendingOperation : List (TaskManager.Action Unit Unit Unit Unit) :=
  [.push (.inr ()) () none] ++ List.replicate 4 (.pushing (.inr ())) ++ [.fini ()] ++
    List.replicate 2 (.client ())

/-- A client launches two jobs and shuts the pool down. -/
def pendingJobs : List (ThreadPool.Action Unit Unit Unit) :=
  [.lauch () () 2] ++ List.replicate 5 (.client ()) ++ [.fini ()] ++ List.replicate 2 (.client ())

/-- A client pushes a datum to the graph and shuts its group down. -/
def pendingData : List (Dfg.Action Unit Unit ℕ) :=
  Dfg.feed 7 ++ [.term ()] ++ List.replicate 2 (.client ())

/-- Work is pushed before the shutdown, and nobody has begun it when the permits are
released. -/
theorem shutdown_returns_pendingWork :
    let dfg := Dfg.chainOn [()] (by decide) (by decide) 1
    let s := (TaskManager.system TaskManager.oneWorker Unit Unit).replay TaskManager.initial
      pendingOperation
    let t := (ThreadPool.system ThreadPool.onePool).replay ThreadPool.initial pendingJobs
    let u := (Dfg.system dfg Unit ℕ).replay Dfg.initial pendingData
    (∃ s₁, TaskManager.step TaskManager.oneWorker s (.client ()) = some s₁ ∧
      TaskManager.ShutsDown TaskManager.oneWorker () () [] s₁) ∧
    (∃ t₁, ThreadPool.step ThreadPool.onePool t (.client ()) = some t₁ ∧
      ThreadPool.ShutsDown ThreadPool.onePool () t₁) ∧
    ∃ u₁, Dfg.step dfg u (.client ()) = some u₁ ∧ Dfg.ShutsDown dfg () () [] u₁ := by
  intro dfg s t u
  obtain ⟨htm, hpool, hdfg⟩ := shutdown_returns (S := Unit) (V := ℕ) TaskManager.oneWorker
    ThreadPool.onePool dfg ()
  have hs : TaskManager.Released TaskManager.oneWorker () () []
      ((TaskManager.step TaskManager.oneWorker s (.client ())).getD s) :=
    ⟨s, TransitionSystem.Reachable.replay (.start rfl) pendingOperation (by decide), by decide, rfl⟩
  have ht : ThreadPool.Released ThreadPool.onePool ()
      ((ThreadPool.step ThreadPool.onePool t (.client ())).getD t) :=
    ⟨t, TransitionSystem.Reachable.replay (.start rfl) pendingJobs (by decide), by decide, rfl⟩
  have hu : Dfg.Released dfg () () [] ((Dfg.step dfg u (.client ())).getD u) :=
    ⟨u, TransitionSystem.Reachable.replay (.start rfl) pendingData (by decide), by decide, rfl⟩
  exact ⟨⟨_, rfl, htm () [] _ hs⟩, ⟨_, rfl, hpool _ ht⟩, ⟨_, rfl, hdfg () [] _ hu⟩⟩

end ThreadUtils
