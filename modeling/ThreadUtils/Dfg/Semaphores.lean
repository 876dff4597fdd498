import Mathlib.Algebra.Order.BigOperators.Group.List
import ThreadUtils.Dfg.Steps
import ThreadUtils.Transition.Semaphores

/-!
# The semaphores of the graph runner

Whoever puts a datum in the queue of a node releases one permit to the group of the node
(`tu_internal_node_notify_workers`), and `tu_dfg_term` one for each worker.  A worker acquires
one permit and then passes over all nodes of its group until a pass has processed nothing.

A datum that is pushed to the graph may go to several input nodes, and these may be in one group or
in many.  So a call of `tu_dfg_push_data` releases permits to several semaphores, but each of its
accesses to one of them and one permit at a time.  A counter that grows in this way takes
every value on its way, and so there is a first instant at which some counter is at the maximum;
up to then no counter has exceeded it (`exists_path_counter_eq`).

A graph without an input node gets no datum from a client, and the permits of its groups are those
of `tu_dfg_term`.
-/

namespace ThreadUtils
namespace Dfg

open TransitionSystem

variable {G N W C V : Type*} [DecidableEq G]

/-- `tu_internal_node_notify_workers` for the next node. -/
def ExecPc.released (dfg : Runner G N W) : ExecPc N V → G → ℕ
  | .release (n :: _) _ => Pi.single (dfg.graph.node n).group 1
  | _ => 0

/-- The permit that an access of a worker releases. -/
def WorkerPc.released (dfg : Runner G N W) : WorkerPc N V → G → ℕ
  | .exec _ _ _ e => e.released dfg
  | _ => 0

/-- The permit that an access of a worker acquires. -/
def WorkerPc.acquired (g : G) : WorkerPc N V → G → ℕ
  | .acquire => Pi.single g 1
  | _ => 0

/-- The permits that an access of a client releases. -/
def ClientPc.released (dfg : Runner G N W) : ClientPc G N W V → G → ℕ
  | .release _ n _ => Pi.single (dfg.graph.node n).group 1
  | .termRelease g _ => Pi.single g (dfg.workers g).length
  | _ => 0

/-- The permits that a step releases to the groups. -/
def State.released (dfg : Runner G N W) (s : State G N W C V) : Action W C V → G → ℕ
  | .worker w _ => (s.worker w).released dfg
  | .client c => (s.client c).released dfg
  | _ => 0

/-- The permit that a step acquires. -/
def State.acquired (dfg : Runner G N W) (s : State G N W C V) : Action W C V → G → ℕ
  | .worker w _ => (s.worker w).acquired (dfg.group w)
  | _ => 0

variable {dfg : Runner G N W} {s s' : State G N W C V}

/-- Most accesses of a worker are not about a semaphore. -/
theorem LocalMove.quiet {w : W} {p pc : WorkerPc N V} (hmove : LocalMove dfg s w p pc) (g : G) :
    p.released dfg = 0 ∧ p.acquired g = 0 := by
  cases hmove <;> exact ⟨rfl, rfl⟩

variable [DecidableEq N] [DecidableEq W] [DecidableEq C] [DecidableEq V]

omit [DecidableEq N] [DecidableEq W] [DecidableEq C] [DecidableEq V] in
theorem ClientMove.quiet {c : C} {a : Action W C V} {pc : ClientPc G N W V} {m : Option C}
    (hmove : ClientMove dfg s c a pc m) : s.released dfg a = 0 ∧ s.acquired dfg a = 0 := by
  have hclient : ∀ p, s.client c = p → p.released dfg = 0 →
      s.released dfg (.client c) = 0 ∧ s.acquired dfg (.client c) = 0 := by
    rintro p rfl hp
    exact ⟨hp, rfl⟩
  cases hmove with
  | call | wake | term => exact ⟨rfl, rfl⟩
  | lock hpc =>
    rcases hpc with hpc | hpc
    · exact hclient _ hpc rfl
    · exact hclient _ hpc rfl
  | empty hpc => exact hclient _ hpc rfl
  | block hpc => exact hclient _ hpc rfl
  | unlock result hpc => exact hclient _ hpc rfl
  | stored g groups hpc => exact hclient _ hpc rfl
  | join w rest groups hpc => exact hclient _ hpc rfl
  | joined groups hpc => exact hclient _ hpc rfl

theorem sem_of_step {a : Action W C V} (h : step dfg s a = some s') :
    (s.acquired dfg a = 0 ∧ s'.sem = s.sem + s.released dfg a) ∨
      (s.released dfg a = 0 ∧ s'.sem + s.acquired dfg a = s.sem) := by
  have hworker : ∀ w results p, s.worker w = p → p.acquired (dfg.group w) = 0 →
      s'.sem = s.sem + p.released dfg → a = .worker w results →
      (s.acquired dfg a = 0 ∧ s'.sem = s.sem + s.released dfg a) ∨
        (s.released dfg a = 0 ∧ s'.sem + s.acquired dfg a = s.sem) := by
    rintro w results p rfl hp hsem rfl
    exact Or.inl ⟨hp, hsem⟩
  have hclient : ∀ c p, s.client c = p → s'.sem = s.sem + p.released dfg → a = .client c →
      (s.acquired dfg a = 0 ∧ s'.sem = s.sem + s.released dfg a) ∨
        (s.released dfg a = 0 ∧ s'.sem + s.acquired dfg a = s.sem) := by
    rintro c p rfl hsem rfl
    exact Or.inl ⟨rfl, hsem⟩
  cases effect_of_step h with
  | move w results pc hmove =>
    obtain ⟨hrel, hacq⟩ := hmove.quiet (dfg.group w)
    exact hworker w results _ rfl hacq (by rw [hrel]; exact (add_zero _).symm) rfl
  | acquire w results hpc hpos =>
    refine Or.inr ⟨?_, ?_⟩
    · show (s.worker w).released dfg = 0
      rw [hpc]
      rfl
    · show _ + (s.worker w).acquired (dfg.group w) = _
      rw [hpc]
      exact Semaphores.update_sub_add hpos
  | enter w results v hpc => exact hworker w results _ hpc rfl (add_zero _).symm rfl
  | refuse w results v hpc => exact hworker w results _ hpc rfl (add_zero _).symm rfl
  | leave w results v hpc => exact hworker w results _ hpc rfl (add_zero _).symm rfl
  | pop w results v i type types data rest hpc =>
    exact hworker w results _ hpc rfl (add_zero _).symm rfl
  | exec w results v i data hpc => exact hworker w results _ hpc rfl (add_zero _).symm rfl
  | sink w results v i data result todo k hpc =>
    exact hworker w results _ hpc rfl (add_zero _).symm rfl
  | notify w results v i data result todo hpc =>
    exact hworker w results _ hpc rfl (add_zero _).symm rfl
  | push w results v i data result q queues nodes todo hpc =>
    exact hworker w results _ hpc rfl (add_zero _).symm rfl
  | release w results v i data n nodes todo hpc =>
    exact hworker w results _ hpc rfl (Semaphores.update_add _ _ _) rfl
  | receive c data hpc => exact Or.inl ⟨rfl, (add_zero _).symm⟩
  | enqueue c data n rest hpc => exact hclient c _ hpc (add_zero _).symm rfl
  | clientRelease c data n rest hpc =>
    exact hclient c _ hpc (Semaphores.update_add _ _ _) rfl
  | take c result rest hpc => exact hclient c _ hpc (add_zero _).symm rfl
  | termStore c w rest g groups hpc => exact hclient c _ hpc (add_zero _).symm rfl
  | termRelease c g groups hpc => exact hclient c _ hpc (Semaphores.update_add _ _ _) rfl
  | client c a pc m hmove =>
    obtain ⟨hrel, hacq⟩ := hmove.quiet
    rw [hrel, hacq]
    exact Or.inl ⟨rfl, (add_zero _).symm⟩

/-- The semaphores of the groups. -/
def semaphores (dfg : Runner G N W) (C V : Type*) [DecidableEq C] [DecidableEq V] :
    Semaphores (system dfg C V) (G → ℕ) where
  counter := State.sem
  released := State.released dfg
  acquired := State.acquired dfg
  counter_init := by
    rintro s rfl
    rfl
  counter_step _ _ _ := sem_of_step

/-! ## Data that nobody takes -/

/-- A step that releases one permit to each group at most, and acquires none. -/
def State.Feeds (dfg : Runner G N W) (s : State G N W C V) (a : Action W C V) : Prop :=
  s.acquired dfg a = 0 ∧ ∀ g, s.released dfg a g ≤ 1

/-- The permits for a datum at the given nodes. -/
def Runner.permits (dfg : Runner G N W) (nodes : List N) : G → ℕ :=
  (nodes.map fun n => Pi.single (dfg.graph.node n).group 1).sum

/-- `tu_dfg_push_data` at the remaining input nodes, while the workers do nothing. -/
theorem exists_path_pushNext (dfg : Runner G N W) {c : C} {data : GraphData V} {nodes : List N}
    (hpc : s.client c = pushNext data nodes) :
    ∃ trace s', (system dfg C V).Path (fun u a => u.Feeds dfg a) s trace s' ∧
      s'.client c = .idle ∧ s'.sem = s.sem + dfg.permits nodes := by
  induction nodes generalizing s with
  | nil => exact ⟨[], s, .nil s, hpc, (add_zero _).symm⟩
  | cons n rest ih =>
    let s₁ : State G N W C V := (s.push (n, data.type) data).clientGoto c (.release data n rest)
    have h₁ : (system dfg C V).step s (.client c) = some s₁ := by
      show s.clientStep dfg c = some s₁
      unfold State.clientStep
      rw [hpc]
      rfl
    have hfeeds₁ : s.Feeds dfg (.client c) := by
      refine ⟨rfl, fun g => ?_⟩
      show (s.client c).released dfg g ≤ 1
      rw [hpc]
      exact Nat.zero_le 1
    have hpc₁ : s₁.client c = .release data n rest := Function.update_self _ _ _
    let s₂ : State G N W C V := (s₁.release dfg n).clientGoto c (pushNext data rest)
    have h₂ : (system dfg C V).step s₁ (.client c) = some s₂ := by
      show s₁.clientStep dfg c = some s₂
      unfold State.clientStep
      rw [hpc₁]
    have hfeeds₂ : s₁.Feeds dfg (.client c) := by
      refine ⟨rfl, fun g => ?_⟩
      show (s₁.client c).released dfg g ≤ 1
      rw [hpc₁]
      show (Pi.single (dfg.graph.node n).group 1 : G → ℕ) g ≤ 1
      rw [Pi.single_apply]
      split <;> decide
    obtain ⟨trace, s', q, hidle, hsem⟩ := ih (s := s₂) (Function.update_self _ _ _)
    have p₁ : (system dfg C V).Path (fun u a => u.Feeds dfg a) s _ s₁ := .single hfeeds₁ h₁
    refine ⟨_, s', (p₁.snoc hfeeds₂ h₂).trans q, hidle, ?_⟩
    have hsem₂ : s₂.sem = s.sem + Pi.single (dfg.graph.node n).group 1 :=
      Semaphores.update_add _ _ _
    rw [hsem, hsem₂, Runner.permits, Runner.permits, List.map_cons, List.sum_cons, add_assoc]

/-- A call of `tu_dfg_push_data`, while the workers do nothing. -/
theorem exists_path_pushData {c : C} (data : GraphData V) (hidle : s.client c = .idle) :
    ∃ trace s', (system dfg C V).Path (fun u a => u.Feeds dfg a) s trace s' ∧
      s'.client c = .idle ∧
      s'.sem = s.sem + dfg.permits ((dfg.graph.inputs data.type).getD []) := by
  let s₁ : State G N W C V :=
    { s.clientGoto c (pushNext data ((dfg.graph.inputs data.type).getD [])) with
      received := s.received ++ [data] }
  have h₁ : (system dfg C V).step s (.pushData c data) = some s₁ := if_pos hidle
  have hpc₁ : s₁.client c = pushNext data ((dfg.graph.inputs data.type).getD []) :=
    Function.update_self _ _ _
  obtain ⟨trace, s', q, hidle', hsem⟩ := exists_path_pushNext dfg hpc₁
  have hfeeds : s.Feeds dfg (.pushData c data) := ⟨rfl, fun _ => Nat.zero_le 1⟩
  have p₁ : (system dfg C V).Path (fun u a => u.Feeds dfg a) s _ s₁ := .single hfeeds h₁
  exact ⟨_, s', p₁.trans q, hidle', hsem⟩

/-- Data are pushed until the counter of a group is `b`. -/
theorem exists_path_counter_eq (dfg : Runner G N W) (c : C) (data : GraphData V) {n : N}
    (hn : n ∈ (dfg.graph.inputs data.type).getD []) (b : ℕ) :
    ∃ trace s', (system dfg C V).Path (fun u a => u.Feeds dfg a) initial trace s' ∧
      (∀ g, s'.sem g ≤ b) ∧ ∃ g, s'.sem g = b := by
  obtain ⟨trace, s', p, -, hsem⟩ := Semaphores.exists_path_nsmul (S := semaphores dfg C V)
    (R := fun u => u.client c = .idle) (fun _ hu => exists_path_pushData data hu) b
    (rfl : (initial : State G N W C V).client c = .idle)
  refine Semaphores.exists_path_counter_eq (S := semaphores dfg C V) p rfl (fun _ _ h => h)
    (k := (dfg.graph.node n).group) ?_
  -- each call releases a permit to the group of `n`
  have hone : (Pi.single (dfg.graph.node n).group 1 : G → ℕ) ≤
      dfg.permits ((dfg.graph.inputs data.type).getD []) :=
    List.single_le_sum (fun _ _ => zero_le) _ (List.mem_map_of_mem hn)
  have hgroup := hone (dfg.graph.node n).group
  rw [Pi.single_eq_same] at hgroup
  rw [hsem]
  show b ≤ 0 + b * _
  rw [Nat.zero_add]
  exact Nat.le_mul_of_pos_right b hgroup

/-- **The exact budget of the graph runner**, when a client may push to one of its groups. -/
theorem safeWithin_iff (c : C) {data : GraphData V} {n : N}
    (hn : n ∈ (dfg.graph.inputs data.type).getD []) {m b : ℕ} :
    (semaphores dfg C V).SafeWithin (fun _ => m) (fun _ => b) ↔ b ≤ m := by
  have hle : ((fun _ => b : G → ℕ) ≤ fun _ => m) ↔ b ≤ m :=
    ⟨fun h => h (dfg.graph.node n).group, fun h _ => h⟩
  rw [← hle]
  refine Semaphores.safeWithin_iff fun hlt => ?_
  obtain ⟨trace, s', p, hall, g, hg⟩ := exists_path_counter_eq dfg c data hn b
  exact ⟨initial, trace, s', rfl, p.mono fun _ _ h => h.1, hall,
    fun h => hlt (hle.mpr (hg ▸ h g))⟩

end Dfg
end ThreadUtils
