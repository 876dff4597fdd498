import ThreadUtils.TaskManager.Shutdown
import ThreadUtils.Transition.Semaphores

/-!
# The semaphores of the task manager

A call of `tu_tm_push_op` releases one permit to its group, and `group_fini` one for each
worker of the group.  A worker acquires one permit and then executes operations until it finds
its queue empty, so it may take many operations for one permit: the permits of the others stay
in the counter, however short the queue is.

Who releases and who acquires is read off the program counters (`PushPc.released`,
`WorkerPc.acquired`), and `semaphores` shows that the steps of the model do to the counters what
these say.  What follows is general: the counter is what was released and not acquired.

A client may push to a group again and again, and each push is the same round of four accesses.  It
does not depend on what the workers do, so the round can be repeated, and the counter of the group
takes every value.
-/

namespace ThreadUtils
namespace TaskManager

open TransitionSystem

variable {G W C S : Type*} [DecidableEq G]

/-- The permit that an access of `tu_tm_push_op` releases. -/
def PushPc.released : Option (PushPc G S) → G → ℕ
  | some (.release g _) => Pi.single g 1
  | _ => 0

/-- The permits that an access of a client releases. -/
def ClientPc.released (tm : Groups G W) : ClientPc G W → G → ℕ
  | .finiRelease g _ => Pi.single g (tm.workers g).length
  | _ => 0

/-- The permit that an access of a worker acquires. -/
def WorkerPc.acquired (g : G) : WorkerPc S → G → ℕ
  | .acquire => Pi.single g 1
  | _ => 0

/-- The permits that a step releases to the groups. -/
def State.released (tm : Groups G W) (s : State G W C S) : Action G W C S → G → ℕ
  | .pushing t => PushPc.released (s.push t)
  | .client c => (s.client c).released tm
  | _ => 0

/-- The permits that a step acquires. -/
def State.acquired (tm : Groups G W) (s : State G W C S) : Action G W C S → G → ℕ
  | .worker w _ => (s.worker w).acquired (tm.group w)
  | _ => 0

variable [DecidableEq W] [DecidableEq C] [DecidableEq S] {tm : Groups G W} {s s' : State G W C S}

omit [DecidableEq S] in
theorem sem_of_pushing {t : W ⊕ C} (h : s.pushing t = some s') :
    s'.sem = s.sem + PushPc.released (s.push t) := by
  unfold State.pushing at h
  generalize s.push t = pc at h ⊢
  split at h
  case h_1 => cases h
  case h_5 =>
    obtain rfl := Option.some.inj h
    exact Semaphores.update_add _ _ _
  all_goals
    obtain rfl := Option.some.inj h
    exact (add_zero _).symm

theorem sem_of_clientStep {c : C} (h : s.clientStep tm c = some s') :
    s'.sem = s.sem + (s.client c).released tm := by
  unfold State.clientStep at h
  generalize s.client c = pc at h ⊢
  split at h
  case h_1 | h_2 => cases h
  case h_3 | h_4 =>
    unfold State.beginTest at h
    split at h <;> cases h
    exact (add_zero _).symm
  case h_11 =>
    obtain rfl := Option.some.inj h
    exact Semaphores.update_add _ _ _
  case h_12 =>
    obtain ⟨-, h⟩ := Option.ite_none_right_eq_some.mp h
    obtain rfl := Option.some.inj h
    exact (add_zero _).symm
  all_goals
    obtain rfl := Option.some.inj h
    exact (add_zero _).symm

omit [DecidableEq C] in
/-- Only the acquire of a worker is about its semaphore. -/
theorem sem_of_workerStep {w : W} {pick : Option ℕ} (h : s.workerStep tm w pick = some s') :
    s'.sem + (s.worker w).acquired (tm.group w) = s.sem := by
  unfold State.workerStep at h
  generalize s.worker w = pc at h ⊢
  split at h
  case h_3 =>
    obtain ⟨hpos, h⟩ := Option.ite_none_right_eq_some.mp h
    obtain rfl := Option.some.inj h
    exact Semaphores.update_sub_add hpos
  case h_6 | h_9 =>
    split at h
    · cases h
      exact add_zero _
    · obtain ⟨op, -, h⟩ := Option.map_eq_some_iff.mp h
      first
        | (subst h; exact add_zero _)
        | (split at h <;> subst h <;> exact add_zero _)
  case h_10 | h_11 => split at h <;> cases h <;> exact add_zero _
  case h_13 =>
    obtain ⟨-, h⟩ := Option.ite_none_right_eq_some.mp h
    obtain rfl := Option.some.inj h
    exact add_zero _
  all_goals
    cases h <;> exact add_zero _

theorem sem_of_step {a : Action G W C S} (h : step tm s a = some s') :
    (s.acquired tm a = 0 ∧ s'.sem = s.sem + s.released tm a) ∨
      (s.released tm a = 0 ∧ s'.sem + s.acquired tm a = s.sem) := by
  cases a with
  | pushing t => exact Or.inl ⟨rfl, sem_of_pushing h⟩
  | client c => exact Or.inl ⟨rfl, sem_of_clientStep h⟩
  | worker w pick => exact Or.inr ⟨rfl, sem_of_workerStep h⟩
  | pushTask w g =>
    obtain ⟨-, h⟩ := Option.ite_none_right_eq_some.mp h
    obtain rfl := Option.some.inj h
    exact Or.inl ⟨rfl, (pushTask_worker_sem w g).2.trans (add_zero _).symm⟩
  | execReturn w =>
    change s.execReturn w = some s' at h
    unfold State.execReturn at h
    split at h
    · obtain ⟨-, h⟩ := Option.ite_none_right_eq_some.mp h
      obtain rfl := Option.some.inj h
      exact Or.inl ⟨rfl, (add_zero _).symm⟩
    · cases h
  | push t g state | wait c | fini c | wake c =>
    obtain ⟨-, h⟩ := Option.ite_none_right_eq_some.mp h
    obtain rfl := Option.some.inj h
    exact Or.inl ⟨rfl, (add_zero _).symm⟩

/-- The semaphores of the groups. -/
def semaphores (tm : Groups G W) (C S : Type*) [DecidableEq C] [DecidableEq S] :
    Semaphores (system tm C S) (G → ℕ) where
  counter := State.sem
  released := State.released tm
  acquired := State.acquired tm
  counter_init := by
    rintro s rfl
    rfl
  counter_step _ _ _ := sem_of_step

/-! ## Pushes that nobody answers -/

/-- The call goes from one of its accesses to the next. -/
theorem exists_pushing (tm : Groups G W) {t : W ⊕ C} {g : G} {call : ℕ} {pc pc' : PushPc G S}
    (hnext : (∃ op, pc = .count g op call ∧ pc' = .enqueue g op call) ∨
      (∃ op, pc = .enqueue g op call ∧ pc' = .complete g call) ∨
      (pc = .complete g call ∧ pc' = .release g call)) (hpc : s.push t = some pc) :
    ∃ s', (system tm C S).step s (.pushing t) = some s' ∧ s'.push t = some pc' ∧
      s'.client = s.client ∧ s'.sem = s.sem := by
  have hstep : (system tm C S).step s (.pushing t) = s.pushing t := rfl
  rw [hstep]
  unfold State.pushing
  rw [hpc]
  rcases hnext with ⟨op, rfl, rfl⟩ | ⟨op, rfl, rfl⟩ | ⟨rfl, rfl⟩ <;>
    exact ⟨_, rfl, Function.update_self _ _ _, rfl, rfl⟩

/-- A push of a client, while the workers do nothing. -/
theorem exists_path_push (c : C) (g : G) (hs : s.mayPush (.inr c)) :
    ∃ trace s', (system tm C S).Path (fun u a => u.acquired tm a = 0) s trace s' ∧
      s'.mayPush (.inr c) ∧ s'.sem = s.sem + Pi.single g 1 := by
  let s₁ : State G W C S :=
    { s.pushOp (.inr c) g ⟨s.issued, none⟩ s.issued with issued := s.issued + 1 }
  have h₁ : (system tm C S).step s (.push (.inr c) g none) = some s₁ := if_pos hs
  have hpc₁ : s₁.push (.inr c) = some (.count g ⟨s.issued, none⟩ s.issued) :=
    Function.update_self _ _ _
  obtain ⟨s₂, h₂, hpc₂, hc₂, hsem₂⟩ := exists_pushing tm (Or.inl ⟨_, rfl, rfl⟩) hpc₁
  obtain ⟨s₃, h₃, hpc₃, hc₃, hsem₃⟩ :=
    exists_pushing tm (Or.inr (Or.inl ⟨_, rfl, rfl⟩)) hpc₂
  obtain ⟨s₄, h₄, hpc₄, hc₄, hsem₄⟩ := exists_pushing tm (Or.inr (Or.inr ⟨rfl, rfl⟩)) hpc₃
  let s₅ : State G W C S :=
    { s₄ with
      sem := Function.update s₄.sem g (s₄.sem g + 1)
      push := Function.update s₄.push (.inr c) none
      returned := insert s.issued s₄.returned }
  have h₅ : (system tm C S).step s₄ (.pushing (.inr c)) = some s₅ := by
    show s₄.pushing (.inr c) = some s₅
    unfold State.pushing
    rw [hpc₄]
  have p₁ : (system tm C S).Path (fun u a => u.acquired tm a = 0) s _ s₁ := .single rfl h₁
  have p₅ := (((p₁.snoc rfl h₂).snoc rfl h₃).snoc rfl h₄).snoc rfl h₅
  have hclient : s₅.client = s.client := hc₄.trans (hc₃.trans hc₂)
  have hsem : s₄.sem = s.sem := hsem₄.trans (hsem₃.trans hsem₂)
  refine ⟨_, s₅, p₅, ⟨hclient ▸ hs.1, Function.update_self _ _ _⟩, ?_⟩
  rw [← hsem]
  exact Semaphores.update_add _ _ _

/-- As many pushes of a client as one likes. -/
theorem exists_path_pushes (tm : Groups G W) (S : Type*) [DecidableEq S] (c : C) (g : G) (n : ℕ) :
    ∃ trace s', (system tm C S).Path (fun u a => u.acquired tm a = 0) initial trace s' ∧
      s'.sem = Pi.single g n := by
  obtain ⟨trace, s', p, -, hsem⟩ := Semaphores.exists_path_nsmul (S := semaphores tm C S)
    (R := fun u => u.mayPush (.inr c)) (fun _ hu => exists_path_push c g hu) n
    (⟨rfl, rfl⟩ : (initial : State G W C S).mayPush (.inr c))
  refine ⟨trace, s', p, hsem.trans ?_⟩
  ext k
  by_cases hk : k = g <;> simp [hk, semaphores, initial]

/-- **The exact budget of the task manager**, when a client may push to every group. -/
theorem safeWithin_iff (c : C) {m b : G → ℕ} :
    (semaphores tm C S).SafeWithin m b ↔ b ≤ m := by
  refine Semaphores.safeWithin_iff fun hlt => ?_
  obtain ⟨g, hg⟩ := not_forall.mp hlt
  obtain ⟨trace, s', p, hsem⟩ := exists_path_pushes tm S c g (b g)
  refine ⟨initial, trace, s', rfl, p, fun k => ?_, fun hle => hg ?_⟩
  · show s'.sem k ≤ b k
    rw [hsem]
    by_cases hk : k = g
    · rw [hk, Pi.single_eq_same]
    · rw [Pi.single_eq_of_ne hk]
      exact Nat.zero_le _
  · have h : s'.sem g ≤ m g := hle g
    rwa [hsem, Pi.single_eq_same] at h

end TaskManager
end ThreadUtils
