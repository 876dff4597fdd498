import ThreadUtils.TaskManager.Ledger

/-!
# What a step does to the clients

The pushes and the workers do not touch the clients, with one exception: `notify_all`
moves the blocked clients to the lock of the mutex.  A client touches neither the
ledger nor, but for the mutex, the other clients.

An invariant about waiting clients has to hold over the steps of all threads.  With
`clients_of_step` only two cases are left to look at: a step that leaves the clients as they are, or
wakes them, and a step of one client, which `ClientMove` describes by what it has read.  The client
returns after it has read `0`, and it blocks after it has met a worker that was not parked or a
counter that was not `0`; but between the reading of the flags and the return many steps of others
may lie, so `ClientMove` speaks of the state at the access itself.
-/

namespace ThreadUtils
namespace TaskManager

variable {G W C S : Type*}

/-- A step that does not touch the clients. -/
structure SameClients (s s' : State G W C S) : Prop where
  client : s'.client = s.client
  mutex : s'.mutex = s.mutex
  seen : s'.seen = s.seen
  canTerminate : s'.canTerminate = s.canTerminate

variable {tm : Groups G W} {s s' : State G W C S}

theorem sameClients_pushTask [DecidableEq G] [DecidableEq W] [DecidableEq C] (w : W) (g : G) :
    SameClients s (s.pushTask tm w g) := by
  rw [State.pushTask]
  split
  · exact ⟨rfl, rfl, rfl, rfl⟩
  · split <;> exact ⟨rfl, rfl, rfl, rfl⟩

theorem sameClients_pushing [DecidableEq G] [DecidableEq W] [DecidableEq C] {t : W ⊕ C}
    (h : s.pushing t = some s') : SameClients s s' := by
  unfold State.pushing at h
  split at h <;> cases h <;> exact ⟨rfl, rfl, rfl, rfl⟩

theorem sameClients_execReturn [DecidableEq W] {w : W} (h : s.execReturn w = some s') :
    SameClients s s' := by
  unfold State.execReturn at h
  split at h
  · split at h <;> cases h
    exact ⟨rfl, rfl, rfl, rfl⟩
  · cases h

/-- The state after `notify_all`. -/
def State.notified [DecidableEq G] [DecidableEq W] (s : State G W C S) (w : W) : State G W C S :=
  { s with
    client := fun c => if s.client c = .blocked then .relock else s.client c
    worker := Function.update s.worker w .acquire }

theorem clients_of_workerStep [DecidableEq G] [DecidableEq W] [DecidableEq S] {w : W}
    {pick : Option ℕ} (h : s.workerStep tm w pick = some s') :
    SameClients s s' ∨ (s.worker w = .notify ∧ s' = s.notified w) := by
  unfold State.workerStep at h
  split at h
  case h_2 =>
    next hpc => exact Or.inr ⟨hpc, (Option.some.inj h).symm⟩
  all_goals refine Or.inl ?_
  case h_3 | h_13 =>
    split at h <;> cases h
    exact ⟨rfl, rfl, rfl, rfl⟩
  case h_6 | h_9 =>
    split at h
    · cases h
      exact ⟨rfl, rfl, rfl, rfl⟩
    · obtain ⟨op, -, h⟩ := Option.map_eq_some_iff.mp h
      first
        | (subst h; exact ⟨rfl, rfl, rfl, rfl⟩)
        | (split at h <;> subst h <;> exact ⟨rfl, rfl, rfl, rfl⟩)
  case h_10 | h_11 => split at h <;> cases h <;> exact ⟨rfl, rfl, rfl, rfl⟩
  all_goals cases h <;> exact ⟨rfl, rfl, rfl, rfl⟩

/-! ## The steps of a client -/

/-- How a client comes to leave `tu_tm_wait_completion`, or to block in it. -/
structure ClientMove (tm : Groups G W) (s s' : State G W C S) (c : C) : Prop where
  toLedger : s'.toLedger = s.toLedger
  parked : s'.parked = s.parked
  sem : ∀ g, s.sem g ≤ s'.sem g
  other : ∀ c' ≠ c, s'.client c' = s.client c' ∧ s'.seen c' = s.seen c'
  seen : s'.seen c = s.seen c ∨ s'.seen c = s.returned ∧ s'.client c = .waitTest tm.allWorkers
  /-- It returns after it has read `0`. -/
  waitReturn : s'.client c = .waitReturn → s.operationCounter = 0
  /-- It blocks after a worker was not parked, or the counter was not `0`. -/
  waitBlock : s'.client c = .waitBlock →
    (∃ w, s.parked w = false) ∨ s.operationCounter ≠ 0
  blocked : s'.client c = .blocked → s.client c = .waitBlock

theorem finiNext_ne (tm : Groups G W) (groups : List G) :
    finiNext tm groups ≠ .waitReturn ∧ finiNext tm groups ≠ .waitBlock ∧
      finiNext tm groups ≠ .blocked := by
  cases groups <;> exact ⟨by simp [finiNext], by simp [finiNext],
    by simp [finiNext]⟩

/-- A client whose program counter becomes `q`, with the facts `ClientMove` asks for. -/
theorem ClientMove.of_pc [DecidableEq C] {c : C} {q : ClientPc G W} (ht : s'.toLedger = s.toLedger)
    (hp : s'.parked = s.parked) (hsem : ∀ g, s.sem g ≤ s'.sem g) (hs : s'.seen = s.seen)
    (hc : s'.client = Function.update s.client c q)
    (hreturn : q = .waitReturn → s.operationCounter = 0)
    (hblock : q = .waitBlock → (∃ w, s.parked w = false) ∨ s.operationCounter ≠ 0)
    (hblocked : q = .blocked → s.client c = .waitBlock) : ClientMove tm s s' c := by
  have hself : s'.client c = q := by rw [hc, Function.update_self]
  refine ⟨ht, hp, hsem, fun c' hne => ⟨?_, ?_⟩, Or.inl ?_, ?_, ?_, ?_⟩
  · rw [hc, Function.update_of_ne hne]
  · rw [hs]
  · rw [hs]
  · rw [hself]
    exact hreturn
  · rw [hself]
    exact hblock
  · rw [hself]
    exact hblocked

/-- The begin of an evaluation of the predicate. -/
theorem clientMove_beginTest [DecidableEq C] {c : C} (h : s.beginTest tm c = some s') :
    ClientMove tm s s' c := by
  unfold State.beginTest at h
  split at h
  · cases h
  · obtain rfl := Option.some.inj h
    have hself : Function.update s.client c (.waitTest tm.allWorkers) c =
      .waitTest tm.allWorkers := Function.update_self _ _ _
    refine ⟨rfl, rfl, fun _ => le_rfl, fun c' hne => ⟨Function.update_of_ne hne _ _,
      Function.update_of_ne hne _ _⟩, Or.inr ⟨Function.update_self _ _ _, hself⟩,
      fun hq => ?_, fun hq => ?_, fun hq => ?_⟩
    all_goals exact absurd (hself.symm.trans hq) (by simp)

section Steps

variable [DecidableEq G] [DecidableEq W] [DecidableEq C] [DecidableEq S]

theorem clientMove_clientStep {c : C} (h : s.clientStep tm c = some s') :
    ClientMove tm s s' c := by
  unfold State.clientStep at h
  split at h
  case h_1 | h_2 => cases h
  case h_3 | h_4 => exact clientMove_beginTest h
  case h_5 =>
    next w rest hpc =>
    obtain rfl := Option.some.inj h
    refine .of_pc rfl rfl (fun _ => le_rfl) rfl rfl (fun hq => ?_) (fun hq => ?_) fun hq => ?_
    · split at hq <;> cases hq
    · split at hq
      · cases hq
      · next hparked => exact Or.inl ⟨w, Bool.not_eq_true _ ▸ hparked⟩
    · split at hq <;> cases hq
  case h_6 =>
    next hpc =>
    obtain rfl := Option.some.inj h
    refine .of_pc rfl rfl (fun _ => le_rfl) rfl rfl (fun hq => ?_) (fun hq => ?_) fun hq => ?_
    · split at hq
      · next hzero => exact hzero
      · cases hq
    · split at hq
      · cases hq
      · next hzero => exact Or.inr hzero
    · split at hq <;> cases hq
  case h_7 =>
    next hpc =>
    obtain rfl := Option.some.inj h
    exact .of_pc rfl rfl (fun _ => le_rfl) rfl rfl (by simp) (by simp) fun _ => hpc
  case h_11 =>
    obtain rfl := Option.some.inj h
    refine .of_pc rfl rfl (fun g => ?_) rfl rfl (by simp) (by simp) (by simp)
    exact le_update_add _ _ _ g
  case h_12 =>
    split at h
    · obtain rfl := Option.some.inj h
      exact .of_pc rfl rfl (fun _ => le_rfl) rfl rfl (by simp) (by simp) (by simp)
    · cases h
  case h_13 =>
    next groups hpc =>
    obtain rfl := Option.some.inj h
    obtain ⟨h₁, h₂, h₃⟩ := finiNext_ne tm groups
    exact .of_pc rfl rfl (fun _ => le_rfl) rfl rfl (fun hq => absurd hq h₁) (fun hq => absurd hq h₂)
      fun hq => absurd hq h₃
  all_goals
    obtain rfl := Option.some.inj h
    exact .of_pc rfl rfl (fun _ => le_rfl) rfl rfl (by simp) (by simp) (by simp)

/-! ## All steps -/

/-- The action is one of the client `c`. -/
def Action.ofClient (c : C) : Action G W C S → Prop
  | .wait c' | .fini c' | .client c' | .wake c' => c' = c
  | _ => False

theorem clientMove_of_step {a : Action G W C S} {c : C} (h : step tm s a = some s')
    (hact : a.ofClient c) : ClientMove tm s s' c := by
  cases a with
  | wait c' =>
    obtain rfl : c' = c := hact
    rw [step] at h
    split at h
    · obtain rfl := Option.some.inj h
      exact .of_pc rfl rfl (fun _ => le_rfl) rfl rfl (by simp) (by simp) (by simp)
    · cases h
  | fini c' =>
    obtain rfl : c' = c := hact
    rw [step] at h
    split at h
    · obtain rfl := Option.some.inj h
      obtain ⟨h₁, h₂, h₃⟩ := finiNext_ne tm tm.groups
      exact .of_pc rfl rfl (fun _ => le_rfl) rfl rfl (fun hq => absurd hq h₁)
        (fun hq => absurd hq h₂) fun hq => absurd hq h₃
    · cases h
  | client c' =>
    obtain rfl : c' = c := hact
    exact clientMove_clientStep h
  | wake c' =>
    obtain rfl : c' = c := hact
    rw [step] at h
    split at h
    · obtain rfl := Option.some.inj h
      exact .of_pc rfl rfl (fun _ => le_rfl) rfl rfl (by simp) (by simp) (by simp)
    · cases h
  | _ => exact hact.elim

/-- **Who touches the clients**: nobody, a worker that notifies, or a client itself. -/
theorem clients_of_step {a : Action G W C S} (h : step tm s a = some s') :
    SameClients s s' ∨ (∃ w pick, a = .worker w pick ∧ s.worker w = .notify ∧ s' = s.notified w) ∨
      ∃ c, a.ofClient c ∧ ClientMove tm s s' c := by
  cases a with
  | push t g state =>
    rw [step] at h
    split at h
    · cases h
      exact Or.inl ⟨rfl, rfl, rfl, rfl⟩
    · cases h
  | pushTask w g =>
    rw [step] at h
    split at h
    · cases h
      exact Or.inl (sameClients_pushTask w g)
    · cases h
  | pushing t => exact Or.inl (sameClients_pushing h)
  | execReturn w => exact Or.inl (sameClients_execReturn h)
  | worker w pick =>
    rcases clients_of_workerStep h with hsame | ⟨hpc, hs'⟩
    · exact Or.inl hsame
    · exact Or.inr (Or.inl ⟨w, pick, rfl, hpc, hs'⟩)
  | wait c => exact Or.inr (Or.inr ⟨c, rfl, clientMove_of_step h rfl⟩)
  | fini c => exact Or.inr (Or.inr ⟨c, rfl, clientMove_of_step h rfl⟩)
  | client c => exact Or.inr (Or.inr ⟨c, rfl, clientMove_of_step h rfl⟩)
  | wake c => exact Or.inr (Or.inr ⟨c, rfl, clientMove_of_step h rfl⟩)

end Steps

end TaskManager
end ThreadUtils
