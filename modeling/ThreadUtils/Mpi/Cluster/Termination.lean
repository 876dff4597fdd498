import ThreadUtils.Mpi.Cluster.Invariant
import ThreadUtils.Transition.Progress

/-!
# A cluster comes to rest

The progress threads do not work for ever: `ucp_worker_wait` sleeps, and it returns for a signal or
a message, of which there are no more than the packages bring about.

## The work

`Process.work` bounds what is left to do on a rank, and a message on the wire is work for the rank
that it goes to.  The thread goes round its loop, so the place where it stands is no measure by
itself: a round is paid for by what ended the sleep, a signal or a message, and the weights are
chosen so that a signal pays for the longest way back to `ucp_worker_wait`.  A package pays for its
send, for the message and for what the message brings about at its destination.

## Polling

In `ucx_request_wait` the thread polls, and nothing bounds the number of its iterations: two ranks
that wait for each other poll for ever.  These steps leave the state and the work as they are, so
they are neither counted nor paid for.  All others that do not come from outside lower the work,
and hence change the state (`step_ne`).

* `comes_to_rest` --- the steps of a run but for the polling are paid for by the packages and the
  other steps that come from outside.
-/

namespace ThreadUtils
namespace Cluster

open Dfg (TypeId)
open Comm (CommNode NodeOk Built RecvStep)

variable {ι D E : Type*} {types : Finset TypeId} {usesRndv : ℕ → Bool} {comm : CommNode E}

/-! ## The work of a rank -/

/-- The work of a message on the wire. -/
def wireWork : ℕ := 17

/-- What `process_recv_ops` has to do, but for the pending entries. -/
def recvWork : Comm.ProgressPc (Parcel ι D) → ℕ
  | .progress => 4
  | .recv _ => 3
  | .wait _ _ => 2
  | .abort => 0

/-- What the thread has to do up to the next sleep. -/
def pcWork (P : Process ι D E) : ℕ :=
  match P.pc with
  | .stopped => 0
  | .wait => if P.inbox.isEmpty then 0 else 7
  | .progress false => 1
  | .check => 2
  | .recvOps => recvWork P.comm.pc
  | .pop => 5
  | .recheck | .onSend _ => 6
  | .progress true | .sendWait _ => 7
  | .send _ => wireWork + 8

/-- What is left to do on a rank. -/
def Process.work (P : Process ι D E) : ℕ :=
  pcWork P + 8 * P.unsignalled + 7 * P.signal.toNat + 21 * P.packageQueue.length +
    9 * P.inbox.length + 2 * P.comm.pending.length

/-- What a step brings to another rank. -/
def Effect.work : Effect ι D → ℕ
  | .send _ => wireWork
  | _ => 0

variable {p : ι} {P P' : Process ι D E} {fetched : Bool}

theorem recvWork_le (pc : Comm.ProgressPc (Parcel ι D)) : recvWork pc ≤ 4 := by
  cases pc <;> simp [recvWork]

/-- A step of `process_recv_ops` lowers the work. -/
theorem work_recvOps (h : Ok types usesRndv p P) (hpc : P.pc = .recvOps)
    {c : Comm.State (Parcel ι D) E} (hc : Comm.stepRecvOps comm P.comm = some c) :
    Process.work { P with comm := c, pc := afterRecvOps c.pc } < P.work := by
  obtain ⟨-, -, hrecv⟩ := h.receives.recvOps hc
  have hold : pcWork P = recvWork P.comm.pc := by rw [pcWork, hpc]
  have hafter : c.pc = .progress → pcWork { P with comm := c, pc := afterRecvOps c.pc } = 2 := by
    intro hprogress
    unfold pcWork
    rw [hprogress]
    rfl
  have hinside : c.pc ≠ .progress →
      pcWork { P with comm := c, pc := afterRecvOps c.pc } = recvWork c.pc := by
    intro hne
    unfold pcWork
    rw [((afterRecvOps_cases c.pc).resolve_left fun heq => hne heq.1).2]
  have hlt : pcWork { P with comm := c, pc := afterRecvOps c.pc } + 2 * c.pending.length <
      pcWork P + 2 * P.comm.pending.length := by
    rw [hold]
    cases hrecv with
    | enter hcpc it hcpc' hpending =>
      rw [hinside (by rw [hcpc']; exact fun heq => by cases heq), hcpc, hcpc', hpending]
      exact Nat.add_lt_add_right (Nat.lt_succ_self 3) _
    | leave it hcpc hcpc' hnil hpending =>
      rw [hafter hcpc', hcpc, hpending, hnil]
      exact Nat.lt_succ_self 2
    | start it hcpc e rest hcons hcpc' hpending =>
      rw [hinside (by rw [hcpc']; exact fun heq => by cases heq), hcpc, hcpc', hpending]
      exact Nat.add_lt_add_right (Nat.lt_succ_self 2) _
    | complete it e rest hcpc hcons hcpc' hpending =>
      have hrecv : c.pc ≠ .progress ∧ recvWork c.pc ≤ 3 := by
        rcases hcpc' with hcpc' | ⟨it', hcpc'⟩ <;> rw [hcpc']
        · exact ⟨(fun heq => by cases heq), Nat.zero_le 3⟩
        · exact ⟨(fun heq => by cases heq), le_rfl⟩
      rw [hinside hrecv.1, hcpc, hpending, hcons, List.length_cons]
      have hle := hrecv.2
      show recvWork c.pc + 2 * rest.length < 2 + 2 * (rest.length + 1)
      omega
  unfold Process.work
  dsimp only at hlt ⊢
  omega

/-- **A step of the progress thread** lowers the work. -/
theorem work_next (h : Ok types usesRndv p P) {r : Process ι D E × Effect ι D}
    (hr : P.next comm usesRndv p fetched = some r) : r.1.work + r.2.work < P.work := by
  unfold Process.next at hr
  cases hpc : P.pc with
  | progress called =>
    rw [hpc] at hr
    cases hr
  | stopped =>
    rw [hpc] at hr
    cases hr
  | check =>
    rw [hpc] at hr
    dsimp only at hr
    split at hr
    all_goals
      obtain rfl := Option.some.inj hr
      simp [Process.work, pcWork, Effect.work, hpc]
  | recheck =>
    rw [hpc] at hr
    dsimp only at hr
    split at hr
    all_goals
      obtain rfl := Option.some.inj hr
      simp [Process.work, pcWork, Effect.work, hpc]
  | wait =>
    rw [hpc] at hr
    dsimp only at hr
    split at hr
    · next hsignal =>
      obtain rfl := Option.some.inj hr
      simp [Process.work, pcWork, Effect.work, hpc, hsignal]
      omega
    · split at hr
      · cases hr
      · next hinbox =>
        obtain rfl := Option.some.inj hr
        simp [Process.work, pcWork, Effect.work, hpc, hinbox]
  | pop =>
    rw [hpc] at hr
    dsimp only at hr
    split at hr
    · obtain rfl := Option.some.inj hr
      have hle := recvWork_le P.comm.pc
      simp [Process.work, pcWork, Effect.work, hpc]
      omega
    · next package rest hqueue =>
      obtain rfl := Option.some.inj hr
      simp [Process.work, pcWork, Effect.work, hpc, hqueue, wireWork]
      omega
  | send package =>
    rw [hpc] at hr
    obtain rfl := Option.some.inj hr
    simp [Process.work, pcWork, Effect.work, hpc, wireWork]
    omega
  | sendWait package =>
    rw [hpc] at hr
    dsimp only at hr
    split at hr
    · cases hr
    · obtain rfl := Option.some.inj hr
      simp [Process.work, pcWork, Effect.work, hpc]
  | onSend package =>
    rw [hpc] at hr
    obtain rfl := Option.some.inj hr
    simp [Process.work, pcWork, Effect.work, hpc]
  | recvOps =>
    rw [hpc] at hr
    obtain ⟨c, hc, rfl⟩ := Option.map_eq_some_iff.mp hr
    have hwork := work_recvOps h hpc hc
    have heffect : (received P.comm.pc).work = 0 := by
      unfold received
      split <;> rfl
    dsimp only
    rw [heffect]
    exact hwork

/-- A call of the handler lowers the work. -/
theorem work_handle (hN : NodeOk types comm) (h : Ok types usesRndv p P)
    (hP' : P.handle comm usesRndv = some P') : P'.work < P.work := by
  unfold Process.handle at hP'
  split at hP'
  · cases hP'
  · next x rest hinbox =>
    split at hP'
    · next hprogresses =>
      obtain rfl := Option.some.inj hP'
      obtain ⟨-, hcpc, -, hpending⟩ := h.receives.handler hN
        (m := x.message usesRndv) (h.inbox x (hinbox ▸ List.mem_cons_self))
        (h.comm_progresses hprogresses)
      have hlength : (Comm.commAmHandler comm P.comm (x.message usesRndv)).pending.length ≤
          P.comm.pending.length + 1 := by
        rw [hpending, List.length_append]
        split <;> simp
      have hpcWork : pcWork
          { P with
            inbox := rest
            comm := Comm.commAmHandler comm P.comm (x.message usesRndv)
            pc := P.pc.called } ≤ pcWork P + 6 := by
        unfold Process.progresses at hprogresses
        unfold pcWork
        cases hpc : P.pc with
        | progress called => cases called <;> simp [Pc.called]
        | sendWait package => exact Nat.le_add_right _ _
        | recvOps =>
          dsimp only [Pc.called]
          rw [hcpc]
          exact Nat.le_add_right _ _
        | _ =>
          rw [hpc] at hprogresses
          cases hprogresses
      unfold Process.work
      dsimp only at hpcWork ⊢
      rw [hinbox, List.length_cons]
      omega
    · cases hP'

/-- The return from `ucp_worker_progress` lowers the work, unless UCX was busy. -/
theorem work_progressed {busy : Bool} (hP' : P.progressed busy = some P') :
    P'.work + (if busy then 0 else 1) ≤ P.work + if busy then 5 else 0 := by
  unfold Process.progressed at hP'
  split at hP'
  · next called hpc =>
    split at hP'
    · next hcalled =>
      obtain rfl := Option.some.inj hP'
      have hold : 6 + (if busy then 0 else 1) ≤ pcWork P + if busy then 5 else 0 := by
        cases called with
        | true =>
          have hold : pcWork P = 7 := by rw [pcWork, hpc]
          rw [hold]
          cases busy <;> decide
        | false =>
          obtain rfl : busy = true := hcalled
          have hold : pcWork P = 1 := by rw [pcWork, hpc]
          rw [hold]
          decide
      have hnew : pcWork { P with pc := .recheck } = 6 := rfl
      unfold Process.work
      rw [hnew]
      dsimp only
      omega
    · next hcalled =>
      split at hP'
      · next hinbox =>
        obtain rfl := Option.some.inj hP'
        obtain ⟨rfl, rfl⟩ : called = false ∧ busy = false := by
          cases called <;> cases busy <;> first | exact ⟨rfl, rfl⟩ | exact absurd rfl hcalled
        have hold : pcWork P = 1 := by rw [pcWork, hpc]
        have hnew : pcWork { P with pc := .wait } = 0 := if_pos hinbox
        unfold Process.work
        rw [hold, hnew]
        dsimp only
        rw [if_neg Bool.false_ne_true, if_neg Bool.false_ne_true]
        omega
      · cases hP'
  · cases hP'

/-- A message that arrives wakes the thread. -/
theorem work_arrive (P : Process ι D E) (x : Parcel ι D) :
    Process.work { P with inbox := P.inbox ++ [x] } ≤ P.work + 16 := by
  have hpcWork : pcWork { P with inbox := P.inbox ++ [x] } ≤ pcWork P + 7 := by
    unfold pcWork
    cases P.pc with
    | progress called => cases called <;> exact Nat.le_add_right _ _
    | wait =>
      dsimp only
      split <;> split <;> omega
    | _ => exact Nat.le_add_right _ _
  unfold Process.work
  dsimp only
  rw [List.length_append, List.length_singleton]
  omega

/-! ## The work of the cluster -/

variable [DecidableEq ι] [Fintype ι] {s s' : State ι D E} {node : ι → CommNode E}

/-- What is left to do. -/
def State.work (s : State ι D E) : ℕ :=
  ∑ p, (s.proc p).work + wireWork * ∑ p, (s.wire p).length

/-- The work after a step of a rank. -/
theorem work_apply (s : State ι D E) (p : ι) (P' : Process ι D E) (effect : Effect ι D) :
    (s.apply p P' effect).work + (s.proc p).work = s.work + P'.work + effect.work := by
  have hproc := sum_update_exchange Process.work s.proc p P'
  cases effect with
  | quiet | receive src =>
    show ∑ q, (Function.update s.proc p P' q).work + wireWork * ∑ q, (s.wire q).length + _ =
      ∑ q, (s.proc q).work + wireWork * ∑ q, (s.wire q).length + _ + 0
    omega
  | send x =>
    have hwire := sum_update_exchange List.length s.wire x.package.dest
      (s.wire x.package.dest ++ [x])
    rw [List.length_append, List.length_singleton] at hwire
    show ∑ q, (Function.update s.proc p P' q).work + wireWork * ∑ q, (Function.update s.wire
        x.package.dest (s.wire x.package.dest ++ [x]) q).length + _ =
      ∑ q, (s.proc q).work + wireWork * ∑ q, (s.wire q).length + _ + wireWork
    rw [show ∑ q, (Function.update s.wire x.package.dest (s.wire x.package.dest ++ [x]) q).length =
      ∑ q, (s.wire q).length + 1 by omega, Nat.mul_add]
    omega

/-- What a step of a rank gains or costs there, it gains or costs the cluster. -/
theorem work_apply_le {p : ι} {P' : Process ι D E} {effect : Effect ι D} {n k : ℕ}
    (h : P'.work + effect.work + n ≤ (s.proc p).work + k) :
    (s.apply p P' effect).work + n ≤ s.work + k := by
  have happly := work_apply s p P' effect
  omega

/-- **The account of a step.**  A step of the cluster itself lowers the work, unless it polls, and
one from outside adds a little. -/
theorem work_step (hN : ∀ p, NodeOk types (node p)) (hI : Inv types usesRndv s) {a : Action ι D}
    (h : step types node usesRndv s a = some s') :
    s'.work + (if a.isOwn then 1 else 0) ≤ s.work + if a.isOutside then 29 else 0 := by
  cases a with
  | push p package =>
    simp only [step] at h
    split at h
    · obtain rfl := Option.some.inj h
      refine work_apply_le (n := 0) (k := 29) ?_
      simp only [Process.work, pcWork, Effect.work, List.length_append, List.length_singleton]
      omega
    · cases h
  | destroy p =>
    obtain rfl := Option.some.inj h
    refine work_apply_le (n := 0) (k := 29) ?_
    simp only [Process.work, pcWork, Effect.work]
    omega
  | signal p =>
    simp only [step] at h
    split at h
    · cases h
    · next m hunsignalled =>
      obtain rfl := Option.some.inj h
      refine work_apply_le (n := 1) (k := 0) ?_
      simp only [Process.work, pcWork, Effect.work, hunsignalled, Bool.toNat_true]
      omega
  | event p =>
    obtain rfl := Option.some.inj h
    refine work_apply_le (n := 0) (k := 29) ?_
    simp only [Process.work, pcWork, Effect.work, Bool.toNat_true]
    omega
  | arrive p k =>
    obtain ⟨x, hx, rfl⟩ := Option.map_eq_some_iff.mp h
    obtain ⟨hk, -⟩ := List.getElem?_eq_some_iff.mp hx
    have hwire := sum_update_exchange List.length s.wire p ((s.wire p).eraseIdx k)
    rw [List.length_eraseIdx_of_lt hk] at hwire
    have hproc : ∀ P' : Process ι D E, P'.work ≤ (s.proc p).work + 16 →
        ∑ q, (Function.update s.proc p P' q).work + 17 * ∑ q,
          (Function.update s.wire p ((s.wire p).eraseIdx k) q).length + 1 ≤
        ∑ q, (s.proc q).work + 17 * ∑ q, (s.wire q).length := by
      intro P' hle
      have hsum := sum_update_exchange Process.work s.proc p P'
      omega
    exact hproc _ (work_arrive (s.proc p) x)
  | handle p =>
    obtain ⟨P', hP', rfl⟩ := Option.map_eq_some_iff.mp h
    exact work_apply_le (n := 1) (k := 0) (work_handle (hN p) (hI.ok p) hP')
  | progressed p busy =>
    obtain ⟨P', hP', rfl⟩ := Option.map_eq_some_iff.mp h
    have hwork := work_progressed hP'
    cases busy with
    | true =>
      exact work_apply_le (n := 0) (k := 29) (hwork.trans (Nat.add_le_add_left (by decide) _))
    | false => exact work_apply_le (n := 1) (k := 0) hwork
  | poll p =>
    rw [eq_of_step_poll h]
    exact le_rfl
  | step p =>
    obtain ⟨⟨P', effect⟩, hr, rfl⟩ := Option.map_eq_some_iff.mp h
    exact work_apply_le (n := 1) (k := 0) (work_next (hI.ok p) hr)

/-- A step of the cluster itself, but for polling, changes something. -/
theorem step_ne (hN : ∀ p, NodeOk types (node p)) (hI : Inv types usesRndv s) {a : Action ι D}
    (hown : a.isOwn = true) (h : step types node usesRndv s a = some s') : s' ≠ s := by
  have hwork := work_step hN hI h
  rw [hown, Action.isOutside_of_isOwn hown, if_pos rfl, if_neg Bool.false_ne_true] at hwork
  rintro rfl
  exact absurd hwork (Nat.not_succ_le_self _)

/-- **A cluster comes to rest**, but for polling.  In a run from the start the cluster makes no more
than two steps of its own for each rank and 29 for each step from outside, a package being one. -/
theorem comes_to_rest (hbuilt : ∀ p, Built types (node p))
    {trace : List (TransitionSystem.Transition (State ι D E) (Action ι D))}
    (hpath : (system D types node usesRndv).Path (fun _ _ => True) initial trace s) :
    trace.countP (fun t => t.action.isOwn) ≤
      2 * Fintype.card ι + trace.countP (fun t => t.action.isOutside) * 29 := by
  have hN := fun p => Comm.nodeOk_of_built (hbuilt p)
  have hinv := (hpath.with_invariant (J := Inv types usesRndv) inv_initial
    fun _ _ _ hI _ hstep => inv_step hN hI hstep).1
  have hcount := hinv.countP_add_le State.work (fun t => t.action.isOwn)
    (fun t => t.action.isOutside) 29 fun u a u' hok hstep => work_step hN hok.2 hstep
  have hstart : State.work (initial : State ι D E) = 2 * Fintype.card ι := by
    show ∑ _p : ι, 2 + wireWork * ∑ _p : ι, 0 = _
    rw [Finset.sum_const_nat fun _ _ => rfl, Finset.sum_const_zero, Finset.card_univ, Nat.mul_comm]
    rfl
  omega

/-! ## Two ranks -/

/-- Data of more than 64 bytes is sent by rendezvous. -/
def large (size : ℕ) : Bool :=
  64 < size

/-- What a rank does to send one package, up to the wait for its request. -/
def sendOne (p : Fin 2) (package : Package (Fin 2) ℕ) : List (Action (Fin 2) ℕ) :=
  [.push p package, .signal p, .step p, .progressed p false, .step p, .step p, .step p, .step p]

/-- A small package from one rank to the other, behind which both start their loops again. -/
def sendSmall : List (Action (Fin 2) ℕ) :=
  sendOne 0 ⟨9, 4, 0, 1, true⟩ ++
    [.poll 0, .step 0, .step 0, .step 0, .step 0, .step 0, .step 1, .arrive 1 0, .handle 1,
      .progressed 1 false, .step 1, .step 1, .step 1, .step 1]

/-- Two ranks that send each other a large package after that, and poll. -/
def sendEachOther : List (Action (Fin 2) ℕ) :=
  sendSmall ++ sendOne 0 ⟨10, 100, 1, 1, true⟩ ++ sendOne 1 ⟨11, 100, 1, 0, true⟩ ++
    [.arrive 0 0, .arrive 1 0, .handle 0, .handle 1, .poll 0, .poll 1]

theorem comes_to_rest_deadlocked :
    let trace := (system ℕ {0, 1} (fun _ => Comm.zeroAndOne) large).traceOf initial sendEachOther
    (trace.length = 44 ∧ trace.countP (fun t => t.action.isOwn) = 38 ∧
      trace.countP (fun t => t.action.isOutside) = 3) ∧
      trace.countP (fun t => t.action.isOwn) ≤
        2 * Fintype.card (Fin 2) + trace.countP (fun t => t.action.isOutside) * 29 :=
  ⟨by decide, comes_to_rest (fun _ => Comm.built_zeroAndOne)
    (TransitionSystem.Path.replay sendEachOther (by decide))⟩

end Cluster
end ThreadUtils
