import Mathlib.Data.Multiset.Filter
import ThreadUtils.Mpi.Cluster.Model
import ThreadUtils.Transition.Accounting

/-!
# What holds on the ranks and between them

A progress thread that sleeps, or is on its way to `ucp_worker_wait`, has left nothing in
`rndv_queue`, and a package in `package_queue` has its signal still to come (`Ok`).  Between the
ranks two accounts hold: a message that was sent is on the wire, has arrived or was handled, and a
rank that waits for a rendezvous send has its message underway, while nobody else has one.

## On one rank

`Ok` follows a package through the sending half: it is pushed, taken out of the queue, sent and
completed, in this order, and `on_send` is called for those that ask for it.  For the receiving half
it says what holds of the queue of entries whatever the types are (`Receives`).  Two
fields are about sleeping.  A thread that has passed `process_send_ops` may find a package in the
queue that came too late, but then the signal of its push is there or will be (`awake`);
and in the same way the end is not slept on (`leaving`).

## Between the ranks

The account of the messages is kept for each receiving rank over all senders (`Inv.sent`).  The
account of the rendezvous is kept for each pair of ranks (`Inv.answered`): the rendezvous messages
of one rank to another whose data is not received are those that the sender waits for, and as it
sends nothing while it waits, there is one at most.  This is what the wait graph of the ranks is
read off from.

A step is one of a single rank, or it moves one message from one rank to another.  `Does` and
`Effect` say what a rank does with the messages, so the steps of the progress thread, which are
many, come down to a few cases for the accounts.
-/

namespace ThreadUtils
namespace Cluster

open Dfg (TypeId)
open Comm (CommNode NodeOk Receives RecvStep)

variable {ι D E : Type*}

/-! ## A rank -/

/-- The package that was taken out of the queue and not sent. -/
def Pc.toSend : Pc ι D → List (Package ι D)
  | .send package => [package]
  | _ => []

/-- The package that was sent and not completed. -/
def Pc.sending : Pc ι D → List (Package ι D)
  | .sendWait package | .onSend package => [package]
  | _ => []

/-- From the end of `process_recv_ops` to the next call of the handler. -/
def Pc.drained : Pc ι D → Bool
  | .check | .progress false | .wait => true
  | _ => false

/-- From the end of `process_send_ops` to the return from `ucp_worker_wait`. -/
def Pc.behindSends : Pc ι D → Bool
  | .recvOps | .check | .progress _ | .wait => true
  | _ => false

/-- Between the two loads of `can_terminate`. -/
def Pc.behindCheck : Pc ι D → Bool
  | .progress _ | .wait => true
  | _ => false

/-- A signal has been given or will be. -/
def Process.Alert (P : Process ι D E) : Prop :=
  P.signal = true ∨ 0 < P.unsignalled

/-- What holds of the rank `p` between the steps. -/
structure Ok (types : Finset TypeId) (usesRndv : ℕ → Bool) (p : ι) (P : Process ι D E) : Prop where
  receives : Receives P.comm
  outside : P.comm.pc = .progress ∨ P.pc = .recvOps
  fifo : P.pushed = P.sent ++ P.pc.toSend ++ P.packageQueue
  answered : P.sent = P.completed ++ P.pc.sending
  onSend : P.onSendCalls = P.completed.filter Package.onSend
  packages : ∀ x ∈ P.pushed, x.dest ≠ p ∧ x.type ∈ types
  inbox : ∀ x ∈ P.inbox, x.package.type ∈ types
  rndv : ∀ e ∈ P.comm.pending, ∃ x, e.desc = some x ∧ usesRndv x.package.size = true
  drained : P.pc.drained = true → P.comm.pending = []
  /-- A package behind the loop is not slept on. -/
  awake : P.pc.behindSends = true → P.packageQueue ≠ [] → P.Alert
  /-- The end is not slept on. -/
  leaving : P.pc.behindCheck = true → P.canTerminate = true → P.Alert

/-- The messages whose data is still to be received. -/
def Process.parcels (P : Process ι D E) : List (Parcel ι D) :=
  P.comm.pending.filterMap Comm.RndvData.desc

/-- The message that a rank waits for. -/
def Process.unanswered (usesRndv : ℕ → Bool) (p : ι) (fetched : Bool) (P : Process ι D E) :
    Multiset (Parcel ι D) :=
  match P.pc with
  | .sendWait package => if usesRndv package.size && !fetched then {⟨p, package⟩} else 0
  | _ => 0

variable {types : Finset TypeId} {usesRndv : ℕ → Bool} {comm : CommNode E} {p : ι}
variable {P P' : Process ι D E} {fetched : Bool} {effect : Effect ι D}

theorem ok_initial (types : Finset TypeId) (usesRndv : ℕ → Bool) (p : ι) :
    Ok types usesRndv p (Process.initial : Process ι D E) where
  receives := Comm.receives_initial
  outside := Or.inl rfl
  fifo := rfl
  answered := rfl
  onSend := rfl
  packages _ hx := absurd hx List.not_mem_nil
  inbox _ hx := absurd hx List.not_mem_nil
  rndv _ he := absurd he List.not_mem_nil
  drained _ := rfl
  awake _ hne := absurd rfl hne
  leaving hpc := by cases hpc

/-- Outside of `process_recv_ops` the receiving half is at rest. -/
theorem Ok.comm_progress (h : Ok types usesRndv p P) (hpc : P.pc ≠ .recvOps) :
    P.comm.pc = .progress :=
  h.outside.resolve_right hpc

/-- What a step of a rank does with the messages. -/
inductive Does (usesRndv : ℕ → Bool) (p : ι) (fetched : Bool) (P P' : Process ι D E) :
    Effect ι D → Prop
  | quiet (sent : P'.sent = P.sent) (inbox : P'.inbox = P.inbox)
      (handled : P'.comm.handled = P.comm.handled) (pending : P'.comm.pending = P.comm.pending)
      (unanswered : P'.unanswered usesRndv p fetched = P.unanswered usesRndv p fetched) :
      Does usesRndv p fetched P P' .quiet
  | send (package : Package ι D) (mem : package ∈ P.pushed) (pc : P.pc = .send package)
      (pc' : P'.pc = .sendWait package) (sent : P'.sent = P.sent ++ [package])
      (inbox : P'.inbox = P.inbox) (handled : P'.comm.handled = P.comm.handled)
      (pending : P'.comm.pending = P.comm.pending) :
      Does usesRndv p fetched P P' (.send ⟨p, package⟩)
  | receive (x : Parcel ι D) (rndv : usesRndv x.package.size = true) (pc : P.pc = .recvOps)
      (sent : P'.sent = P.sent) (inbox : P'.inbox = P.inbox)
      (handled : P'.comm.handled = P.comm.handled) (parcels : P.parcels = x :: P'.parcels)
      (pc' : ∀ f, P'.unanswered usesRndv p f = 0) :
      Does usesRndv p fetched P P' (.receive x.src)

/-- Behind a step of `process_recv_ops` there is nothing to send. -/
theorem afterRecvOps_cases (pc : Comm.ProgressPc (Parcel ι D)) :
    pc = .progress ∧ afterRecvOps pc = .check ∨
      (pc ≠ .progress ∧ afterRecvOps pc = (.recvOps : Pc ι D)) := by
  cases pc with
  | progress => exact Or.inl ⟨rfl, rfl⟩
  | _ => exact Or.inr ⟨(fun h => by cases h), rfl⟩

theorem unanswered_afterRecvOps (c : Comm.State (Parcel ι D) E) (fetched : Bool) :
    Process.unanswered usesRndv p fetched { P with comm := c, pc := afterRecvOps c.pc } = 0 := by
  rcases afterRecvOps_cases c.pc with ⟨-, h⟩ | ⟨-, h⟩ <;> rw [h] <;> rfl

/-- A step of `process_recv_ops` leaves a rank all right. -/
theorem Ok.afterRecvOps (h : Ok types usesRndv p P) (hpc : P.pc = .recvOps)
    {c : Comm.State (Parcel ι D) E} (hreceives : Receives c) (hsub : c.pending ⊆ P.comm.pending)
    (hnil : c.pc = .progress → c.pending = []) :
    Ok types usesRndv p { P with comm := c, pc := Cluster.afterRecvOps c.pc } := by
  have hfifo := h.fifo
  have hanswered := h.answered
  have hawake := h.awake
  rw [hpc] at hfifo hanswered hawake
  have hrndv : ∀ e ∈ c.pending, ∃ x, e.desc = some x ∧ usesRndv x.package.size = true :=
    fun e he => h.rndv e (hsub he)
  rcases afterRecvOps_cases c.pc with ⟨hprogress, hafter⟩ | ⟨-, hafter⟩
  · rw [hafter]
    exact
      { h with
        receives := hreceives
        outside := Or.inl hprogress
        fifo := hfifo
        answered := hanswered
        rndv := hrndv
        drained := fun _ => hnil hprogress
        awake := fun _ => hawake rfl
        leaving := fun hcheck => by cases hcheck }
  · rw [hafter]
    exact
      { h with
        receives := hreceives
        outside := Or.inr rfl
        fifo := hfifo
        answered := hanswered
        rndv := hrndv
        drained := fun hdrained => by cases hdrained
        awake := fun _ => hawake rfl
        leaving := fun hcheck => by cases hcheck }

/-- **A step of `process_recv_ops`** receives the data of at most one message. -/
theorem Ok.recvOps (h : Ok types usesRndv p P) (hpc : P.pc = .recvOps)
    {c : Comm.State (Parcel ι D) E} (hc : Comm.stepRecvOps comm P.comm = some c) :
    Ok types usesRndv p { P with comm := c, pc := Cluster.afterRecvOps c.pc } ∧
      Does usesRndv p fetched P { P with comm := c, pc := Cluster.afterRecvOps c.pc }
        (received P.comm.pc) := by
  obtain ⟨hreceives, hhandled, hrecv⟩ := h.receives.recvOps hc
  have hzero : P.unanswered usesRndv p fetched = 0 := by rw [Process.unanswered, hpc]
  have hquiet : c.pending = P.comm.pending →
      Does usesRndv p fetched P { P with comm := c, pc := Cluster.afterRecvOps c.pc } .quiet :=
    fun hpending => .quiet rfl rfl hhandled hpending
      ((unanswered_afterRecvOps c fetched).trans hzero.symm)
  cases hrecv with
  | enter hcpc it hcpc' hpending =>
    rw [hcpc]
    refine ⟨h.afterRecvOps hpc hreceives (fun _ he => hpending ▸ he) fun hprogress => ?_,
      hquiet hpending⟩
    cases hprogress.symm.trans hcpc'
  | leave it hcpc hcpc' hnil hpending =>
    rw [hcpc]
    exact ⟨h.afterRecvOps hpc hreceives (hpending ▸ List.nil_subset _) fun _ => hpending,
      hquiet (hpending.trans hnil.symm)⟩
  | start it hcpc e rest hcons hcpc' hpending =>
    rw [hcpc]
    refine ⟨h.afterRecvOps hpc hreceives (fun _ he => hpending ▸ he) fun hprogress => ?_,
      hquiet hpending⟩
    cases hprogress.symm.trans hcpc'
  | complete it e rest hcpc hcons hcpc' hpending =>
    obtain ⟨x, hx, hrndv⟩ := h.rndv e (hcons ▸ List.mem_cons_self)
    rw [hcpc, hx]
    refine ⟨h.afterRecvOps hpc hreceives ?_ fun hprogress => ?_,
      .receive x hrndv hpc rfl rfl hhandled ?_ fun f => unanswered_afterRecvOps c f⟩
    · rw [hpending, hcons]
      exact List.subset_cons_self _ _
    · rcases hcpc' with hcpc' | ⟨it', hcpc'⟩ <;> cases hprogress.symm.trans hcpc'
    · rw [Process.parcels, Process.parcels, hpending, hcons, List.filterMap_cons_some hx]

/-- A step that takes the thread from one access to the next. -/
theorem Ok.goto (h : Ok types usesRndv p P) {q : Pc ι D} (hpc : P.pc = q) (pc : Pc ι D)
    (houtside : P.comm.pc = .progress ∨ pc = .recvOps) (htoSend : pc.toSend = q.toSend)
    (hsending : pc.sending = q.sending) (hdrained : pc.drained = true → P.comm.pending = [])
    (hawake : pc.behindSends = true → P.packageQueue ≠ [] → P.Alert)
    (hleaving : pc.behindCheck = true → P.canTerminate = true → P.Alert) :
    Ok types usesRndv p { P with pc := pc } :=
  { h with
    outside := houtside
    fifo := by
      dsimp only
      rw [htoSend, ← hpc]
      exact h.fifo
    answered := by
      dsimp only
      rw [hsending, ← hpc]
      exact h.answered
    drained := hdrained
    awake := hawake
    leaving := hleaving }

/-- Nobody is waited for, unless in `ucx_request_wait` for a send. -/
theorem unanswered_eq_zero (hpc : ∀ package, P.pc = .sendWait package →
    (usesRndv package.size && !fetched) = false) : P.unanswered usesRndv p fetched = 0 := by
  rw [Process.unanswered]
  split
  · next package heq => rw [hpc package heq, if_neg Bool.false_ne_true]
  · rfl

/-- **A step of the progress thread.** -/
theorem Ok.next (h : Ok types usesRndv p P) {r : Process ι D E × Effect ι D}
    (hr : P.next comm usesRndv p fetched = some r) :
    Ok types usesRndv p r.1 ∧ Does usesRndv p fetched P r.1 r.2 := by
  -- a step that sends and receives nothing
  have hquiet : ∀ P' : Process ι D E, P'.sent = P.sent → P'.inbox = P.inbox → P'.comm = P.comm →
      (∀ package, P.pc = .sendWait package → (usesRndv package.size && !fetched) = false) →
      (∀ package, P'.pc ≠ .sendWait package) → Does usesRndv p fetched P P' .quiet := by
    intro P' hsent hinbox hcomm hpc hpc'
    refine .quiet hsent hinbox (by rw [hcomm]) (by rw [hcomm]) ?_
    rw [unanswered_eq_zero hpc, unanswered_eq_zero fun package heq => absurd heq (hpc' package)]
  unfold Process.next at hr
  cases hpc : P.pc with
  | progress called =>
    rw [hpc] at hr
    cases hr
  | stopped =>
    rw [hpc] at hr
    cases hr
  | check =>
    have hcomm := h.comm_progress (by rw [hpc]; exact fun heq => by cases heq)
    have hnil := h.drained (by rw [hpc]; rfl)
    have hawake := h.awake (by rw [hpc]; rfl)
    rw [hpc] at hr
    dsimp only at hr
    split at hr
    · obtain rfl := Option.some.inj hr
      exact ⟨h.goto hpc .stopped (Or.inl hcomm) rfl rfl (fun heq => by cases heq)
        (fun heq => by cases heq) (fun heq => by cases heq),
        hquiet _ rfl rfl rfl (fun _ heq => by cases hpc.symm.trans heq) fun _ heq => by cases heq⟩
    · next hterminate =>
      obtain rfl := Option.some.inj hr
      exact ⟨h.goto hpc (.progress false) (Or.inl hcomm) rfl rfl (fun _ => hnil)
        (fun _ => hawake) (fun _ heq => absurd heq hterminate),
        hquiet _ rfl rfl rfl (fun _ heq => by cases hpc.symm.trans heq) fun _ heq => by cases heq⟩
  | wait =>
    have hcomm := h.comm_progress (by rw [hpc]; exact fun heq => by cases heq)
    have hgo := h.goto hpc .recheck (Or.inl hcomm) rfl rfl (fun heq => by cases heq)
      (fun heq => by cases heq) (fun heq => by cases heq)
    rw [hpc] at hr
    dsimp only at hr
    split at hr
    · obtain rfl := Option.some.inj hr
      exact ⟨{ hgo with
        awake := fun heq => by cases heq
        leaving := fun heq => by cases heq },
        hquiet _ rfl rfl rfl (fun _ heq => by cases hpc.symm.trans heq) fun _ heq => by cases heq⟩
    · split at hr
      · cases hr
      · obtain rfl := Option.some.inj hr
        exact ⟨hgo, hquiet _ rfl rfl rfl (fun _ heq => by cases hpc.symm.trans heq)
          fun _ heq => by cases heq⟩
  | recheck =>
    have hcomm := h.comm_progress (by rw [hpc]; exact fun heq => by cases heq)
    rw [hpc] at hr
    dsimp only at hr
    split at hr
    · obtain rfl := Option.some.inj hr
      exact ⟨h.goto hpc .stopped (Or.inl hcomm) rfl rfl (fun heq => by cases heq)
        (fun heq => by cases heq) (fun heq => by cases heq),
        hquiet _ rfl rfl rfl (fun _ heq => by cases hpc.symm.trans heq) fun _ heq => by cases heq⟩
    · obtain rfl := Option.some.inj hr
      exact ⟨h.goto hpc .pop (Or.inl hcomm) rfl rfl (fun heq => by cases heq)
        (fun heq => by cases heq) (fun heq => by cases heq),
        hquiet _ rfl rfl rfl (fun _ heq => by cases hpc.symm.trans heq) fun _ heq => by cases heq⟩
  | pop =>
    have hcomm := h.comm_progress (by rw [hpc]; exact fun heq => by cases heq)
    have hfifo := h.fifo
    rw [hpc] at hr hfifo
    dsimp only at hr
    split at hr
    · next hqueue =>
      obtain rfl := Option.some.inj hr
      exact ⟨h.goto hpc .recvOps (Or.inr rfl) rfl rfl (fun heq => by cases heq)
        (fun _ hne => absurd hqueue hne) (fun heq => by cases heq),
        hquiet _ rfl rfl rfl (fun _ heq => by cases hpc.symm.trans heq) fun _ heq => by cases heq⟩
    · next package rest hqueue =>
      obtain rfl := Option.some.inj hr
      have hanswered := h.answered
      rw [hpc] at hanswered
      refine ⟨{ h with
        outside := Or.inl hcomm
        fifo := ?_
        answered := hanswered
        drained := fun heq => by cases heq
        awake := fun heq => by cases heq
        leaving := fun heq => by cases heq },
        hquiet _ rfl rfl rfl (fun _ heq => by cases hpc.symm.trans heq) fun _ heq => by cases heq⟩
      dsimp only
      rw [hfifo, hqueue, List.append_assoc, List.append_assoc]
      rfl
  | send package =>
    have hcomm := h.comm_progress (by rw [hpc]; exact fun heq => by cases heq)
    have hfifo := h.fifo
    have hanswered := h.answered
    rw [hpc] at hr hfifo hanswered
    obtain rfl := Option.some.inj hr
    have hmem : package ∈ P.pushed := by
      rw [hfifo]
      exact List.mem_append_left _ (List.mem_append_right _ List.mem_cons_self)
    refine ⟨{ h with
      outside := Or.inl hcomm
      fifo := ?_
      answered := ?_
      drained := fun heq => by cases heq
      awake := fun heq => by cases heq
      leaving := fun heq => by cases heq }, .send package hmem hpc rfl rfl rfl rfl rfl⟩
    · dsimp only
      rw [hfifo]
      exact congrArg (· ++ P.packageQueue) (List.append_nil _).symm
    · dsimp only
      rw [hanswered]
      exact congrArg (· ++ [package]) (List.append_nil _)
  | sendWait package =>
    have hcomm := h.comm_progress (by rw [hpc]; exact fun heq => by cases heq)
    rw [hpc] at hr
    dsimp only at hr
    split at hr
    · cases hr
    · next hdone =>
      obtain rfl := Option.some.inj hr
      refine ⟨h.goto hpc (.onSend package) (Or.inl hcomm) rfl rfl (fun heq => by cases heq)
        (fun heq => by cases heq) (fun heq => by cases heq),
        hquiet _ rfl rfl rfl (fun package' heq => ?_) fun _ heq => by cases heq⟩
      rw [hpc] at heq
      rw [← Pc.sendWait.inj heq]
      exact Bool.eq_false_iff.mpr hdone
  | onSend package =>
    have hcomm := h.comm_progress (by rw [hpc]; exact fun heq => by cases heq)
    have hfifo := h.fifo
    have hanswered := h.answered
    rw [hpc] at hr hfifo hanswered
    obtain rfl := Option.some.inj hr
    refine ⟨{ h with
      outside := Or.inl hcomm
      fifo := hfifo
      answered := hanswered.trans (List.append_nil _).symm
      onSend := ?_
      drained := fun heq => by cases heq
      awake := fun heq => by cases heq
      leaving := fun heq => by cases heq },
      hquiet _ rfl rfl rfl (fun _ heq => by cases hpc.symm.trans heq) fun _ heq => by cases heq⟩
    dsimp only
    rw [h.onSend, List.filter_append]
    cases hcall : package.onSend with
    | false =>
      rw [if_neg Bool.false_ne_true, List.filter_cons_of_neg (by simp [hcall]), List.filter_nil,
        List.append_nil]
    | true => rw [if_pos rfl, List.filter_cons_of_pos hcall, List.filter_nil]
  | recvOps =>
    rw [hpc] at hr
    obtain ⟨c, hc, rfl⟩ := Option.map_eq_some_iff.mp hr
    exact h.recvOps hpc hc

/-- A rank that lets UCX make progress has its receiving half at a place where the handler may be
called. -/
theorem Ok.comm_progresses (h : Ok types usesRndv p P) (hpc : P.progresses = true) :
    P.comm.pc.progresses = true := by
  rcases h.outside with hcomm | hrecv
  · rw [hcomm]
    rfl
  · rw [Process.progresses, hrecv] at hpc
    dsimp only at hpc
    split at hpc
    · next heq =>
      rw [heq]
      rfl
    · cases hpc

/-- What the handler leaves as it is. -/
theorem unanswered_called (P P' : Process ι D E) (fetched : Bool) (hpc : P'.pc = P.pc.called) :
    P'.unanswered usesRndv p fetched = P.unanswered usesRndv p fetched := by
  rw [Process.unanswered, Process.unanswered, hpc]
  cases P.pc <;> rfl

/-- **A call of the handler** takes the first of the messages that have arrived. -/
theorem Ok.handle (hN : NodeOk types comm) (h : Ok types usesRndv p P)
    (hP' : P.handle comm usesRndv = some P') :
    Ok types usesRndv p P' ∧ ∃ x, P.inbox = x :: P'.inbox ∧
      P'.comm.handled = P.comm.handled ++ [x.message usesRndv] ∧
      P'.parcels = P.parcels ++ (if usesRndv x.package.size then [x] else []) ∧
      P'.sent = P.sent ∧ P'.pc = P.pc.called := by
  unfold Process.handle at hP'
  split at hP'
  · cases hP'
  · next x rest hinbox =>
    split at hP'
    · next hprogresses =>
      obtain rfl := Option.some.inj hP'
      obtain ⟨hreceives, hcpc, hhandled, hpending⟩ := h.receives.handler hN
        (m := x.message usesRndv) (h.inbox x (hinbox ▸ List.mem_cons_self))
        (h.comm_progresses hprogresses)
      have hcalled : P.pc.called.toSend = P.pc.toSend ∧ P.pc.called.sending = P.pc.sending ∧
          P.pc.called.drained = false ∧ (P.pc.called.behindSends = true → P.pc.behindSends = true) ∧
          (P.pc.called.behindCheck = true → P.pc.behindCheck = true) ∧
          (P.pc = .recvOps → P.pc.called = .recvOps) := by
        unfold Process.progresses at hprogresses
        cases hpc : P.pc with
        | progress called => exact ⟨rfl, rfl, rfl, fun _ => rfl, fun _ => rfl, (nomatch ·)⟩
        | sendWait package => exact ⟨rfl, rfl, rfl, (nomatch ·), (nomatch ·), (nomatch ·)⟩
        | recvOps => exact ⟨rfl, rfl, rfl, fun _ => rfl, (nomatch ·), fun _ => rfl⟩
        | _ =>
          rw [hpc] at hprogresses
          cases hprogresses
      obtain ⟨htoSend, hsending, hdrained, hbehind, hcheck, hrecv⟩ := hcalled
      refine ⟨⟨hreceives, ?_, ?_, ?_, h.onSend, h.packages, fun y hy => ?_, fun e he => ?_,
        fun hdrained' => ?_, fun hb => h.awake (hbehind hb), fun hb => h.leaving (hcheck hb)⟩,
        x, hinbox, hhandled, ?_, rfl, rfl⟩
      · exact h.outside.imp hcpc.trans hrecv
      · dsimp only
        rw [htoSend]
        exact h.fifo
      · dsimp only
        rw [hsending]
        exact h.answered
      · exact h.inbox y (hinbox ▸ List.mem_cons_of_mem _ hy)
      · dsimp only at he
        rw [hpending] at he
        rcases List.mem_append.mp he with he | he
        · exact h.rndv e he
        · split at he
          · next hrndv =>
            rw [List.mem_singleton.mp he]
            exact ⟨x, rfl, hrndv⟩
          · cases he
      · dsimp only at hdrained'
        rw [hdrained] at hdrained'
        cases hdrained'
      · rw [Process.parcels, Process.parcels, hpending, List.filterMap_append]
        show _ ++ List.filterMap _ (if usesRndv x.package.size = true then _ else _) = _
        split <;> rfl
    · cases hP'

/-- The return from `ucp_worker_progress`. -/
theorem Ok.progressed {busy : Bool} (h : Ok types usesRndv p P)
    (hP' : P.progressed busy = some P') :
    Ok types usesRndv p P' ∧ Does usesRndv p fetched P P' .quiet := by
  unfold Process.progressed at hP'
  split at hP'
  · next called hpc =>
    have hcomm := h.comm_progress (by rw [hpc]; exact fun heq => by cases heq)
    have hzero : ∀ pc : Pc ι D, (∀ package, pc ≠ .sendWait package) →
        Does usesRndv p fetched P { P with pc := pc } .quiet := by
      intro pc hpc'
      refine .quiet rfl rfl rfl rfl ?_
      rw [unanswered_eq_zero fun package heq => absurd heq (hpc' package)]
      exact (unanswered_eq_zero fun _ heq => by cases hpc.symm.trans heq).symm
    split at hP'
    · obtain rfl := Option.some.inj hP'
      exact ⟨h.goto hpc .recheck (Or.inl hcomm) rfl rfl (fun heq => by cases heq)
        (fun heq => by cases heq) (fun heq => by cases heq), hzero _ fun _ heq => by cases heq⟩
    · next hcalled =>
      split at hP'
      · obtain rfl := Option.some.inj hP'
        have hfalse : called = false := by
          cases called with
          | false => rfl
          | true => exact absurd rfl hcalled
        rw [hfalse] at hpc
        exact ⟨h.goto hpc .wait (Or.inl hcomm) rfl rfl (fun _ => h.drained (by rw [hpc]; rfl))
          (fun _ => h.awake (by rw [hpc]; rfl)) (fun _ => h.leaving (by rw [hpc]; rfl)),
          hzero _ fun _ heq => by cases heq⟩
      · cases hP'
  · cases hP'

/-! ## The ranks together -/

/-- The messages for a rank that it has seen, handled or not. -/
def Process.seen (P : Process ι D E) : Multiset (Parcel ι D) :=
  (P.comm.handled.map Comm.Message.data : List (Parcel ι D)) + (P.inbox : Multiset (Parcel ι D))

/-- The messages for a rank whose data it has not received. -/
def Process.unreceived (P : Process ι D E) : Multiset (Parcel ι D) :=
  (P.inbox : Multiset (Parcel ι D)) + (P.parcels : Multiset (Parcel ι D))

variable [DecidableEq ι]

/-- The messages of the rank `p` to the rank `q`. -/
def Process.sentTo (p q : ι) (P : Process ι D E) : Multiset (Parcel ι D) :=
  ((P.sent.filter fun package => package.dest = q).map (Parcel.mk p) : List (Parcel ι D))

/-- A rendezvous message of the rank `p`. -/
def RndvOf (usesRndv : ℕ → Bool) (p : ι) (x : Parcel ι D) : Prop :=
  x.src = p ∧ usesRndv x.package.size = true

instance (usesRndv : ℕ → Bool) (p : ι) (x : Parcel ι D) : Decidable (RndvOf usesRndv p x) :=
  inferInstanceAs (Decidable (_ ∧ _))

/-- The invariant of the cluster. -/
structure Inv [Fintype ι] (types : Finset TypeId) (usesRndv : ℕ → Bool) (s : State ι D E) :
    Prop where
  ok : ∀ p, Ok types usesRndv p (s.proc p)
  wire : ∀ q, ∀ x ∈ s.wire q, x.package.type ∈ types
  /-- A message is on the wire, has arrived or was handled, once. -/
  sent : ∀ q, (s.proc q).seen + s.wire q = ∑ p, (s.proc p).sentTo p q
  /-- The rendezvous messages underway are those that a rank waits for. -/
  answered : ∀ p q, ((s.wire q : Multiset (Parcel ι D)) + (s.proc q).unreceived).filter
      (RndvOf usesRndv p) =
    ((s.proc p).unanswered usesRndv p (s.fetched p)).filter fun x => x.package.dest = q

section Steps

variable [Fintype ι] {s s' : State ι D E} {node : ι → CommNode E}

omit [Fintype ι] in
/-- What one rank changes without changing the value of `φ` on it. -/
theorem update_apply_eq {β γ : Type*} {g : ι → β} {i : ι} {b : β} (φ : ι → β → γ)
    (h : φ i b = φ i (g i)) (j : ι) : φ j (Function.update g i b j) = φ j (g j) := by
  by_cases hj : j = i
  · rw [hj, Function.update_self, h]
  · rw [Function.update_of_ne hj]

theorem inv_initial : Inv types usesRndv (initial : State ι D E) where
  ok := ok_initial types usesRndv
  wire _ _ hx := absurd hx List.not_mem_nil
  sent q := by
    show (0 : Multiset (Parcel ι D)) = ∑ _p : ι, 0
    rw [Finset.sum_const_zero]
  answered _ _ := rfl

/-- A step of a rank alone. -/
theorem Inv.local (hI : Inv types usesRndv s) {P' : Process ι D E} (hok : Ok types usesRndv p P')
    (hsent : P'.sent = (s.proc p).sent) (hseen : P'.seen = (s.proc p).seen)
    (hunreceived : ∀ i, P'.unreceived.filter (RndvOf usesRndv i) =
      (s.proc p).unreceived.filter (RndvOf usesRndv i))
    (hunanswered : P'.unanswered usesRndv p (s.fetched p) =
      (s.proc p).unanswered usesRndv p (s.fetched p)) :
    Inv types usesRndv (s.apply p P' .quiet) := by
  refine ⟨forall_update hI.ok hok, hI.wire, fun q => ?_, fun i q => ?_⟩
  · show (Function.update s.proc p P' q).seen + _ =
      ∑ i, (Function.update s.proc p P' i).sentTo i q
    rw [update_apply_eq (fun _ P => Process.seen P) hseen]
    refine (hI.sent q).trans (Finset.sum_congr rfl fun i _ => ?_)
    refine (update_apply_eq (fun i P => Process.sentTo i q P) ?_ i).symm
    rw [Process.sentTo, Process.sentTo, hsent]
  · show (_ + (Function.update s.proc p P' q).unreceived).filter _ =
      ((Function.update s.proc p P' i).unanswered usesRndv i (s.fetched i)).filter _
    rw [Multiset.filter_add,
      update_apply_eq (fun _ P => (Process.unreceived P).filter (RndvOf usesRndv i))
        (hunreceived i),
      update_apply_eq (fun i P => Process.unanswered usesRndv i (s.fetched i) P) hunanswered,
      ← Multiset.filter_add]
    exact hI.answered i q

/-- A step of a rank that does nothing with the messages. -/
theorem Inv.quiet (hI : Inv types usesRndv s) {P' : Process ι D E} (hok : Ok types usesRndv p P')
    (hdoes : Does usesRndv p (s.fetched p) (s.proc p) P' .quiet) :
    Inv types usesRndv (s.apply p P' .quiet) := by
  cases hdoes with
  | quiet hsent hinbox hhandled hpending hunanswered =>
    refine hI.local hok hsent ?_ (fun i => ?_) hunanswered
    · rw [Process.seen, Process.seen, hinbox, hhandled]
    · rw [Process.unreceived, Process.unreceived, Process.parcels, Process.parcels, hinbox,
        hpending]

/-- **The handler takes a message** that has arrived. -/
theorem Inv.handle (hI : Inv types usesRndv s) (hN : NodeOk types comm) {P' : Process ι D E}
    (hP' : (s.proc p).handle comm usesRndv = some P') :
    Inv types usesRndv (s.apply p P' .quiet) := by
  obtain ⟨hok, x, hinbox, hhandled, hparcels, hsent, hpc⟩ := (hI.ok p).handle hN hP'
  refine hI.local hok hsent ?_ (fun i => ?_) (unanswered_called _ _ _ hpc)
  · rw [Process.seen, Process.seen, hinbox, hhandled, List.map_append, Multiset.coe_add,
      Multiset.coe_add, List.append_assoc]
    rfl
  · -- an eager message does not count
    have hx : ((if usesRndv x.package.size then [x] else [] : List (Parcel ι D)) :
        Multiset (Parcel ι D)).filter (RndvOf usesRndv i) =
          Multiset.filter (RndvOf usesRndv i) {x} := by
      cases hrndv : usesRndv x.package.size with
      | true => rfl
      | false =>
        rw [if_neg Bool.false_ne_true, Multiset.filter_singleton,
          if_neg fun h : RndvOf usesRndv i x => Bool.false_ne_true (hrndv.symm.trans h.2)]
        rfl
    rw [Process.unreceived, Process.unreceived, hinbox, hparcels, ← Multiset.coe_add,
      ← Multiset.cons_coe, ← Multiset.singleton_add]
    simp only [Multiset.filter_add, hx]
    abel

omit [DecidableEq ι] [Fintype ι] in
theorem seen_arrive (P : Process ι D E) (x : Parcel ι D) :
    Process.seen { P with inbox := P.inbox ++ [x] } = P.seen + {x} := by
  rw [Process.seen, Process.seen, add_assoc, ← Multiset.coe_add]
  rfl

omit [DecidableEq ι] [Fintype ι] in
theorem unreceived_arrive (P : Process ι D E) (x : Parcel ι D) :
    Process.unreceived { P with inbox := P.inbox ++ [x] } = P.unreceived + {x} := by
  rw [Process.unreceived, Process.unreceived, add_right_comm, ← Multiset.coe_add]
  rfl

/-- **A message arrives.** -/
theorem Inv.arrive (hI : Inv types usesRndv s) {k : ℕ} {x : Parcel ι D}
    (hx : (s.wire p)[k]? = some x) :
    Inv types usesRndv
      { s with
        proc := Function.update s.proc p { s.proc p with inbox := (s.proc p).inbox ++ [x] }
        wire := Function.update s.wire p ((s.wire p).eraseIdx k) } := by
  obtain ⟨hk, rfl⟩ := List.getElem?_eq_some_iff.mp hx
  have hwire : (s.wire p : Multiset (Parcel ι D)) =
      {(s.wire p)[k]} + ((s.wire p).eraseIdx k : Multiset (Parcel ι D)) :=
    (Multiset.coe_eq_coe.mpr (List.getElem_cons_eraseIdx_perm hk)).symm
  have hok := hI.ok p
  refine ⟨forall_update hI.ok ?_, fun q y hy => ?_, fun q => ?_, fun i q => ?_⟩
  · refine { hok with
      inbox := fun y hy => ?_ }
    rcases List.mem_append.mp hy with hy | hy
    · exact hok.inbox y hy
    · rw [List.mem_singleton.mp hy]
      exact hI.wire p _ (List.getElem_mem hk)
  · dsimp only at hy
    by_cases hq : q = p
    · rw [hq, Function.update_self] at hy
      exact hI.wire p y (List.mem_of_mem_eraseIdx hy)
    · rw [Function.update_of_ne hq] at hy
      exact hI.wire q y hy
  · refine Eq.trans ?_ ((hI.sent q).trans (Finset.sum_congr rfl fun i _ =>
      (update_apply_eq (g := s.proc) (i := p)
        (b := { s.proc p with inbox := (s.proc p).inbox ++ [(s.wire p)[k]] })
        (fun i P => Process.sentTo i q P) rfl i).symm))
    dsimp only
    by_cases hq : q = p
    · subst hq
      rw [Function.update_self, Function.update_self, hwire, seen_arrive, add_assoc]
    · rw [Function.update_of_ne hq, Function.update_of_ne hq]
  · refine Eq.trans ?_ ((hI.answered i q).trans (congrArg (Multiset.filter _)
      (update_apply_eq (g := s.proc) (i := p)
        (b := { s.proc p with inbox := (s.proc p).inbox ++ [(s.wire p)[k]] })
        (fun i P => Process.unanswered usesRndv i (s.fetched i) P) rfl i).symm))
    dsimp only
    by_cases hq : q = p
    · subst hq
      rw [Function.update_self, Function.update_self, hwire, unreceived_arrive]
      refine congrArg (Multiset.filter _) ?_
      abel
    · rw [Function.update_of_ne hq, Function.update_of_ne hq]

omit [DecidableEq ι] [Fintype ι] in
/-- A rank that is about to send, or receives, waits for nobody. -/
theorem unanswered_of_ne {f : Bool} (hpc : ∀ package, P.pc ≠ .sendWait package) :
    P.unanswered usesRndv p f = 0 :=
  unanswered_eq_zero fun package heq => absurd heq (hpc package)

omit [DecidableEq ι] [Fintype ι] in
theorem unanswered_of_sendWait {f : Bool} {package : Package ι D} (hpc : P.pc = .sendWait package) :
    P.unanswered usesRndv p f =
      if usesRndv package.size && !f then {⟨p, package⟩} else 0 := by
  rw [Process.unanswered, hpc]

omit [DecidableEq ι] [Fintype ι] in
/-- A rank waits for the message that it has sent last. -/
theorem unanswered_of_mem {f : Bool} {x : Parcel ι D} (hx : x ∈ P.unanswered usesRndv p f) :
    P.pc = .sendWait x.package ∧ usesRndv x.package.size = true ∧ f = false ∧ x.src = p ∧
      P.unanswered usesRndv p f = {x} := by
  cases hpc : P.pc with
  | sendWait package =>
    rw [unanswered_of_sendWait hpc] at hx ⊢
    split at hx
    · next hcond =>
      obtain rfl := Multiset.mem_singleton.mp hx
      rw [if_pos hcond]
      rw [Bool.and_eq_true, Bool.not_eq_true'] at hcond
      exact ⟨rfl, hcond.1, hcond.2, rfl, rfl⟩
    · exact absurd hx (Multiset.notMem_zero _)
  | _ =>
    rw [unanswered_of_ne fun _ heq => by cases hpc.symm.trans heq] at hx
    exact absurd hx (Multiset.notMem_zero _)

/-- **A message goes on its way.** -/
theorem Inv.send (hI : Inv types usesRndv s) {P' : Process ι D E} (hok : Ok types usesRndv p P')
    {x : Parcel ι D} (hdoes : Does usesRndv p (s.fetched p) (s.proc p) P' (.send x)) :
    Inv types usesRndv (s.apply p P' (.send x)) := by
  cases hdoes with
  | send package hmem hpc hpc' hsent hinbox hhandled hpending =>
    obtain ⟨hdest, htype⟩ := (hI.ok p).packages package hmem
    have hseen : P'.seen = (s.proc p).seen := by
      rw [Process.seen, Process.seen, hinbox, hhandled]
    have hunreceived : P'.unreceived = (s.proc p).unreceived := by
      rw [Process.unreceived, Process.unreceived, Process.parcels, Process.parcels, hinbox,
        hpending]
    -- the message is on the wire to its destination
    have hwire : ∀ q, ((s.apply p P' (.send ⟨p, package⟩)).wire q : Multiset (Parcel ι D)) =
        s.wire q + if package.dest = q then {⟨p, package⟩} else 0 := by
      intro q
      show ((Function.update s.wire package.dest
        (s.wire package.dest ++ [⟨p, package⟩]) q : List (Parcel ι D)) : Multiset (Parcel ι D)) = _
      by_cases hq : q = package.dest
      · subst hq
        rw [Function.update_self, if_pos rfl, ← Multiset.coe_add]
        rfl
      · rw [Function.update_of_ne hq, if_neg (Ne.symm hq), add_zero]
    refine ⟨forall_update hI.ok hok, fun q y hy => ?_, fun q => ?_, fun i q => ?_⟩
    · have hy' := Multiset.mem_coe.mpr hy
      rw [hwire, Multiset.mem_add] at hy'
      rcases hy' with hy' | hy'
      · exact hI.wire q y hy'
      · split at hy'
        · rw [Multiset.mem_singleton.mp hy']
          exact htype
        · exact absurd hy' (Multiset.notMem_zero _)
    · have hsum := sum_update_exchange_index (fun i P => Process.sentTo i q P) s.proc p P'
      have hto : P'.sentTo p q = (s.proc p).sentTo p q +
          if package.dest = q then {⟨p, package⟩} else 0 := by
        rw [Process.sentTo, Process.sentTo, hsent, List.filter_append, List.map_append,
          ← Multiset.coe_add]
        by_cases hq : package.dest = q <;> simp [hq]
      show (Function.update s.proc p P' q).seen + _ =
        ∑ i, (Function.update s.proc p P' i).sentTo i q
      rw [update_apply_eq (fun _ P => Process.seen P) hseen, hwire, ← add_assoc, hI.sent q]
      rw [hto, add_comm ((s.proc p).sentTo p q), ← add_assoc] at hsum
      exact (add_right_cancel hsum).symm
    · show ((_ : Multiset (Parcel ι D)) + (Function.update s.proc p P' q).unreceived).filter _ =
        ((Function.update s.proc p P' i).unanswered usesRndv i
          (Function.update s.fetched p false i)).filter _
      rw [update_apply_eq (fun _ P => Process.unreceived P) hunreceived, hwire, add_right_comm,
        Multiset.filter_add, hI.answered i q]
      by_cases hi : i = p
      · subst hi
        rw [Function.update_self, Function.update_self,
          unanswered_of_ne (fun _ heq => by cases hpc.symm.trans heq), Multiset.filter_zero,
          zero_add, unanswered_of_sendWait hpc', Bool.not_false, Bool.and_true]
        by_cases hq : package.dest = q <;> cases hrndv : usesRndv package.size <;>
          simp [hq, hrndv, RndvOf, Multiset.filter_singleton]
      · rw [Function.update_of_ne hi, Function.update_of_ne hi]
        have hnot : ¬ RndvOf usesRndv i (⟨p, package⟩ : Parcel ι D) := fun h => hi h.1.symm
        split
        · rw [Multiset.filter_singleton, if_neg hnot]
          exact add_zero _
        · rw [Multiset.filter_zero, add_zero]

/-- The rank that a rendezvous message comes from is waiting for it. -/
theorem Inv.mem_unanswered (hI : Inv types usesRndv s) {x : Parcel ι D}
    (hx : x ∈ (s.proc p).unreceived) (hrndv : usesRndv x.package.size = true) :
    x ∈ (s.proc x.src).unanswered usesRndv x.src (s.fetched x.src) ∧ x.package.dest = p := by
  have hmem : x ∈ ((s.wire p : Multiset (Parcel ι D)) + (s.proc p).unreceived).filter
      (RndvOf usesRndv x.src) :=
    Multiset.mem_filter.mpr ⟨Multiset.mem_add.mpr (Or.inr hx), rfl, hrndv⟩
  rw [hI.answered x.src p] at hmem
  exact Multiset.mem_filter.mp hmem

/-- **The data of a message is received.** -/
theorem Inv.receive (hI : Inv types usesRndv s) {P' : Process ι D E}
    (hok : Ok types usesRndv p P') {src : ι}
    (hdoes : Does usesRndv p (s.fetched p) (s.proc p) P' (.receive src)) :
    Inv types usesRndv (s.apply p P' (.receive src)) := by
  cases hdoes with
  | receive x hrndv hpc hsent hinbox hhandled hparcels hpc' =>
    have hseen : P'.seen = (s.proc p).seen := by
      rw [Process.seen, Process.seen, hinbox, hhandled]
    have hunreceived : (s.proc p).unreceived = P'.unreceived + {x} := by
      rw [Process.unreceived, Process.unreceived, hparcels, hinbox, ← Multiset.cons_coe,
        Multiset.add_cons, ← Multiset.singleton_add, add_comm]
    have hsrc := hI.answered x.src p
    rw [hunreceived, ← add_assoc, Multiset.filter_add, Multiset.filter_singleton,
      if_pos (show RndvOf usesRndv x.src x from ⟨rfl, hrndv⟩)] at hsrc
    have hx : x ∈ (s.proc p).unreceived := by
      rw [hunreceived]
      exact Multiset.mem_add.mpr (Or.inr (Multiset.mem_singleton_self x))
    obtain ⟨hmem, hdest⟩ := hI.mem_unanswered hx hrndv
    obtain ⟨hsrcpc, -, -, -, hunanswered⟩ := unanswered_of_mem hmem
    have hne : x.src ≠ p := by
      intro heq
      rw [heq] at hsrcpc
      cases hpc.symm.trans hsrcpc
    refine ⟨forall_update hI.ok hok, hI.wire, fun q => ?_, fun i q => ?_⟩
    · show (Function.update s.proc p P' q).seen + _ =
        ∑ i, (Function.update s.proc p P' i).sentTo i q
      rw [update_apply_eq (fun _ P => Process.seen P) hseen]
      refine (hI.sent q).trans (Finset.sum_congr rfl fun i _ => ?_)
      refine (update_apply_eq (fun i P => Process.sentTo i q P) ?_ i).symm
      rw [Process.sentTo, Process.sentTo, hsent]
    · show (_ + (Function.update s.proc p P' q).unreceived).filter _ =
        ((Function.update s.proc p P' i).unanswered usesRndv i
          (Function.update s.fetched x.src true i)).filter _
      have hiq := hI.answered i q
      by_cases hi : i = x.src
      · -- the wait is over
        have hzero : (s.proc x.src).unanswered usesRndv x.src true = 0 := by
          rw [unanswered_of_sendWait hsrcpc, Bool.not_true, Bool.and_false,
            if_neg Bool.false_ne_true]
        rw [hi] at hiq ⊢
        rw [Function.update_of_ne hne, Function.update_self, hzero, Multiset.filter_zero]
        by_cases hq : q = p
        · rw [hq, Function.update_self]
          rw [hunanswered, Multiset.filter_singleton, if_pos hdest] at hsrc
          exact add_right_cancel (hsrc.trans (zero_add _).symm)
        · rw [Function.update_of_ne hq]
          refine hiq.trans ?_
          rw [hunanswered, Multiset.filter_singleton,
            if_neg fun heq => hq (heq.symm.trans hdest)]
          rfl
      · have hsame : (Function.update s.proc p P' i).unanswered usesRndv i (s.fetched i) =
            (s.proc i).unanswered usesRndv i (s.fetched i) := by
          refine update_apply_eq (fun i P => Process.unanswered usesRndv i (s.fetched i) P) ?_ i
          exact (hpc' _).trans (unanswered_of_ne fun _ heq => by cases hpc.symm.trans heq).symm
        rw [Function.update_of_ne hi, hsame, ← hiq]
        by_cases hq : q = p
        · rw [hq, Function.update_self, hunreceived, ← add_assoc, Multiset.filter_add _ _ {x},
            Multiset.filter_singleton, if_neg fun h : RndvOf usesRndv i x => hi h.1.symm]
          exact (add_zero _).symm
        · rw [Function.update_of_ne hq]
          rfl

/-- **Every step keeps the invariant.** -/
theorem inv_step (hN : ∀ p, NodeOk types (node p)) (hI : Inv types usesRndv s) {a : Action ι D}
    (h : step types node usesRndv s a = some s') : Inv types usesRndv s' := by
  cases a with
  | push p package =>
    simp only [step] at h
    split at h
    · next hpackage =>
      obtain rfl := Option.some.inj h
      have hok := hI.ok p
      refine hI.quiet (p := p) { hok with
        fifo := ?_
        packages := fun x hx => ?_
        awake := fun _ _ => Or.inr (Nat.succ_pos _)
        leaving := fun _ _ => Or.inr (Nat.succ_pos _) } (.quiet rfl rfl rfl rfl rfl)
      · dsimp only
        rw [hok.fifo, List.append_assoc]
      · rcases List.mem_append.mp hx with hx | hx
        · exact hok.packages x hx
        · rw [List.mem_singleton.mp hx]
          exact hpackage
    · cases h
  | destroy p =>
    obtain rfl := Option.some.inj h
    exact hI.quiet { hI.ok p with
      awake := fun _ _ => Or.inr (Nat.succ_pos _)
      leaving := fun _ _ => Or.inr (Nat.succ_pos _) } (.quiet rfl rfl rfl rfl rfl)
  | signal p =>
    simp only [step] at h
    split at h
    · cases h
    · obtain rfl := Option.some.inj h
      exact hI.quiet { hI.ok p with
        awake := fun _ _ => Or.inl rfl
        leaving := fun _ _ => Or.inl rfl } (.quiet rfl rfl rfl rfl rfl)
  | event p =>
    obtain rfl := Option.some.inj h
    exact hI.quiet { hI.ok p with
      awake := fun _ _ => Or.inl rfl
      leaving := fun _ _ => Or.inl rfl } (.quiet rfl rfl rfl rfl rfl)
  | arrive p k =>
    obtain ⟨x, hx, rfl⟩ := Option.map_eq_some_iff.mp h
    exact hI.arrive hx
  | handle p =>
    obtain ⟨P', hP', rfl⟩ := Option.map_eq_some_iff.mp h
    exact hI.handle (hN p) hP'
  | progressed p busy =>
    obtain ⟨P', hP', rfl⟩ := Option.map_eq_some_iff.mp h
    obtain ⟨hok, hdoes⟩ := (hI.ok p).progressed hP'
    exact hI.quiet hok hdoes
  | poll p =>
    rw [eq_of_step_poll h]
    exact hI
  | step p =>
    obtain ⟨⟨P', effect⟩, hr, rfl⟩ := Option.map_eq_some_iff.mp h
    obtain ⟨hok, hdoes⟩ := (hI.ok p).next hr
    cases effect with
    | quiet => exact hI.quiet hok hdoes
    | send x => exact hI.send hok hdoes
    | receive src => exact hI.receive hok hdoes

/-- The invariant holds in every run. -/
theorem inv_of_reachable (hN : ∀ p, NodeOk types (node p))
    (hs : (system D types node usesRndv).Reachable s) : Inv types usesRndv s := by
  refine hs.invariant (I := Inv types usesRndv) (fun u hu => ?_)
    fun u a u' _ hI _ hstep => inv_step hN hI hstep
  rw [show u = initial from hu]
  exact inv_initial

end Steps

end Cluster
end ThreadUtils
