import ThreadUtils.Mpi.Cluster.Termination
import ThreadUtils.Transition.WaitGraph

/-!
# Where a cluster comes to rest

`process_send_ops` waits for each of its sends, and receives nothing meanwhile: the handler only
leaves an entry in `rndv_queue`.  So a rank that waits for a rendezvous send depends on the rank
it sends to, which has to come to its `process_recv_ops`.

## Rest

A cluster is at rest where no step but one from outside changes anything.  A rank that polls in
`ucx_request_wait` may still make steps there, for ever, but they leave everything as it is.  By
the account of the work all other steps of the cluster change something, so at rest none of them
is possible (`Stuck.still`).  The rest follows by looking at each place of the loop: a thread is
able to go on from all of them, but from `ucp_worker_wait`, where the invariant says that it has
left nothing behind, and from the wait for a rendezvous send.

## The circle

The destination of a rendezvous send that waits does not sleep, since the message is in its
`rndv_queue`, its inbox or on the wire.  So it waits itself, and as there are finitely many ranks
the waits close a circle.  Such a circle is stable: of the ranks in it each is needed to receive
the data of another one, and none does.

* `packages_once` --- every package is sent once, in the order of the queue, and every message is
  delivered once.
* `done_iff_no_circle` --- where nothing changes any more, everything was sent and delivered, or
  ranks wait for each other in a circle.
* `circle_stays` --- such a circle is never left.
-/

namespace ThreadUtils
namespace Cluster

open Dfg (TypeId)
open Comm (CommNode NodeOk Built)
open Relation

variable {ι D E : Type*} {types : Finset TypeId} {usesRndv : ℕ → Bool}

/-! ## The accounts -/

/-- The data that was given to the inputs of the node of a rank. -/
def Process.delivered (P : Process ι D E) : List (Parcel ι D) :=
  P.comm.pushed.filterMap fun data => data.2.data

/-- What a rank has seen it has delivered or has still to receive. -/
theorem Ok.seen_eq {p : ι} {P : Process ι D E} (h : Ok types usesRndv p P)
    (hpc : P.comm.pc ≠ .abort) : P.seen = P.delivered + P.unreceived := by
  have hperm := (h.receives.handled hpc).filterMap id
  rw [List.filterMap_append, List.filterMap_map, List.filterMap_map, List.filterMap_map] at hperm
  have hhandled : P.comm.handled.filterMap (id ∘ fun m => some m.data) =
      P.comm.handled.map Comm.Message.data := congrFun List.filterMap_eq_map _
  rw [hhandled] at hperm
  have hcoe : ((P.comm.handled.map Comm.Message.data : List (Parcel ι D)) : Multiset (Parcel ι D)) =
      P.delivered + P.parcels := Multiset.coe_eq_coe.mpr hperm
  rw [Process.seen, Process.unreceived, hcoe]
  abel

variable [DecidableEq ι] [Fintype ι]

/-- What the cluster has done with the packages so far. -/
structure Accounted (usesRndv : ℕ → Bool) (s : State ι D E) : Prop where
  /-- A rank takes its packages one by one, in the order in which they were pushed. -/
  fifo : ∀ p, ∃ current, current.length ≤ 1 ∧
    (s.proc p).pushed = (s.proc p).completed ++ current ++ (s.proc p).packageQueue
  onSend : ∀ p, (s.proc p).onSendCalls = (s.proc p).completed.filter Package.onSend
  /-- What was sent to a rank was delivered, has still to be received or is on the wire, once. -/
  delivered : ∀ q, (s.proc q).comm.pc ≠ .abort → ∑ p, (s.proc p).sentTo p q =
    (s.proc q).delivered + (s.proc q).unreceived + s.wire q
  /-- A rendezvous send completes when its data was delivered. -/
  rndv : ∀ p q, (s.proc q).comm.pc ≠ .abort →
    ((s.proc p).sentTo p q).filter (RndvOf usesRndv p) =
      ((s.proc q).delivered : Multiset (Parcel ι D)).filter (RndvOf usesRndv p) +
        ((s.proc p).unanswered usesRndv p (s.fetched p)).filter fun x => x.package.dest = q

variable {s s' : State ι D E} {node : ι → CommNode E}

theorem Inv.delivered (hI : Inv types usesRndv s) (q : ι) (hpc : (s.proc q).comm.pc ≠ .abort) :
    ∑ p, (s.proc p).sentTo p q = (s.proc q).delivered + (s.proc q).unreceived + s.wire q := by
  rw [← hI.sent q, (hI.ok q).seen_eq hpc]

omit [Fintype ι] in
/-- The messages of a rank are those of its own. -/
theorem filter_sentTo (P : Process ι D E) (i p q : ι) (hi : i ≠ p) :
    (P.sentTo i q).filter (RndvOf usesRndv p) = 0 := by
  refine Multiset.filter_eq_nil.mpr fun x hx hof => hi ?_
  obtain ⟨package, -, rfl⟩ := List.mem_map.mp (Multiset.mem_coe.mp hx)
  exact hof.1

omit [DecidableEq ι] in
theorem filter_sum (f : ι → Multiset (Parcel ι D)) (P : Parcel ι D → Prop) [DecidablePred P] :
    (∑ i, f i).filter P = ∑ i, (f i).filter P := by
  classical
  induction (Finset.univ : Finset ι) using Finset.induction_on with
  | empty => rfl
  | insert i t hi ih => rw [Finset.sum_insert hi, Finset.sum_insert hi, Multiset.filter_add, ih]

/-- **The packages.**  In every run each package is sent once, in order, and each message is
delivered once. -/
theorem packages_once (hbuilt : ∀ p, Built types (node p))
    (hs : (system D types node usesRndv).Reachable s) : Accounted usesRndv s := by
  have hI := inv_of_reachable (fun p => Comm.nodeOk_of_built (hbuilt p)) hs
  refine ⟨fun p => ⟨(s.proc p).pc.sending ++ (s.proc p).pc.toSend, ?_, ?_⟩,
    fun p => (hI.ok p).onSend, hI.delivered, fun p q hpc => ?_⟩
  · cases (s.proc p).pc <;> simp [Pc.sending, Pc.toSend]
  · rw [(hI.ok p).fifo, (hI.ok p).answered]
    simp only [List.append_assoc]
  · have hsum := congrArg (Multiset.filter (RndvOf usesRndv p)) (hI.delivered q hpc)
    rw [filter_sum, Finset.sum_eq_single p (fun i _ hi => filter_sentTo _ i p q hi)
      fun hp => absurd (Finset.mem_univ p) hp, add_assoc, Multiset.filter_add,
      add_comm (s.proc q).unreceived, hI.answered p q] at hsum
    exact hsum

/-! ## Where nothing changes any more -/

/-- The cluster has come to rest: no step that does not come from outside changes anything. -/
def Stuck (types : Finset TypeId) (node : ι → CommNode E) (usesRndv : ℕ → Bool)
    (s : State ι D E) : Prop :=
  ∀ (a : Action ι D) s', a.isOutside = false → step types node usesRndv s a = some s' → s' = s

/-- No step of the cluster itself is possible, but for polling. -/
def Still (types : Finset TypeId) (node : ι → CommNode E) (usesRndv : ℕ → Bool)
    (s : State ι D E) : Prop :=
  ∀ a : Action ι D, a.isOwn = true → step types node usesRndv s a = none

/-- The rank `p` waits until the rank `q` receives its data. -/
def WaitsFor (usesRndv : ℕ → Bool) (s : State ι D E) (p q : ι) : Prop :=
  ∃ x ∈ (s.proc p).unanswered usesRndv p (s.fetched p), x.package.dest = q

/-- The thread of a rank is in its loop, and no assertion has failed. -/
def Process.Alive (P : Process ι D E) : Prop :=
  P.pc ≠ .stopped ∧ P.comm.pc ≠ .abort

/-- A rank that sleeps, with nothing left to do. -/
structure Process.Asleep (P : Process ι D E) : Prop where
  pc : P.pc = .wait
  canTerminate : P.canTerminate = false
  packageQueue : P.packageQueue = []
  unreceived : P.unreceived = 0

/-- At rest nothing but polling is possible. -/
theorem Stuck.still (h : Stuck types node usesRndv s) (hN : ∀ p, NodeOk types (node p))
    (hI : Inv types usesRndv s) : Still types node usesRndv s := by
  intro a hown
  by_contra hsome
  obtain ⟨s', hs'⟩ := Option.ne_none_iff_exists'.mp hsome
  exact step_ne hN hI hown hs' (h a s' (Action.isOutside_of_isOwn hown) hs')

omit [Fintype ι] in
/-- Nothing is on its way and no signal is due. -/
theorem Still.quiet (h : Still types node usesRndv s) (p : ι) :
    s.wire p = [] ∧ (s.proc p).unsignalled = 0 := by
  have harrive := h (.arrive p 0) rfl
  have hsignal := h (.signal p) rfl
  simp only [step, Option.map_eq_none_iff, List.getElem?_eq_none_iff, Nat.le_zero_eq,
    List.length_eq_zero_iff] at harrive
  simp only [step] at hsignal
  refine ⟨harrive, ?_⟩
  split at hsignal
  · next heq => exact heq
  · cases hsignal

omit [Fintype ι] in
/-- UCX can call the handler for a message that has arrived, where it makes progress. -/
theorem Still.inbox_nil (h : Still types node usesRndv s) {p : ι}
    (hprogresses : (s.proc p).progresses = true) : (s.proc p).inbox = [] := by
  have hhandle := h (.handle p) rfl
  simp only [step, Option.map_eq_none_iff] at hhandle
  unfold Process.handle at hhandle
  split at hhandle
  · next hnil => exact hnil
  · rw [if_pos hprogresses] at hhandle
    cases hhandle

/-- **A rank at rest** has left its loop, sleeps with nothing left to do, or waits for another
rank. -/
theorem Still.cases (h : Still types node usesRndv s) (hI : Inv types usesRndv s) {p : ι}
    (halive : (s.proc p).Alive) :
    (s.proc p).Asleep ∨ ∃ q, WaitsFor usesRndv s p q := by
  have hok := hI.ok p
  have hnone : (s.proc p).next (node p) usesRndv p (s.fetched p) = none :=
    Option.map_eq_none_iff.mp (h (.step p) rfl)
  have hprogressed : (s.proc p).progressed false = none :=
    Option.map_eq_none_iff.mp (h (.progressed p false) rfl)
  obtain ⟨-, hunsignalled⟩ := h.quiet p
  unfold Process.next at hnone
  cases hpc : (s.proc p).pc with
  | check | recheck =>
    rw [hpc] at hnone
    dsimp only at hnone
    split at hnone <;> cases hnone
  | pop =>
    rw [hpc] at hnone
    dsimp only at hnone
    split at hnone <;> cases hnone
  | send package | onSend package =>
    rw [hpc] at hnone
    cases hnone
  | stopped => exact absurd hpc halive.1
  | recvOps =>
    rw [hpc] at hnone
    have hsome := hok.receives.stepRecvOps_isSome (node p) halive.2
    rw [Option.map_eq_none_iff.mp hnone] at hsome
    cases hsome
  | progress called =>
    have hinbox := h.inbox_nil (p := p) (by rw [Process.progresses, hpc])
    unfold Process.progressed at hprogressed
    rw [hpc] at hprogressed
    dsimp only at hprogressed
    rw [hinbox] at hprogressed
    split at hprogressed <;> cases hprogressed
  | sendWait package =>
    refine Or.inr ⟨package.dest, ⟨p, package⟩, ?_, rfl⟩
    rw [unanswered_of_sendWait hpc]
    rw [hpc] at hnone
    dsimp only at hnone
    split at hnone
    · next hcond =>
      rw [if_pos hcond]
      exact Multiset.mem_singleton_self _
    · cases hnone
  | wait =>
    rw [hpc] at hnone
    dsimp only at hnone
    split at hnone
    · cases hnone
    · next hsignal =>
      split at hnone
      · next hempty =>
        have hasleep : ¬ (s.proc p).Alert := by
          rintro (hs | hu)
          · exact hsignal hs
          · exact hu.ne' hunsignalled
        have hpending := hok.drained (by rw [hpc]; rfl)
        refine Or.inl ⟨hpc, Bool.eq_false_iff.mpr fun hterminate => ?_, ?_, ?_⟩
        · exact hasleep (hok.leaving (by rw [hpc]; rfl) hterminate)
        · by_contra hne
          exact hasleep (hok.awake (by rw [hpc]; rfl) hne)
        · rw [Process.unreceived, Process.parcels, hpending, List.isEmpty_iff.mp hempty]
          rfl
      · cases hnone

/-- A rank that is waited for does not sleep. -/
theorem Still.not_asleep (h : Still types node usesRndv s) (hI : Inv types usesRndv s) {p q : ι}
    (hpq : WaitsFor usesRndv s p q) : ¬ (s.proc q).Asleep := by
  intro hasleep
  obtain ⟨x, hx, hdest⟩ := hpq
  have hmem : x ∈ ((s.proc p).unanswered usesRndv p (s.fetched p)).filter
      fun x => x.package.dest = q := Multiset.mem_filter.mpr ⟨hx, hdest⟩
  rw [← hI.answered p q, (h.quiet q).1, hasleep.unreceived] at hmem
  exact absurd (Multiset.mem_filter.mp hmem).1 (Multiset.notMem_zero _)

/-- All packages were sent, and their data was given to the nodes of the ranks. -/
structure Done (s : State ι D E) : Prop where
  completed : ∀ p, (s.proc p).completed = (s.proc p).pushed
  delivered : ∀ q, ∑ p, (s.proc p).sentTo p q = (s.proc q).delivered

/-- **The ranks wait in a circle, or all is done**, where nothing changes any more in a cluster none
of whose ranks has left its loop. -/
theorem done_iff_no_circle (hbuilt : ∀ p, Built types (node p))
    (hs : (system D types node usesRndv).Reachable s) (halive : ∀ p, (s.proc p).Alive)
    (hstuck : Stuck types node usesRndv s) :
    Done s ↔ ¬ ∃ p, TransGen (WaitsFor usesRndv s) p p := by
  have hN := fun p => Comm.nodeOk_of_built (hbuilt p)
  have hI := inv_of_reachable hN hs
  have hstill := hstuck.still hN hI
  constructor
  · rintro hdone ⟨p, hcircle⟩
    -- a rank of the circle has a package that is not completed
    obtain ⟨q, ⟨x, hx, -⟩, -⟩ := TransGen.head'_iff.mp hcircle
    obtain ⟨hpc, -⟩ := unanswered_of_mem hx
    have hpushed := (hI.ok p).fifo
    rw [(hI.ok p).answered, hpc, hdone.completed p] at hpushed
    have hlength := congrArg List.length hpushed
    simp [Pc.sending, Pc.toSend] at hlength
  · intro hno
    have hasleep : ∀ p, (s.proc p).Asleep := by
      by_contra hnot
      obtain ⟨p, hp⟩ := not_forall.mp hnot
      refine hno ?_
      obtain ⟨i, -, hi⟩ := WaitGraph.exists_transGen_self
        (r := WaitsFor usesRndv s) (S := {p | ¬ (s.proc p).Asleep}) ⟨p, hp⟩ fun i hi => by
          obtain ⟨q, hq⟩ := (hstill.cases hI (halive i)).resolve_left hi
          exact ⟨q, hstill.not_asleep hI hq, hq⟩
      exact ⟨i, hi⟩
    refine ⟨fun p => ?_, fun q => ?_⟩
    · rw [(hI.ok p).fifo, (hI.ok p).answered, (hasleep p).pc, (hasleep p).packageQueue]
      exact (by simp [Pc.sending, Pc.toSend])
    · rw [hI.delivered q (halive q).2, (hasleep q).unreceived, (hstill.quiet q).1]
      simp

/-- Two ranks that wait for each other. -/
def deadlocked : State (Fin 2) ℕ ℕ :=
  (system ℕ {0, 1} (fun _ => Comm.zeroAndOne) large).replay initial sendEachOther

theorem reachable_deadlocked :
    (system ℕ {0, 1} (fun _ => Comm.zeroAndOne) large).Reachable deadlocked :=
  TransitionSystem.Reachable.replay (.start rfl) sendEachOther (by decide)

theorem packages_once_deadlocked : Accounted large deadlocked ∧
    (deadlocked.proc 0).completed = [⟨9, 4, 0, 1, true⟩] ∧
    (deadlocked.proc 1).delivered = [⟨0, ⟨9, 4, 0, 1, true⟩⟩] ∧
    (deadlocked.proc 1).parcels = [⟨0, ⟨10, 100, 1, 1, true⟩⟩] :=
  ⟨packages_once (fun _ => Comm.built_zeroAndOne) reachable_deadlocked, by decide⟩

theorem stuck_deadlocked : Stuck {0, 1} (fun _ => Comm.zeroAndOne) large deadlocked := by
  intro a s' houtside h
  cases a with
  | push p package => cases houtside
  | destroy p => cases houtside
  | event p => cases houtside
  | poll p => exact eq_of_step_poll h
  | signal p =>
    have hnone : ∀ p, (deadlocked.proc p).unsignalled = 0 := by decide
    simp only [step, hnone] at h
    cases h
  | handle p =>
    have hnone : ∀ p, ((deadlocked.proc p).handle Comm.zeroAndOne large).isNone := by decide
    simp only [step, Option.isNone_iff_eq_none.mp (hnone p), Option.map_none] at h
    cases h
  | step p =>
    have hnone : ∀ p, ((deadlocked.proc p).next Comm.zeroAndOne large p
        (deadlocked.fetched p)).isNone := by decide
    simp only [step, Option.isNone_iff_eq_none.mp (hnone p), Option.map_none] at h
    cases h
  | progressed p busy =>
    have hnone : ∀ busy p, ((deadlocked.proc p).progressed busy).isNone := by decide
    simp only [step, Option.isNone_iff_eq_none.mp (hnone busy p), Option.map_none] at h
    cases h
  | arrive p k =>
    have hnone : ∀ p, (deadlocked.wire p).isEmpty = true := by decide
    simp only [step, List.isEmpty_iff.mp (hnone p), List.getElem?_nil, Option.map_none] at h
    cases h

instance [DecidableEq D] (p q : ι) : Decidable (WaitsFor usesRndv s p q) :=
  Multiset.decidableExistsMultiset

instance [DecidableEq D] (P : Process ι D E) : Decidable P.Alive :=
  inferInstanceAs (Decidable (_ ∧ _))

theorem circle_deadlocked : TransGen (WaitsFor large deadlocked) 0 0 :=
  .head (b := 1) (by decide) (.single (by decide))

theorem done_iff_no_circle_deadlocked :
    Done deadlocked ↔ ¬ ∃ p, TransGen (WaitsFor large deadlocked) p p :=
  done_iff_no_circle (fun _ => Comm.built_zeroAndOne) reachable_deadlocked
    (by decide) stuck_deadlocked

/-- `tu_comm_task_destroy` joins the thread of a rank, unless it waits for a send. -/
theorem join_returns (hbuilt : ∀ p, Built types (node p))
    (hs : (system D types node usesRndv).Reachable s) (hstuck : Stuck types node usesRndv s) {p : ι}
    (hterminate : (s.proc p).canTerminate = true) (hpc : (s.proc p).comm.pc ≠ .abort) :
    (s.proc p).pc = .stopped ∨ ∃ q, WaitsFor usesRndv s p q := by
  have hN := fun p => Comm.nodeOk_of_built (hbuilt p)
  have hI := inv_of_reachable hN hs
  by_cases hstopped : (s.proc p).pc = .stopped
  · exact Or.inl hstopped
  · rcases (hstuck.still hN hI).cases hI ⟨hstopped, hpc⟩ with hasleep | hwaits
    · cases hterminate.symm.trans hasleep.canTerminate
    · exact Or.inr hwaits

/-! ## A circle of ranks -/

/-- **A rank goes on waiting** for one that waits itself: nobody else receives its data. -/
theorem waitsFor_of_step (hI : Inv types usesRndv s) {a : Action ι D}
    (h : step types node usesRndv s a = some s') {i j k : ι} (hij : WaitsFor usesRndv s i j)
    (hjk : WaitsFor usesRndv s j k) :
    WaitsFor usesRndv s' i j ∧ (s'.proc i).completed = (s.proc i).completed := by
  obtain ⟨x, hx, hdest⟩ := hij
  obtain ⟨hpc, hrndv, hfetched, hsrc, hunanswered⟩ := unanswered_of_mem hx
  obtain ⟨y, hy, -⟩ := hjk
  obtain ⟨hjpc, -⟩ := unanswered_of_mem hy
  -- it is enough that the thread stays where it is, and that the data is not received
  have hstay : (s'.proc i).pc = (s.proc i).pc → (s'.proc i).completed = (s.proc i).completed →
      s'.fetched i = s.fetched i →
      WaitsFor usesRndv s' i j ∧ (s'.proc i).completed = (s.proc i).completed := by
    intro hpc' hcompleted hfetched'
    refine ⟨⟨x, ?_, hdest⟩, hcompleted⟩
    rw [unanswered_of_sendWait (hpc'.trans hpc), hfetched', ← unanswered_of_sendWait hpc]
    exact hx
  have hquiet : ∀ p (P : Process ι D E), s' = s.apply p P .quiet → P.pc = (s.proc p).pc →
      P.completed = (s.proc p).completed →
      WaitsFor usesRndv s' i j ∧ (s'.proc i).completed = (s.proc i).completed := by
    rintro p P rfl hP hcompleted
    exact hstay (update_apply_eq (fun _ P => Process.pc P) hP i)
      (update_apply_eq (fun _ P => Process.completed P) hcompleted i) rfl
  have hother : ∀ p (P : Process ι D E) effect, s' = s.apply p P effect → i ≠ p →
      effect ≠ .receive i →
      WaitsFor usesRndv s' i j ∧ (s'.proc i).completed = (s.proc i).completed := by
    rintro p P effect rfl hne heffect
    have hproc : ∀ effect, (s.apply p P effect).proc i = s.proc i := by
      intro effect
      cases effect <;> exact Function.update_of_ne hne _ _
    refine hstay (by rw [hproc]) (by rw [hproc]) ?_
    cases effect with
    | quiet => rfl
    | send x => exact Function.update_of_ne hne _ _
    | receive src => exact Function.update_of_ne (fun heq : i = src => heffect (by rw [heq])) _ _
  cases a with
  | push p package =>
    simp only [step] at h
    split at h
    · exact hquiet p _ (Option.some.inj h).symm rfl rfl
    · cases h
  | destroy p => exact hquiet p _ (Option.some.inj h).symm rfl rfl
  | event p => exact hquiet p _ (Option.some.inj h).symm rfl rfl
  | signal p =>
    simp only [step] at h
    split at h
    · cases h
    · exact hquiet p _ (Option.some.inj h).symm rfl rfl
  | arrive p k =>
    obtain ⟨y, -, rfl⟩ := Option.map_eq_some_iff.mp h
    let P : Process ι D E := { s.proc p with inbox := (s.proc p).inbox ++ [y] }
    exact hstay (update_apply_eq (g := s.proc) (i := p) (b := P) (fun _ P => Process.pc P) rfl i)
      (update_apply_eq (g := s.proc) (i := p) (b := P) (fun _ P => Process.completed P) rfl i) rfl
  | handle p =>
    obtain ⟨P', hP', hs'⟩ := Option.map_eq_some_iff.mp h
    by_cases hp : i = p
    · subst hp
      unfold Process.handle at hP'
      split at hP'
      · cases hP'
      · split at hP'
        · obtain rfl := Option.some.inj hP'
          exact hquiet i _ hs'.symm (by dsimp only; rw [hpc]; rfl) rfl
        · cases hP'
    · exact hother p P' .quiet hs'.symm hp fun heq => by cases heq
  | progressed p busy =>
    obtain ⟨P', hP', hs'⟩ := Option.map_eq_some_iff.mp h
    refine hother p P' .quiet hs'.symm ?_ fun heq => by cases heq
    rintro rfl
    unfold Process.progressed at hP'
    rw [hpc] at hP'
    cases hP'
  | poll p =>
    obtain rfl := eq_of_step_poll h
    exact hstay rfl rfl rfl
  | step p =>
    obtain ⟨⟨P', effect⟩, hr, hs'⟩ := Option.map_eq_some_iff.mp h
    refine hother p P' effect hs'.symm ?_ ?_
    · -- the thread waits in `ucx_request_wait`
      rintro rfl
      unfold Process.next at hr
      rw [hpc] at hr
      dsimp only at hr
      rw [hrndv, hfetched] at hr
      cases hr
    · -- the receiver waits itself, and is not in `process_recv_ops`
      rintro rfl
      obtain ⟨-, hdoes⟩ := (hI.ok p).next hr
      generalize heffect : (Effect.receive i : Effect ι D) = effect at hdoes
      cases hdoes with
      | quiet => cases heffect
      | send => cases heffect
      | receive z hzrndv hzpc hsent hinbox hhandled hparcels hpc' =>
        obtain rfl := Effect.receive.inj heffect
        have hz : z ∈ (s.proc p).unreceived := by
          rw [Process.unreceived, hparcels]
          exact Multiset.mem_add.mpr (Or.inr (Multiset.mem_coe.mpr List.mem_cons_self))
        obtain ⟨hzmem, hzdest⟩ := hI.mem_unanswered hz hzrndv
        rw [hunanswered, Multiset.mem_singleton] at hzmem
        rw [← hzmem, hzdest] at hdest
        rw [hdest] at hzpc
        cases hzpc.symm.trans hjpc

/-- **A circle of waiting ranks stays for ever**, whatever else happens, and none of its ranks
completes another package. -/
theorem circle_stays (hbuilt : ∀ p, Built types (node p))
    (hs : (system D types node usesRndv).Reachable s) {p : ι}
    (hcircle : TransGen (WaitsFor usesRndv s) p p)
    {trace : List (TransitionSystem.Transition (State ι D E) (Action ι D))}
    (hpath : (system D types node usesRndv).Path (fun _ _ => True) s trace s') :
    TransGen (WaitsFor usesRndv s') p p ∧ (s'.proc p).completed = (s.proc p).completed := by
  have hN := fun p => Comm.nodeOk_of_built (hbuilt p)
  have hrun := hpath.invariant (I := fun _ u => Inv types usesRndv u ∧
    TransGen (WaitsFor usesRndv u) p p ∧ (u.proc p).completed = (s.proc p).completed)
    ⟨inv_of_reachable hN hs, hcircle, rfl⟩ fun tr u a u' hu _ hstep => by
      obtain ⟨hI, hcircle, hcompleted⟩ := hu
      have hstep' := fun i j k => waitsFor_of_step (i := i) (j := j) (k := k) hI hstep
      obtain ⟨q, hpq, hqp⟩ := TransGen.head'_iff.mp hcircle
      have hq : ∃ k, WaitsFor usesRndv u q k := by
        rcases ReflTransGen.cases_head_iff.mp hqp with rfl | ⟨k, hqk, -⟩
        · exact ⟨q, hpq⟩
        · exact ⟨k, hqk⟩
      obtain ⟨k, hqk⟩ := hq
      exact ⟨inv_step hN hI hstep, WaitGraph.transGen_self_of_step
        (fun i j k hij hjk => (hstep' i j k hij hjk).1) hcircle,
        (hstep' p q k hpq hqk).2.trans hcompleted⟩
  exact hrun.2

/-- The ranks still wait for each other after `tu_comm_task_destroy`. -/
theorem circle_stays_deadlocked :
    TransGen (WaitsFor large ((system ℕ {0, 1} (fun _ => Comm.zeroAndOne) large).replay deadlocked
      [.destroy 0, .signal 0])) 0 0 :=
  (circle_stays (fun _ => Comm.built_zeroAndOne) reachable_deadlocked circle_deadlocked
    (TransitionSystem.Path.replay [.destroy 0, .signal 0] (by decide))).1

end Cluster
end ThreadUtils
