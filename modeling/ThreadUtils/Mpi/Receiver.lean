import ThreadUtils.Mpi.CommTask

/-!
# What the receiving half always keeps

`process_recv_ops` may give a datum to the input of another type.  What it keeps in any case is told
here: the loop meets the entries of `rndv_queue` one by one, in the order in which the handler added
them, and every message that was handled is in an input queue or pending, once, unless an assertion
has failed.

## The loop and the list

`Receives` ties the linked queue to a plain list of entries, `pending`.  The iterator of the loop
always stands on the first of them: an entry is removed as soon as its data is there, and the loop
goes on with what `remove` returns, which is the entry behind.  The handler may add entries while
the loop waits, and they come at the end.  So the loop is told by four steps on the list, namely
entering, leaving when it is empty, beginning a receive and completing one (`RecvStep`), and what is
built on it need not know about slots and links any more.

The exception is the assertion of `comm_progress_result`, which fails for a type that the node does
not have.  The loop can read such a type from the end mark, and then the process is gone with the
datum in its hands.
-/

namespace ThreadUtils
namespace Comm

open CommQueue (Holds)

variable {D E : Type*}

/-- What holds between the steps, whatever the types of the messages are. -/
structure Receives (s : State D E) : Prop where
  holds : ∃ live free, s.rndvQueue.Holds live free ∧ live.map Prod.snd = s.pending
  /-- The iterator stands on the first entry. -/
  recv : ∀ it, s.pc = .recv it → it = s.rndvQueue.usedList
  wait : ∀ it buffer, s.pc = .wait it buffer →
    it = s.rndvQueue.usedList ∧ ∃ e rest, s.pending = e :: rest ∧ buffer = e.desc
  desc : ∀ e ∈ s.pending, e.desc.isSome
  handled : s.pc ≠ .abort → (s.handled.map fun m => some m.data).Perm
    (s.pushed.map (fun p => p.2.data) ++ s.pending.map RndvData.desc)

/-- A step of `process_recv_ops`, by what it does to the pending entries. -/
inductive RecvStep (s s' : State D E) : Prop
  | enter (pc : s.pc = .progress) (it : ℕ) (pc' : s'.pc = .recv it)
      (pending : s'.pending = s.pending)
  | leave (it : ℕ) (pc : s.pc = .recv it) (pc' : s'.pc = .progress) (nil : s.pending = [])
      (pending : s'.pending = [])
  | start (it : ℕ) (pc : s.pc = .recv it) (e : RndvData D) (rest : List (RndvData D))
      (cons : s.pending = e :: rest) (pc' : s'.pc = .wait it e.desc)
      (pending : s'.pending = s.pending)
  | complete (it : ℕ) (e : RndvData D) (rest : List (RndvData D)) (pc : s.pc = .wait it e.desc)
      (cons : s.pending = e :: rest) (pc' : s'.pc = .abort ∨ ∃ it', s'.pc = .recv it')
      (pending : s'.pending = rest)

variable {types : Finset Dfg.TypeId} {comm : CommNode E} {s s' : State D E}

theorem receives_initial : Receives (initial : State D E) where
  holds := ⟨[], _, CommQueue.holds_defaultQueue, rfl⟩
  recv _ h := by cases h
  wait _ _ h := by cases h
  desc _ he := absurd he List.not_mem_nil
  handled _ := .refl _

/-- What `comm_progress_result` leaves as it is. -/
theorem commProgressResult_fields (comm : CommNode E) (s : State D E) (data : Option D)
    (type : Dfg.TypeId) :
    (commProgressResult comm s data type).rndvQueue = s.rndvQueue ∧
      (commProgressResult comm s data type).pending = s.pending ∧
      (commProgressResult comm s data type).handled = s.handled := by
  unfold commProgressResult
  split <;> exact ⟨rfl, rfl, rfl⟩

/-- `comm_progress_result` pushes the datum, or its assertion fails. -/
theorem commProgressResult_cases (comm : CommNode E) (s : State D E) (data : Option D)
    (type : Dfg.TypeId) :
    (commProgressResult comm s data type).pc = .abort ∨
      (commProgressResult comm s data type).pc = s.pc ∧
        (commProgressResult comm s data type).pushed.map (fun p => p.2.data) =
          s.pushed.map (fun p => p.2.data) ++ [data] := by
  unfold commProgressResult
  split
  · exact Or.inr ⟨rfl, List.map_append⟩
  · exact Or.inl rfl

/-- **The handler** pushes an eager message, and adds an entry for a rendezvous message. -/
theorem Receives.handler (hN : NodeOk types comm) (h : Receives s) {m : Message D}
    (hm : m.type ∈ types) (hpc : s.pc.progresses = true) :
    Receives (commAmHandler comm s m) ∧ (commAmHandler comm s m).pc = s.pc ∧
      (commAmHandler comm s m).handled = s.handled ++ [m] ∧
      (commAmHandler comm s m).pending =
        s.pending ++ if m.rndv then [m.entry] else [] := by
  have hne : s.pc ≠ .abort := by
    intro habort
    rw [habort] at hpc
    cases hpc
  unfold commAmHandler
  dsimp only
  cases hrndv : m.rndv with
  | false =>
    unfold commProgressResult
    rw [if_neg Bool.false_ne_true, if_pos ((hN.inputs _).mpr (neg_mem_inputTypes hm)),
      if_neg Bool.false_ne_true, List.append_nil]
    refine ⟨⟨h.holds, h.recv, h.wait, h.desc, fun _ => ?_⟩, rfl, rfl, rfl⟩
    dsimp only
    rw [List.map_append, List.map_append, List.append_assoc]
    refine ((h.handled hne).append_right _).trans ?_
    rw [List.append_assoc]
    exact List.perm_append_comm.append_left _
  | true =>
    obtain ⟨live, free, hholds, hpending⟩ := h.holds
    obtain ⟨⟨free', hadd⟩, -, -⟩ := hholds.addObject m.entry
    have hpending' : (live ++ [((s.rndvQueue.addObject m.entry).1, m.entry)]).map Prod.snd =
        s.pending ++ [m.entry] := by
      rw [List.map_append, hpending]
      rfl
    rw [if_pos rfl, if_pos rfl]
    refine ⟨⟨⟨_, free', hadd, hpending'⟩, fun it h => ?_, fun it buffer hwait => ?_,
      fun e he => ?_, fun _ => ?_⟩, rfl, rfl, rfl⟩
    · dsimp only at h
      rw [h] at hpc
      cases hpc
    · -- the first entry stays the first
      obtain ⟨hit, e, rest, hcons, hbuffer⟩ := h.wait it buffer hwait
      refine ⟨?_, e, rest ++ [m.entry], ?_, hbuffer⟩
      · rw [hit, hadd.usedList, hholds.usedList]
        cases live with
        | nil => exact absurd (hpending.trans hcons) (by simp)
        | cons e' live => rfl
      · dsimp only
        rw [hcons]
        rfl
    · rcases List.mem_append.mp he with he | he
      · exact h.desc e he
      · rw [List.mem_singleton.mp he]
        rfl
    · dsimp only
      rw [List.map_append, List.map_append, ← List.append_assoc]
      exact (h.handled hne).append_right _

/-- The loop is never stuck, but behind a failed assertion. -/
theorem Receives.stepRecvOps_isSome (comm : CommNode E) (h : Receives s) (hpc : s.pc ≠ .abort) :
    (stepRecvOps comm s).isSome := by
  unfold stepRecvOps
  cases hs : s.pc with
  | abort => exact absurd hs hpc
  | progress => rfl
  | recv it =>
    dsimp only
    split <;> rfl
  | wait it buffer =>
    obtain ⟨hit, e, rest, hcons, -⟩ := h.wait it buffer hs
    obtain ⟨live, free, hholds, hpending⟩ := h.holds
    cases live with
    | nil => exact absurd (hpending.trans hcons) (by simp)
    | cons el live =>
      obtain ⟨q, hremove, -⟩ := Holds.remove (l := []) hholds
      have hit' : it = el.1 := hit.trans hholds.usedList
      dsimp only
      rw [hit', hremove]
      rfl

/-- **A step of the loop** keeps what holds, and goes on with the pending entries one by one. -/
theorem Receives.recvOps (h : Receives s) (hstep : stepRecvOps comm s = some s') :
    Receives s' ∧ s'.handled = s.handled ∧ RecvStep s s' := by
  obtain ⟨live, free, hholds, hpending⟩ := h.holds
  unfold stepRecvOps at hstep
  cases hs : s.pc with
  | abort =>
    rw [hs] at hstep
    cases hstep
  | progress =>
    rw [hs] at hstep
    obtain rfl := Option.some.inj hstep
    refine ⟨{ h with
      recv := fun it heq => (ProgressPc.recv.inj heq).symm
      wait := fun _ _ heq => by cases heq
      handled := fun _ => h.handled (by rw [hs]; exact fun heq => by cases heq) }, rfl,
      .enter hs _ rfl rfl⟩
  | recv it =>
    have hit := h.recv it hs
    have hne : s.pc ≠ .abort := by
      rw [hs]
      exact fun heq => by cases heq
    rw [hs] at hstep
    dsimp only at hstep
    rw [hholds.usedList] at hit
    split at hstep
    · next hzero =>
      obtain rfl := Option.some.inj hstep
      have hnil : s.pending = [] := pending_eq_nil h.holds ((h.recv it hs).symm.trans hzero)
      refine ⟨{ h with
        recv := fun _ heq => by cases heq
        wait := fun _ _ heq => by cases heq
        handled := fun _ => h.handled hne }, rfl, .leave it hs rfl hnil hnil⟩
    · next hne' =>
      obtain rfl := Option.some.inj hstep
      cases live with
      | nil => exact absurd hit hne'
      | cons e live =>
        have hdesc : (s.rndvQueue.atIdx it).desc = e.2.desc := by
          rw [hit]
          exact congrArg RndvData.desc (hholds.data e List.mem_cons_self)
        have hcons : s.pending = e.2 :: live.map Prod.snd := hpending.symm
        refine ⟨{ h with
          recv := fun _ heq => by cases heq
          wait := fun it' buffer heq => ?_
          handled := fun _ => h.handled hne }, rfl,
          .start it hs e.2 _ hcons (congrArg (ProgressPc.wait it) hdesc) rfl⟩
        obtain ⟨rfl, rfl⟩ := ProgressPc.wait.inj heq
        exact ⟨hit.trans hholds.usedList.symm, e.2, _, hcons, hdesc⟩
  | wait it buffer =>
    obtain ⟨hit, e, rest, hcons, hbuffer⟩ := h.wait it buffer hs
    have hhandled := h.handled (by rw [hs]; exact fun heq => by cases heq)
    cases live with
    | nil => exact absurd (hpending.trans hcons) (by simp)
    | cons el live =>
      rw [hcons, List.map_cons, List.cons.injEq] at hpending
      obtain ⟨q, hremove, hq⟩ := Holds.remove (l := []) hholds
      have hit' : it = el.1 := hit.trans hholds.usedList
      rw [hs] at hstep
      dsimp only at hstep
      rw [hit', hremove] at hstep
      obtain rfl := Option.some.inj hstep
      rw [hcons, List.map_cons] at hhandled
      rw [hcons, List.tail_cons]
      -- the state before the assertion of `comm_progress_result`
      let u : State D E :=
        { s with rndvQueue := q, pending := rest, pc := .recv ((live.map Prod.fst).headD 0) }
      obtain ⟨hqueue, hrest, hsame⟩ := commProgressResult_fields comm u buffer
        (q.atIdx ((live.map Prod.fst).headD 0)).type
      have hcases := commProgressResult_cases comm u buffer
        (q.atIdx ((live.map Prod.fst).headD 0)).type
      change Receives (commProgressResult comm u buffer _) ∧ _
      generalize commProgressResult comm u buffer (q.atIdx ((live.map Prod.fst).headD 0)).type = t
        at hqueue hrest hsame hcases ⊢
      change t.rndvQueue = q at hqueue
      change t.pending = rest at hrest
      refine ⟨⟨⟨live, el.1 :: free, hqueue.symm ▸ hq, hpending.2.trans hrest.symm⟩,
        fun it' heq => ?_, fun it' b heq => ?_, fun e' he' => ?_, fun hne => ?_⟩, hsame,
        .complete it e rest (hs.trans (congrArg _ hbuffer)) hcons ?_ hrest⟩
      · rcases hcases with hpc | ⟨hpc, -⟩
        · rw [hpc] at heq
          cases heq
        · rw [hqueue, hq.usedList]
          exact (ProgressPc.recv.inj (hpc.symm.trans heq)).symm
      · rcases hcases with hpc | ⟨hpc, -⟩ <;> cases hpc.symm.trans heq
      · rw [hrest] at he'
        exact h.desc e' (hcons ▸ List.mem_cons_of_mem _ he')
      · rcases hcases with hpc | ⟨-, hpushed⟩
        · exact absurd hpc hne
        · rw [hsame, hpushed, hrest, hbuffer, List.append_assoc]
          exact hhandled
      · exact hcases.imp_right fun hpc => ⟨_, hpc.1⟩

end Comm
end ThreadUtils
