import ThreadUtils.DataStructures.FiniteLockFreeQueue.Invariant

/-!
# Each element goes from its push to exactly one pop

`inv_step` carries the invariant over every step, as long as fewer than `2 ^ 63`
calls were made.  What it says about the tickets is collected in `TicketOrder`:
the queue holds between `0` and `SIZE` tickets, no slot has two owners, and the
`k`-th successful exchange of `head` hands out the value of the `k`-th successful
exchange of `tail`.

The order is that of the exchanges, not that of the calls or of the returns.  A push with an earlier
ticket may store its element later, and the pop that has drawn the same ticket finds the slot not
ready until then.  So the ring is first in, first out by its tickets, and each element is handed
over by the number of its slot alone: whoever reads the slot at the ticket `k` finds what was
written for `k`, since the next ticket of the slot cannot be taken before `k` was popped.
-/

namespace ThreadUtils
namespace FiniteLockFreeQueue

variable {ι : Type*} {α : Type*} {R : RingSize}

section Steps

variable [Fintype ι] [DecidableEq ι] {s : State ι α}

/-- The invariant after one access. -/
theorem Inv.access (hI : Inv R s) (h2 : 2 ≤ R.size) (hb : s.calls < 2 ^ 63) {i : ι}
    {spurious : Bool} {r : Mem α × Pc α}
    (h : s.mem.access R spurious (s.pc i) = some r) :
    Inv R { mem := r.1, pc := Function.update s.pc i r.2, calls := s.calls
            pushed := (record s i r.2).1, popped := (record s i r.2).2 } := by
  have hok := hI.threads i
  have hcalls := hI.tail_le_calls
  have hle := hI.head_le_tail
  have hsize := R.size_le
  cases hpc : s.pc i with
  | idle => simp [Mem.access, hpc] at h
  | pushTrue value t => simp [Mem.access, hpc] at h
  | pushFalse value => simp [Mem.access, hpc] at h
  | popTrue n result => simp [Mem.access, hpc] at h
  | popFalse => simp [Mem.access, hpc] at h
  | pushLoadTail value =>
    simp only [Mem.access, hpc, Option.some.injEq] at h
    subst h
    simp only [record, hpc]
    exact hI.of_pc i _ _ le_rfl (by rw [hpc]; rfl) (by rw [hpc]; rfl)
  | pushLoadSeq value t =>
    rw [hpc] at hok
    have ht : t < sizeT := by
      have : t ≤ s.mem.tail := hok
      rw [sizeT_eq]
      omega
    simp only [Mem.access, hpc] at h
    split at h
    · next hdiff =>
      rw [intptrDiff_eq_zero_iff (hI.sequence_lt hb t) ht] at hdiff
      rw [Option.some.injEq] at h
      subst h
      simp only [record, hpc]
      exact hI.of_pc i _ _ hdiff.ge (by rw [hpc]; rfl) (by rw [hpc]; rfl)
    · split at h <;> rw [Option.some.injEq] at h <;> subst h <;> simp only [record, hpc]
      · exact hI.of_pc i (.pushFalse value) s.calls trivial (by rw [hpc]; rfl)
          (by rw [hpc]; simp [Pc.pending])
      · exact hI.of_pc i _ _ trivial (by rw [hpc]; rfl) (by rw [hpc]; rfl)
  | pushCas value t =>
    simp only [Mem.access, hpc] at h
    split at h
    · next hcas =>
      rw [Option.some.injEq] at h
      subst h
      simp only [record, hpc]
      rw [addSizeT_of_lt (by rw [sizeT_eq]; omega)]
      exact hI.exchange_tail h2 hpc hcas.2
    · rw [Option.some.injEq] at h
      subst h
      simp only [record, hpc]
      exact hI.of_pc i _ _ le_rfl (by rw [hpc]; rfl) (by rw [hpc]; rfl)
  | pushWrite value t =>
    simp only [Mem.access, hpc, Option.some.injEq] at h
    subst h
    simp only [record, hpc]
    exact hI.write_data h2 hpc
  | pushStore value t =>
    rw [hpc] at hok
    obtain ⟨hseq, hlt, hval, hdata⟩ := hok
    obtain ⟨hhead, hlap⟩ := hI.slot_writing h2 hseq hlt
    simp only [Mem.access, hpc, Option.some.injEq] at h
    subst h
    simp only [record, hpc]
    rw [addSizeT_of_lt (by rw [sizeT_eq]; omega)]
    refine hI.store_sequence h2 (by rw [hpc]; rfl) (by omega) rfl hval
      ⟨t, rfl, .ready i (by simp) hhead hlt hlap ?_⟩
    rw [hval, hdata]
  | popLoadHead =>
    simp only [Mem.access, hpc, Option.some.injEq] at h
    subst h
    simp only [record, hpc]
    exact hI.of_pc i _ _ le_rfl (by rw [hpc]; rfl) (by rw [hpc]; rfl)
  | popLoadSeq n =>
    rw [hpc] at hok
    have hn : n + 1 < sizeT := by
      have : n ≤ s.mem.head := hok
      rw [sizeT_eq]
      omega
    simp only [Mem.access, hpc, addSizeT_of_lt hn] at h
    split at h
    · next hdiff =>
      rw [intptrDiff_eq_zero_iff (hI.sequence_lt hb n) hn] at hdiff
      rw [Option.some.injEq] at h
      subst h
      simp only [record, hpc]
      exact hI.of_pc i _ _ hdiff.ge (by rw [hpc]; rfl) (by rw [hpc]; rfl)
    · split at h <;> rw [Option.some.injEq] at h <;> subst h <;> simp only [record, hpc]
      · exact hI.of_pc i .popFalse s.calls trivial (by rw [hpc]; rfl)
          (by rw [hpc]; simp [Pc.pending])
      · exact hI.of_pc i _ _ trivial (by rw [hpc]; rfl) (by rw [hpc]; rfl)
  | popCas n =>
    simp only [Mem.access, hpc] at h
    split at h
    · next hcas =>
      rw [Option.some.injEq] at h
      subst h
      simp only [record, hpc]
      rw [addSizeT_of_lt (by rw [sizeT_eq]; omega)]
      exact hI.exchange_head hpc hcas.2
    · rw [Option.some.injEq] at h
      subst h
      simp only [record, hpc]
      exact hI.of_pc i _ _ le_rfl (by rw [hpc]; rfl) (by rw [hpc]; rfl)
  | popRead n =>
    rw [hpc] at hok
    simp only [Mem.access, hpc, Option.some.injEq] at h
    subst h
    simp only [record, hpc]
    exact hI.of_pc i _ _ hok (by rw [hpc]; rfl) (by rw [hpc]; rfl)
  | popStore n result =>
    rw [hpc] at hok
    obtain ⟨hseq, hlt, hp, hval⟩ := hok
    have hlap := hI.slot_reading h2 hseq hlt
    simp only [Mem.access, hpc, Option.some.injEq] at h
    subst h
    simp only [record, hpc]
    rw [addSizeT_of_lt (by rw [sizeT_eq]; omega)]
    refine hI.store_sequence h2 (by rw [hpc]; rfl) (by omega) rfl ⟨hp, hval⟩
      ⟨n + R.size, R.slot_add_size n, .free ?_ hlap ?_⟩
    · simp [R.slot_add_size]
    · show n + R.size < s.mem.head + R.size
      omega

/-- **One step keeps the invariant** while fewer than `2 ^ 63` calls were made. -/
theorem inv_step (h2 : 2 ≤ R.size) {s' : State ι α} {a : Action ι α} (hI : Inv R s)
    (hb : s'.calls < 2 ^ 63) (h : step R s a = some s') : Inv R s' := by
  cases a with
  | push i value =>
    cases hpc : s.pc i <;> simp only [step, hpc, reduceCtorEq, Option.some.injEq] at h
    subst h
    exact hI.of_pc i _ _ trivial (by rw [hpc]; rfl) (by rw [hpc]; simp [Pc.pending]; omega)
  | pop i =>
    cases hpc : s.pc i <;> simp only [step, hpc, reduceCtorEq, Option.some.injEq] at h
    subst h
    exact hI.of_pc i _ _ trivial (by rw [hpc]; rfl) (by rw [hpc]; simp [Pc.pending]; omega)
  | access i spurious =>
    simp only [step, Option.map_eq_some_iff] at h
    obtain ⟨r, hr, rfl⟩ := h
    exact hI.access h2 hb hr
  | ret i =>
    cases hpc : s.pc i <;> simp only [step, hpc, reduceCtorEq, Option.some.injEq] at h <;>
      subst h <;> exact hI.of_pc i .idle s.calls trivial (by rw [hpc]; rfl) (by rw [hpc]; rfl)

omit [Fintype ι] in
theorem calls_le_of_step {s' : State ι α} {a : Action ι α} (h : step R s a = some s') :
    s.calls ≤ s'.calls := by
  cases a with
  | push i value =>
    cases hpc : s.pc i <;> simp only [step, hpc, reduceCtorEq, Option.some.injEq] at h
    subst h
    exact Nat.le_succ _
  | pop i =>
    cases hpc : s.pc i <;> simp only [step, hpc, reduceCtorEq, Option.some.injEq] at h
    subst h
    exact Nat.le_succ _
  | access i spurious =>
    simp only [step, Option.map_eq_some_iff] at h
    obtain ⟨r, -, rfl⟩ := h
    exact le_rfl
  | ret i =>
    cases hpc : s.pc i <;> simp only [step, hpc, reduceCtorEq, Option.some.injEq] at h <;>
      subst h <;> exact le_rfl

/-- The invariant holds in every state of a run with fewer than `2 ^ 63` calls. -/
theorem inv_of_reachable (h2 : 2 ≤ R.size) (hs : (system ι α R).Reachable s)
    (hb : s.calls < 2 ^ 63) : Inv R s := by
  refine TransitionSystem.Reaches.invariant_within (B := fun s => s.calls < 2 ^ 63) ?_ ?_ ?_
    hs hb
  · intro s a s' h hb'
    exact lt_of_le_of_lt (calls_le_of_step h) hb'
  · exact fun s h => inv_init h
  · exact fun s a s' hI hb' h => inv_step h2 hI hb' h

end Steps

/-! ## Ticket order -/

/-- What the tickets guarantee to the users of the queue. -/
structure TicketOrder (R : RingSize) (s : State ι α) : Prop where
  head_le_tail : s.mem.head ≤ s.mem.tail
  tail_le_head_add_size : s.mem.tail ≤ s.mem.head + R.size
  /-- The counters are the numbers of successful exchanges. -/
  counters : s.mem.tail = s.pushed.length ∧ s.mem.head = s.popped.length
  /-- Two threads between their exchange and their store are at different slots. -/
  owner_unique : ∀ i j t t', i ≠ j → (s.pc i).ticket = some t → (s.pc j).ticket = some t' →
    R.slot t ≠ R.slot t'
  /-- The pop of the exchange number `k` returns the value of the push of the exchange
  number `k`. -/
  handed_over : ∀ i k v, s.pc i = .popTrue k v →
    s.popped[k]? = some i ∧ ∃ j, s.pushed[k]? = some (j, v)
  /-- A slot that is about to be read holds the value of its ticket. -/
  written_before_read : ∀ i k, s.pc i = .popRead k →
    s.popped[k]? = some i ∧ ∃ j, s.pushed[k]? = some (j, s.mem.data (R.slot k))
  /-- A value whose push is over and that no pop claimed is still in its slot. -/
  not_lost : ∀ k, s.mem.head ≤ k → k < s.mem.tail → (∀ i, (s.pc i).ticket ≠ some k) →
    s.mem.sequence (R.slot k) = k + 1 ∧ ∃ j, s.pushed[k]? = some (j, s.mem.data (R.slot k))

/-- The slots of the tickets between `head` and `tail` are being written or ready. -/
theorem Inv.not_lost [Fintype ι] {s : State ι α} (hI : Inv R s) {k : ℕ}
    (hk : s.mem.head ≤ k) (hk' : k < s.mem.tail) (hfree : ∀ i, (s.pc i).ticket ≠ some k) :
    s.mem.sequence (R.slot k) = k + 1 ∧
      ∃ j, s.pushed[k]? = some (j, s.mem.data (R.slot k)) := by
  have hle := hI.tail_le
  obtain ⟨t, ht, hslot⟩ := hI.slots k
  have hsame : s.mem.head ≤ t → t < s.mem.tail → t = k := by
    intro h₁ h₂
    rcases Nat.lt_trichotomy t k with hlt | heq | hgt
    · have := R.add_size_le ht hlt
      omega
    · exact heq
    · have := R.add_size_le ht.symm hgt
      omega
  rcases hslot with ⟨h, h₁, h₂⟩ | ⟨i, h, h₁, h₂, h₃, ho⟩ | ⟨i, h, h₁, h₂, h₃, hv⟩ |
    ⟨i, h, h₁, h₂, ho⟩
  · have := R.add_size_le ht.symm (by omega)
    omega
  · rw [hsame h₁ h₂] at ho
    exact absurd ho (hfree i)
  · rw [hsame h₁ h₂] at h hv
    exact ⟨h, i, hv⟩
  · have := R.add_size_le ht (by omega)
    omega

/-- **Every element goes from its push to exactly one pop, in ticket order**: for
every capacity of at least `2`, any number of threads and any interleaving with
fewer than `2 ^ 63` calls. -/
theorem ticketOrder_of_reachable [Fintype ι] [DecidableEq ι] (R : RingSize)
    (h2 : 2 ≤ R.size) (s : State ι α) (hs : (system ι α R).Reachable s)
    (hb : s.calls < 2 ^ 63) : TicketOrder R s := by
  have hI := inv_of_reachable h2 hs hb
  refine ⟨hI.head_le_tail, hI.tail_le, ⟨hI.tail_eq, hI.head_eq⟩, ?_, ?_, ?_, ?_⟩
  · intro i j t t' hne hi hj hslot
    exact hne (hI.owner_unique h2 hi hj hslot)
  · intro i k v hpc
    have hok := hI.threads i
    rw [hpc] at hok
    exact hok
  · intro i k hpc
    have hok := hI.threads i
    rw [hpc] at hok
    exact ⟨hok.2.2.1, hok.2.2.2⟩
  · intro k hk hk' hfree
    exact hI.not_lost hk hk' hfree

/-- A ring of two slots. -/
def ringOfTwo : RingSize := ⟨2, 1, by norm_num, by norm_num⟩

/-- An empty queue of two threads. -/
def emptyOfTwo : State (Fin 2) ℕ :=
  { mem := { sequence := id, data := fun _ => 0, head := 0, tail := 0 }
    pc := fun _ => .idle, calls := 0, pushed := [], popped := [] }

/-- Thread `0` pushes `7` and thread `1` pops it; the first exchange of thread `1`
fails spuriously. -/
def handOver : List (Action (Fin 2) ℕ) :=
  [.push 0 7, .access 0 false, .pop 1, .access 0 false, .access 0 false, .access 1 false,
    .access 0 false, .access 0 false, .access 1 false, .access 1 true, .access 1 false,
    .access 1 false, .access 1 false, .access 1 false]

theorem ticketOrder_handOver :
    let s := (system (Fin 2) ℕ ringOfTwo).replay emptyOfTwo handOver
    s.pc 1 = .popTrue 0 7 ∧ TicketOrder ringOfTwo s := by
  have hinit : (system (Fin 2) ℕ ringOfTwo).Reachable emptyOfTwo :=
    .start ⟨fun _ _ => rfl, rfl, rfl, fun _ => rfl, rfl, rfl, rfl⟩
  exact ⟨by decide, ticketOrder_of_reachable ringOfTwo (by decide) _
    (hinit.replay handOver (by decide)) (by decide)⟩

end FiniteLockFreeQueue
end ThreadUtils
