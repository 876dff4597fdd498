import ThreadUtils.DataStructures.FiniteLockFreeQueue.Model

/-!
# Tickets, laps and the owners of a slot

The sequence number of a slot tells which ticket the slot is at and what has been
done for that ticket.  `SlotAt` names the four phases of a ticket `t`:

* `free`: nobody has taken `t` from `tail` yet;
* `writing`: a push took `t` and has not stored `t + 1`;
* `ready`: the data of `t` is stored and nobody has taken `t` from `head`;
* `reading`: a pop took `t` and has not stored `t + SIZE`.

`ThreadOk` says what a thread knows at each program counter.  A thread that is
about to exchange a ticket knows a lower bound of the sequence number of its slot
only, because the slot may have moved on since the load.  The exchange succeeds
only if the ticket is still the current one, and then the phase of the slot is
forced (`slot_free_of_tail`, `slot_ready_of_head`).

With `SIZE >= 2` the number `t + 1` stored by a push differs from the number
`t + SIZE` stored by a pop, so two owners never share a slot (`owner_unique`).
-/

namespace ThreadUtils
namespace FiniteLockFreeQueue

variable {ι : Type*} {α : Type*} {R : RingSize}

/-! ## Laps of the ring -/

/-- Two different tickets of one slot are a lap apart. -/
theorem RingSize.add_size_le {t t' : ℕ} (h : R.slot t = R.slot t') (hlt : t < t') :
    t + R.size ≤ t' := by
  rw [R.slot_eq_mod, R.slot_eq_mod] at h
  have hmod : (t' - t) % R.size = 0 := Nat.sub_mod_eq_zero_of_mod_eq h.symm
  have hle : R.size ≤ t' - t := Nat.le_of_dvd (by omega) (Nat.dvd_of_mod_eq_zero hmod)
  omega

theorem RingSize.slot_add_size (t : ℕ) : R.slot (t + R.size) = R.slot t := by
  rw [R.slot_eq_mod, R.slot_eq_mod, Nat.add_mod_right]

/-! ## The invariant -/

/-- The calls that have not taken a ticket yet. -/
def Pc.pending : Pc α → ℕ
  | .pushLoadTail _ | .pushLoadSeq _ _ | .pushCas _ _ => 1
  | .popLoadHead | .popLoadSeq _ | .popCas _ => 1
  | _ => 0

/-- The slot of the ticket `t` is at `t`, in one of the phases of that ticket.  A slot
that is being written or read has an owner. -/
inductive SlotAt (R : RingSize) (m : Mem α) (pc : ι → Pc α) (pushed : List (ι × α))
    (t : ℕ) : Prop
  | free : m.sequence (R.slot t) = t → m.tail ≤ t → t < m.head + R.size →
      SlotAt R m pc pushed t
  | writing (i : ι) : m.sequence (R.slot t) = t → m.head ≤ t → t < m.tail →
      m.tail ≤ t + R.size → (pc i).ticket = some t → SlotAt R m pc pushed t
  | ready (i : ι) : m.sequence (R.slot t) = t + 1 → m.head ≤ t → t < m.tail →
      m.tail ≤ t + R.size → pushed[t]? = some (i, m.data (R.slot t)) →
      SlotAt R m pc pushed t
  | reading (i : ι) : m.sequence (R.slot t) = t + 1 → t < m.head →
      m.tail ≤ t + R.size → (pc i).ticket = some t → SlotAt R m pc pushed t

/-- What the thread `i` knows about the queue at its program counter. -/
def ThreadOk (R : RingSize) (m : Mem α) (pushed : List (ι × α)) (popped : List ι)
    (i : ι) : Pc α → Prop
  | .pushLoadSeq _ t => t ≤ m.tail
  | .pushCas _ t => t ≤ m.sequence (R.slot t)
  | .pushWrite value t =>
      m.sequence (R.slot t) = t ∧ t < m.tail ∧ pushed[t]? = some (i, value)
  | .pushStore value t =>
      m.sequence (R.slot t) = t ∧ t < m.tail ∧ pushed[t]? = some (i, value) ∧
        m.data (R.slot t) = value
  | .pushTrue value t => pushed[t]? = some (i, value)
  | .popLoadSeq h => h ≤ m.head
  | .popCas h => h + 1 ≤ m.sequence (R.slot h)
  | .popRead h =>
      m.sequence (R.slot h) = h + 1 ∧ h < m.head ∧ popped[h]? = some i ∧
        ∃ j, pushed[h]? = some (j, m.data (R.slot h))
  | .popStore h result =>
      m.sequence (R.slot h) = h + 1 ∧ h < m.head ∧ popped[h]? = some i ∧
        ∃ j, pushed[h]? = some (j, result)
  | .popTrue h result => popped[h]? = some i ∧ ∃ j, pushed[h]? = some (j, result)
  | _ => True

/-- The invariant of the queue. -/
structure Inv [Fintype ι] (R : RingSize) (s : State ι α) : Prop where
  /-- Every ticket belongs to a call of its own. -/
  budget : s.pushed.length + s.popped.length + ∑ i, (s.pc i).pending ≤ s.calls
  tail_eq : s.mem.tail = s.pushed.length
  head_eq : s.mem.head = s.popped.length
  head_le_tail : s.mem.head ≤ s.mem.tail
  tail_le : s.mem.tail ≤ s.mem.head + R.size
  slots : ∀ k, ∃ t, R.slot t = R.slot k ∧ SlotAt R s.mem s.pc s.pushed t
  threads : ∀ i, ThreadOk R s.mem s.pushed s.popped i (s.pc i)

theorem inv_init [Fintype ι] {s : State ι α} (h : IsInitial R s) : Inv R s := by
  obtain ⟨hseq, hhead, htail, hpc, hcalls, hpushed, hpopped⟩ := h
  refine ⟨?_, ?_, ?_, ?_, ?_, fun k => ?_, fun i => ?_⟩
  · simp [hpushed, hpopped, hpc, Pc.pending]
  · simp [htail, hpushed]
  · simp [hhead, hpopped]
  · rw [hhead]
    exact Nat.zero_le _
  · rw [htail]
    exact Nat.zero_le _
  · have hk : R.slot (R.slot k) = R.slot k := by
      rw [R.slot_eq_mod, R.slot_eq_mod, Nat.mod_mod]
    refine ⟨R.slot k, hk, .free ?_ ?_ ?_⟩
    · rw [hk, hseq _ (R.slot_lt k)]
    · rw [htail]
      exact Nat.zero_le _
    · rw [hhead, Nat.zero_add]
      exact R.slot_lt k
  · rw [hpc]
    trivial

/-! ## What a slot is at -/

section Phases

variable [Fintype ι] {s : State ι α}

theorem Inv.tail_le_calls (hI : Inv R s) : s.mem.tail ≤ s.calls := by
  have := hI.budget
  have := hI.tail_eq
  omega

/-- Sequence numbers stay clear of the wrap of `size_t`. -/
theorem Inv.sequence_lt (hI : Inv R s) (hb : s.calls < 2 ^ 63) (k : ℕ) :
    s.mem.sequence (R.slot k) < sizeT := by
  have hcalls := hI.tail_le_calls
  have hle := hI.head_le_tail
  have hsize := R.size_le
  obtain ⟨t, hk, hslot⟩ := hI.slots k
  rw [sizeT_eq, ← hk]
  rcases hslot with ⟨hseq, -, hlt⟩ | ⟨-, hseq, -, hlt, -, -⟩ | ⟨-, hseq, -, hlt, -, -⟩ |
    ⟨-, hseq, hlt, -, -⟩ <;> omega

/-- A slot whose number has reached the current `tail` is free for that ticket. -/
theorem Inv.slot_free_of_tail (hI : Inv R s) (h2 : 2 ≤ R.size) {t : ℕ}
    (ht : s.mem.tail = t) (hseq : t ≤ s.mem.sequence (R.slot t)) :
    s.mem.sequence (R.slot t) = t ∧ t < s.mem.head + R.size := by
  obtain ⟨t', hk, hslot⟩ := hI.slots t
  have hle := hI.head_le_tail
  rw [← hk] at hseq ⊢
  rcases hslot with ⟨h, h₁, h₂⟩ | ⟨-, h, h₁, h₂, h₃, -⟩ | ⟨-, h, h₁, h₂, h₃, -⟩ |
    ⟨-, h, h₁, h₂, -⟩
  · have : t' = t := by
      by_contra hne
      have := R.add_size_le hk.symm (by omega)
      omega
    omega
  · omega
  · have := R.add_size_le hk (by omega)
    omega
  · have := R.add_size_le hk (by omega)
    omega

/-- A slot whose number has passed the current `head` holds the data of that ticket. -/
theorem Inv.slot_ready_of_head (hI : Inv R s) {h : ℕ} (hh : s.mem.head = h)
    (hseq : h + 1 ≤ s.mem.sequence (R.slot h)) :
    s.mem.sequence (R.slot h) = h + 1 ∧ h < s.mem.tail ∧ s.mem.tail ≤ h + R.size ∧
      ∃ j, s.pushed[h]? = some (j, s.mem.data (R.slot h)) := by
  obtain ⟨t', hk, hslot⟩ := hI.slots h
  have hle := hI.head_le_tail
  have hle' := hI.tail_le
  rw [← hk] at hseq ⊢
  rcases hslot with ⟨hs, h₁, h₂⟩ | ⟨-, hs, h₁, h₂, h₃, -⟩ | ⟨i, hs, h₁, h₂, h₃, hv⟩ |
    ⟨-, hs, h₁, h₂, -⟩
  · have := R.add_size_le hk.symm (by omega)
    omega
  · have := R.add_size_le hk.symm (by omega)
    omega
  · have : t' = h := by
      by_contra hne
      have := R.add_size_le hk.symm (by omega)
      omega
    subst this
    exact ⟨hs, h₂, h₃, i, hv⟩
  · omega

/-- The phase of a slot that a push owns. -/
theorem Inv.slot_writing (hI : Inv R s) (h2 : 2 ≤ R.size) {t : ℕ}
    (hseq : s.mem.sequence (R.slot t) = t) (ht : t < s.mem.tail) :
    s.mem.head ≤ t ∧ s.mem.tail ≤ t + R.size := by
  obtain ⟨t', hk, hslot⟩ := hI.slots t
  rw [← hk] at hseq
  rcases hslot with ⟨h, h₁, h₂⟩ | ⟨-, h, h₁, h₂, h₃, -⟩ | ⟨-, h, h₁, h₂, h₃, -⟩ |
    ⟨-, h, h₁, h₂, -⟩
  · omega
  · omega
  · have := R.add_size_le hk (by omega)
    omega
  · have := R.add_size_le hk (by omega)
    omega

/-- The phase of a slot that a pop owns. -/
theorem Inv.slot_reading (hI : Inv R s) (h2 : 2 ≤ R.size) {h : ℕ}
    (hseq : s.mem.sequence (R.slot h) = h + 1) (hh : h < s.mem.head) :
    s.mem.tail ≤ h + R.size := by
  obtain ⟨t', hk, hslot⟩ := hI.slots h
  have hle := hI.head_le_tail
  rw [← hk] at hseq
  rcases hslot with ⟨hs, h₁, h₂⟩ | ⟨-, hs, h₁, h₂, h₃, -⟩ | ⟨-, hs, h₁, h₂, h₃, -⟩ |
    ⟨-, hs, h₁, h₂, -⟩
  · have := R.add_size_le hk.symm (by omega)
    omega
  · have := R.add_size_le hk.symm (by omega)
    omega
  · omega
  · omega

omit [Fintype ι] in
/-- What an owner knows of its slot, whichever of the two calls it is in. -/
theorem ThreadOk.of_ticket {m : Mem α} {pushed : List (ι × α)} {popped : List ι} {i : ι}
    {pc : Pc α} {t : ℕ} (hok : ThreadOk R m pushed popped i pc) (ht : pc.ticket = some t) :
    (m.sequence (R.slot t) = t ∧ ∃ value, pushed[t]? = some (i, value)) ∨
      (m.sequence (R.slot t) = t + 1 ∧ popped[t]? = some i) := by
  cases pc <;> simp only [Pc.ticket, Option.some.injEq, reduceCtorEq] at ht <;> subst ht
  case pushWrite value _ => exact Or.inl ⟨hok.1, value, hok.2.2⟩
  case pushStore value _ => exact Or.inl ⟨hok.1, value, hok.2.2.1⟩
  case popRead => exact Or.inr ⟨hok.1, hok.2.2.1⟩
  case popStore => exact Or.inr ⟨hok.1, hok.2.2.1⟩

omit [Fintype ι] in
/-- What a thread knows survives a step of another thread: the counters, the
sequence numbers and the history grow, and the slot it owns is left alone. -/
theorem ThreadOk.mono {m m' : Mem α} {pushed pushed' : List (ι × α)}
    {popped popped' : List ι} {i : ι} {pc : Pc α}
    (hok : ThreadOk R m pushed popped i pc) (htail : m.tail ≤ m'.tail) (hhead : m.head ≤ m'.head)
    (hseq : ∀ k, m.sequence (R.slot k) ≤ m'.sequence (R.slot k))
    (hpushed : ∀ (k : ℕ) (p : ι × α), pushed[k]? = some p → pushed'[k]? = some p)
    (hpopped : ∀ (k : ℕ) (p : ι), popped[k]? = some p → popped'[k]? = some p)
    (hmine : ∀ t, pc.ticket = some t →
      m'.sequence (R.slot t) = m.sequence (R.slot t) ∧
        m'.data (R.slot t) = m.data (R.slot t)) : ThreadOk R m' pushed' popped' i pc := by
  cases pc with
  | pushLoadSeq value t => exact le_trans hok htail
  | pushCas value t => exact le_trans hok (hseq t)
  | pushWrite value t =>
    obtain ⟨hs, ht, hv⟩ := hok
    exact ⟨(hmine t rfl).1.trans hs, lt_of_lt_of_le ht htail, hpushed _ _ hv⟩
  | pushStore value t =>
    obtain ⟨hs, ht, hv, hd⟩ := hok
    exact ⟨(hmine t rfl).1.trans hs, lt_of_lt_of_le ht htail, hpushed _ _ hv,
      (hmine t rfl).2.trans hd⟩
  | pushTrue value t => exact hpushed _ _ hok
  | popLoadSeq h => exact le_trans hok hhead
  | popCas h => exact le_trans hok (hseq h)
  | popRead h =>
    obtain ⟨hs, hh, hp, j, hv⟩ := hok
    refine ⟨(hmine h rfl).1.trans hs, lt_of_lt_of_le hh hhead, hpopped _ _ hp, j, ?_⟩
    rw [(hmine h rfl).2]
    exact hpushed _ _ hv
  | popStore h result =>
    obtain ⟨hs, hh, hp, j, hv⟩ := hok
    exact ⟨(hmine h rfl).1.trans hs, lt_of_lt_of_le hh hhead, hpopped _ _ hp, j,
      hpushed _ _ hv⟩
  | popTrue h result =>
    obtain ⟨hp, j, hv⟩ := hok
    exact ⟨hpopped _ _ hp, j, hpushed _ _ hv⟩
  | idle => trivial
  | pushLoadTail value => trivial
  | pushFalse value => trivial
  | popLoadHead => trivial
  | popFalse => trivial

/-- **No two threads own the same slot.** -/
theorem Inv.owner_unique (hI : Inv R s) (h2 : 2 ≤ R.size) {i j : ι} {t t' : ℕ}
    (hi : (s.pc i).ticket = some t) (hj : (s.pc j).ticket = some t')
    (hslot : R.slot t = R.slot t') : i = j := by
  rcases (hI.threads i).of_ticket hi with ⟨hs, v, hv⟩ | ⟨hs, hp⟩ <;>
    rcases (hI.threads j).of_ticket hj with ⟨hs', v', hv'⟩ | ⟨hs', hp'⟩ <;>
    rw [← hslot, hs] at hs'
  · subst hs'
    rw [hv, Option.some.injEq, Prod.mk.injEq] at hv'
    exact hv'.1
  -- a push and a pop on one slot would be at consecutive tickets of it
  · have := R.add_size_le hslot.symm (by omega)
    omega
  · have := R.add_size_le hslot (by omega)
    omega
  · rw [Nat.add_right_cancel hs', hp', Option.some.injEq] at hp
    exact hp.symm

end Phases

/-! ## One step -/

section Steps

variable [Fintype ι] [DecidableEq ι] {s : State ι α}

/-- An entry of a list stays where it is when the list is extended. -/
theorem getElem?_append_of_some {β : Type*} {l : List β} (l' : List β) {k : ℕ} {b : β}
    (h : l[k]? = some b) : (l ++ l')[k]? = some b := by
  rw [List.getElem?_append_left (List.getElem?_eq_some_iff.mp h).1, h]

/-- The budget after a step that takes `k` tickets. -/
theorem Inv.budget_update (hI : Inv R s) (i : ι) (p : Pc α) (k c : ℕ)
    (hk : k + p.pending + s.calls ≤ (s.pc i).pending + c) :
    s.pushed.length + s.popped.length + k +
      ∑ j, (Function.update s.pc i p j).pending ≤ c := by
  have hsum := sum_update_exchange Pc.pending s.pc i p
  have hbudget := hI.budget
  omega

omit [Fintype ι] in
/-- The owners of slots when the thread `i` neither takes a slot nor gives one up. -/
theorem ticket_update {pc : ι → Pc α} {i : ι} {p : Pc α} (h : p.ticket = (pc i).ticket)
    (j : ι) : (Function.update pc i p j).ticket = (pc j).ticket := by
  by_cases hj : j = i
  · subst hj
    rw [Function.update_self, h]
  · rw [Function.update_of_ne hj]

/-- A thread that only moves on, knowing what its new program counter claims. -/
theorem Inv.of_pc (hI : Inv R s) (i : ι) (p : Pc α) (c : ℕ)
    (hok : ThreadOk R s.mem s.pushed s.popped i p) (ht : p.ticket = (s.pc i).ticket)
    (hc : p.pending + s.calls ≤ (s.pc i).pending + c) :
    Inv R { s with pc := Function.update s.pc i p, calls := c } := by
  refine ⟨?_, hI.tail_eq, hI.head_eq, hI.head_le_tail, hI.tail_le, fun k => ?_, fun j => ?_⟩
  · exact hI.budget_update i p 0 c (by omega)
  · obtain ⟨t, hk, hslot⟩ := hI.slots k
    refine ⟨t, hk, ?_⟩
    rcases hslot with ⟨h, h₁, h₂⟩ | ⟨j, h, h₁, h₂, h₃, ho⟩ | ⟨j, h, h₁, h₂, h₃, hv⟩ |
      ⟨j, h, h₁, h₂, ho⟩
    · exact .free h h₁ h₂
    · exact .writing j h h₁ h₂ h₃ ((ticket_update ht j).trans ho)
    · exact .ready j h h₁ h₂ h₃ hv
    · exact .reading j h h₁ h₂ ((ticket_update ht j).trans ho)
  · by_cases hj : j = i
    · subst hj
      simpa using hok
    · simpa [Function.update_of_ne hj] using hI.threads j

omit [Fintype ι] in
/-- A thread without a slot is not the owner that is looked for. -/
theorem ticket_of_other {pc : ι → Pc α} {i j : ι} {p : Pc α} {t : ℕ}
    (hnone : (pc i).ticket = none) (ho : (pc j).ticket = some t) :
    (Function.update pc i p j).ticket = some t := by
  have hj : j ≠ i := by
    rintro rfl
    rw [hnone] at ho
    exact Option.some_ne_none t ho.symm
  rw [Function.update_of_ne hj, ho]

/-- A successful exchange of `tail`. -/
theorem Inv.exchange_tail (hI : Inv R s) (h2 : 2 ≤ R.size) {i : ι} {value : α} {t : ℕ}
    (hpc : s.pc i = .pushCas value t) (ht : s.mem.tail = t) :
    Inv R { mem := { s.mem with tail := t + 1 }
            pc := Function.update s.pc i (.pushWrite value t), calls := s.calls
            pushed := s.pushed ++ [(i, value)], popped := s.popped } := by
  have hok := hI.threads i
  rw [hpc] at hok
  obtain ⟨hseq, hlap⟩ := hI.slot_free_of_tail h2 ht hok
  have hlen : s.pushed.length = t := by rw [← hI.tail_eq, ht]
  have hnone : (s.pc i).ticket = none := by rw [hpc]; rfl
  have hle := hI.head_le_tail
  have hpos := R.size_pos
  refine ⟨?_, ?_, hI.head_eq, ?_, ?_, fun k => ?_, fun j => ?_⟩
  · have hbudget := hI.budget_update i (.pushWrite value t) 1 s.calls
      (by rw [hpc]; rfl)
    simp only [List.length_append, List.length_singleton]
    omega
  · rw [List.length_append, List.length_singleton, hlen]
  · show s.mem.head ≤ t + 1
    omega
  · show t + 1 ≤ s.mem.head + R.size
    omega
  · -- the slot of `t` is being written; every other slot keeps its phase
    by_cases hk : R.slot k = R.slot t
    · exact ⟨t, hk.symm, .writing i hseq (show s.mem.head ≤ t by omega) (Nat.lt_succ_self t)
        (show t + 1 ≤ t + R.size by omega) (by simp [Pc.ticket])⟩
    · obtain ⟨t', hk', hslot⟩ := hI.slots k
      have hne : t' ≠ t := fun h => hk (by rw [← hk', h])
      have hne' : t' + R.size ≠ t := fun h => hk (by rw [← hk', ← h, R.slot_add_size])
      refine ⟨t', hk', ?_⟩
      rcases hslot with ⟨h, h₁, h₂⟩ | ⟨j, h, h₁, h₂, h₃, ho⟩ | ⟨j, h, h₁, h₂, h₃, hv⟩ |
        ⟨j, h, h₁, h₂, ho⟩
      · exact .free h (show t + 1 ≤ t' by omega) h₂
      · exact .writing j h h₁ (show t' < t + 1 by omega) (show t + 1 ≤ t' + R.size by omega)
          (ticket_of_other hnone ho)
      · exact .ready j h h₁ (show t' < t + 1 by omega) (show t + 1 ≤ t' + R.size by omega)
          (getElem?_append_of_some _ hv)
      · exact .reading j h h₁ (show t + 1 ≤ t' + R.size by omega) (ticket_of_other hnone ho)
  · by_cases hj : j = i
    · subst hj
      simp only [Function.update_self]
      refine ⟨hseq, Nat.lt_succ_self t, ?_⟩
      rw [← hlen, List.getElem?_concat_length]
    · simp only [Function.update_of_ne hj]
      exact (hI.threads j).mono (by show s.mem.tail ≤ t + 1; omega) le_rfl (fun _ => le_rfl)
        (fun _ _ => getElem?_append_of_some _) (fun _ _ => id) fun _ _ => ⟨rfl, rfl⟩

/-- A successful exchange of `head`. -/
theorem Inv.exchange_head (hI : Inv R s) {i : ι} {h : ℕ}
    (hpc : s.pc i = .popCas h) (hh : s.mem.head = h) :
    Inv R { mem := { s.mem with head := h + 1 }
            pc := Function.update s.pc i (.popRead h), calls := s.calls
            pushed := s.pushed, popped := s.popped ++ [i] } := by
  have hok := hI.threads i
  rw [hpc] at hok
  obtain ⟨hseq, hlt, hlap, hval⟩ := hI.slot_ready_of_head hh hok
  have hlen : s.popped.length = h := by rw [← hI.head_eq, hh]
  have hnone : (s.pc i).ticket = none := by rw [hpc]; rfl
  refine ⟨?_, hI.tail_eq, ?_, hlt, ?_, fun k => ?_, fun j => ?_⟩
  · have hbudget := hI.budget_update i (.popRead h) 1 s.calls
      (by rw [hpc]; rfl)
    simp only [List.length_append, List.length_singleton]
    omega
  · rw [List.length_append, List.length_singleton, hlen]
  · show s.mem.tail ≤ h + 1 + R.size
    omega
  · by_cases hk : R.slot k = R.slot h
    · exact ⟨h, hk.symm, .reading i hseq (Nat.lt_succ_self h) hlap (by simp [Pc.ticket])⟩
    · obtain ⟨t', hk', hslot⟩ := hI.slots k
      have hne : t' ≠ h := fun he => hk (by rw [← hk', he])
      refine ⟨t', hk', ?_⟩
      rcases hslot with ⟨hs, h₁, h₂⟩ | ⟨j, hs, h₁, h₂, h₃, ho⟩ | ⟨j, hs, h₁, h₂, h₃, hv⟩ |
        ⟨j, hs, h₁, h₂, ho⟩
      · exact .free hs h₁ (show t' < h + 1 + R.size by omega)
      · exact .writing j hs (show h + 1 ≤ t' by omega) h₂ h₃ (ticket_of_other hnone ho)
      · exact .ready j hs (show h + 1 ≤ t' by omega) h₂ h₃ hv
      · exact .reading j hs (show t' < h + 1 by omega) h₂ (ticket_of_other hnone ho)
  · by_cases hj : j = i
    · subst hj
      simp only [Function.update_self]
      refine ⟨hseq, Nat.lt_succ_self h, ?_, hval⟩
      rw [← hlen, List.getElem?_concat_length]
    · simp only [Function.update_of_ne hj]
      exact (hI.threads j).mono le_rfl (by show s.mem.head ≤ h + 1; omega) (fun _ => le_rfl)
        (fun _ _ => id) (fun _ _ => getElem?_append_of_some _) fun _ _ => ⟨rfl, rfl⟩

/-- The owner of a slot writes its data. -/
theorem Inv.write_data (hI : Inv R s) (h2 : 2 ≤ R.size) {i : ι} {value : α} {t : ℕ}
    (hpc : s.pc i = .pushWrite value t) :
    Inv R { s with
      mem := { s.mem with data := Function.update s.mem.data (R.slot t) value }
      pc := Function.update s.pc i (.pushStore value t) } := by
  have hok := hI.threads i
  rw [hpc] at hok
  obtain ⟨hseq, hlt, hval⟩ := hok
  have hmine : (s.pc i).ticket = some t := by rw [hpc]; rfl
  have hsame : (Pc.pushStore value t).ticket = (s.pc i).ticket := hmine.symm
  refine ⟨?_, hI.tail_eq, hI.head_eq, hI.head_le_tail, hI.tail_le, fun k => ?_, fun j => ?_⟩
  · exact hI.budget_update i (.pushStore value t) 0 _ (by rw [hpc]; rfl)
  · obtain ⟨t', hk', hslot⟩ := hI.slots k
    refine ⟨t', hk', ?_⟩
    rcases hslot with ⟨h, h₁, h₂⟩ | ⟨j, h, h₁, h₂, h₃, ho⟩ | ⟨j, h, h₁, h₂, h₃, hv⟩ |
      ⟨j, h, h₁, h₂, ho⟩
    · exact .free h h₁ h₂
    · exact .writing j h h₁ h₂ h₃ ((ticket_update hsame j).trans ho)
    · -- a slot that holds data is not the one being written
      have hne : R.slot t' ≠ R.slot t := by
        intro he
        rw [he, hseq] at h
        have := R.add_size_le he (by omega)
        omega
      refine .ready j h h₁ h₂ h₃ ?_
      simp only [Function.update_of_ne hne]
      exact hv
    · exact .reading j h h₁ h₂ ((ticket_update hsame j).trans ho)
  · by_cases hj : j = i
    · subst hj
      simp only [Function.update_self]
      exact ⟨hseq, hlt, hval, by simp⟩
    · simp only [Function.update_of_ne hj]
      refine (hI.threads j).mono le_rfl le_rfl (fun _ => le_rfl) (fun _ _ => id)
        (fun _ _ => id) fun t' ht' => ⟨rfl, ?_⟩
      have hne : R.slot t' ≠ R.slot t := fun he => hj (hI.owner_unique h2 ht' hmine he)
      simp only [Function.update_of_ne hne]

/-- The owner of a slot stores a larger sequence number and gives the slot up. -/
theorem Inv.store_sequence (hI : Inv R s) (h2 : 2 ≤ R.size) {i : ι} {t n : ℕ} {p : Pc α}
    (hmine : (s.pc i).ticket = some t) (hn : s.mem.sequence (R.slot t) ≤ n)
    (hpend : p.pending = 0)
    (hok : ThreadOk R { s.mem with sequence := Function.update s.mem.sequence (R.slot t) n }
      s.pushed s.popped i p)
    (hslot : ∃ t', R.slot t' = R.slot t ∧
      SlotAt R { s.mem with sequence := Function.update s.mem.sequence (R.slot t) n }
        (Function.update s.pc i p) s.pushed t') :
    Inv R { s with
      mem := { s.mem with sequence := Function.update s.mem.sequence (R.slot t) n }
      pc := Function.update s.pc i p } := by
  refine ⟨?_, hI.tail_eq, hI.head_eq, hI.head_le_tail, hI.tail_le, fun k => ?_, fun j => ?_⟩
  · exact hI.budget_update i p 0 s.calls (by omega)
  · by_cases hk : R.slot k = R.slot t
    · obtain ⟨t', ht', hslot'⟩ := hslot
      exact ⟨t', ht'.trans hk.symm, hslot'⟩
    · obtain ⟨t', hk', hslot'⟩ := hI.slots k
      have hne : R.slot t' ≠ R.slot t := fun h => hk (by rw [← hk', h])
      have hsame : Function.update s.mem.sequence (R.slot t) n (R.slot t') =
          s.mem.sequence (R.slot t') := Function.update_of_ne hne _ _
      refine ⟨t', hk', ?_⟩
      -- the thread `i` owned the slot of `t` only
      have hother : ∀ j, (s.pc j).ticket = some t' →
          (Function.update s.pc i p j).ticket = some t' := by
        intro j ho
        have hj : j ≠ i := by
          rintro rfl
          rw [hmine, Option.some.injEq] at ho
          exact hne (by rw [ho])
        rw [Function.update_of_ne hj, ho]
      rcases hslot' with ⟨h, h₁, h₂⟩ | ⟨j, h, h₁, h₂, h₃, ho⟩ | ⟨j, h, h₁, h₂, h₃, hv⟩ |
        ⟨j, h, h₁, h₂, ho⟩
      · exact .free (hsame.trans h) h₁ h₂
      · exact .writing j (hsame.trans h) h₁ h₂ h₃ (hother j ho)
      · exact .ready j (hsame.trans h) h₁ h₂ h₃ hv
      · exact .reading j (hsame.trans h) h₁ h₂ (hother j ho)
  · by_cases hj : j = i
    · subst hj
      simpa using hok
    · simp only [Function.update_of_ne hj]
      refine (hI.threads j).mono le_rfl le_rfl (fun k => ?_) (fun _ _ => id)
        (fun _ _ => id) fun t' ht' => ⟨?_, rfl⟩
      · by_cases hk : R.slot k = R.slot t
        · simp only [hk, Function.update_self]
          exact hn
        · simp only [Function.update_of_ne hk, le_refl]
      · have hne : R.slot t' ≠ R.slot t := fun he => hj (hI.owner_unique h2 ht' hmine he)
        simp only [Function.update_of_ne hne]

end Steps

end FiniteLockFreeQueue
end ThreadUtils
