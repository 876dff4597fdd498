import ThreadUtils.DataStructures.FiniteLockFreeQueue.BoundedFifo
import ThreadUtils.DataStructures.FiniteLockFreeQueue.Tickets

/-!
# What the answer `false` says

A call answers `false` from the sequence number of a single slot.  Behind the number that it
looks for there are two possibilities: the ring is empty, or full, at that instant, or the
slot belongs to another thread that has exchanged its ticket and not stored the next number.

`Exhausted` is the state in which the answer would be a fact about the elements, and `Blocked`
the state that it does prove.  `Truthful` says that a call fails only if such a state occurs
between the call and its return.

* `truthful_blocked` --- a call that fails met a blocked state.
* `not_truthful` --- it need not have met an exhausted one: a thread that stalls after its
  exchange hides the elements, or the room, behind its own slot.  And a ticket that is read
  again after half the range of a `size_t` is not compared correctly.

## The instant of a failure

A call loads its ticket first and the sequence number afterwards, and it fails if the number is
behind.  By then the counter may have moved on.  But a slot is only behind a ticket that nobody has
taken: whoever takes a ticket has seen the number, and the numbers of a slot never go down.  So at
the load of the sequence number the ticket is the current `head`, or `tail`
(`Inv.blocked_pop`, `Inv.blocked_push`), and that state is the witness.

## The two ways to a wrong failure

Behind a stalled thread three threads with two slots are enough, and the runs are written out
(`behindPush`, `behindPop`).  For the wrap a run of `2 ^ 63` calls cannot be written out.  There a
call is held up between its two loads, and a second thread makes pairs of a push and a pop, which
move the ring on and leave the number of elements (`Ring.exists_pairs`).  `Within` says what the
held up call could have seen on the way: never an empty or a full ring.  When it goes on, the signed
difference of the number and the ticket is negative (`intptrDiff_half`).
-/

namespace ThreadUtils
namespace FiniteLockFreeQueue

open TransitionSystem (Transition)

variable {ι : Type*} {α : Type*} {R : RingSize}

/-! ## Failing -/

/-- The ticket of a push that has not returned. -/
def Pc.pushing : Pc α → Option ℕ
  | .pushWrite _ t | .pushStore _ t | .pushTrue _ t => some t
  | _ => none

/-- The ticket of a push that has not stored its sequence number. -/
def Pc.writing : Pc α → Option ℕ
  | .pushWrite _ t | .pushStore _ t => some t
  | _ => none

/-- The ticket of a pop that has not stored its sequence number. -/
def Pc.reading : Pc α → Option ℕ
  | .popRead h | .popStore h _ => some h
  | _ => none

/-- The failing return of a call. -/
def failing : QueueCall α → Pc α
  | .push value => .pushFalse value
  | .pop => .popFalse

/-- There is no room for the push: `SIZE` tickets were taken from `tail` and not from `head`.
There is nothing for the pop: the tickets whose pushes have returned were taken from `head`. -/
def Exhausted (R : RingSize) (s : State ι α) : QueueCall α → Prop
  | .push _ => s.mem.head + R.size ≤ s.mem.tail
  | .pop => ∀ t < s.mem.tail, (∀ i, (s.pc i).pushing ≠ some t) → t < s.mem.head

/-- The ring is full, or the pop a lap behind `tail` has not given its slot up.  The ring is
empty, or the push at `head` has not stored its element. -/
def Blocked (R : RingSize) (s : State ι α) : QueueCall α → Prop
  | .push _ => s.mem.tail = s.mem.head + R.size ∨
      ∃ h, h + R.size = s.mem.tail ∧ ∃ i, (s.pc i).reading = some h
  | .pop => s.mem.head = s.mem.tail ∨ ∃ i, (s.pc i).writing = some s.mem.head

/-- In the runs whose number of calls satisfies `B`, the call fails only if a state between the
call and its return satisfies `E`. -/
def Truthful [DecidableEq ι] (R : RingSize) (B : ℕ → Prop) (E : State ι α → QueueCall α → Prop)
    (call : QueueCall α) : Prop :=
  ∀ (i : ι) (s₀ s : State ι α) trace s', (system ι α R).Reachable s₀ →
    (system ι α R).step s₀ (callAction i call) = some s →
    (system ι α R).Path (fun _ a => a ≠ .ret i) s trace s' →
    s'.pc i = failing call → B s'.calls →
    E s' call ∨ ∃ t ∈ trace, E t.source call

/-! ## A number that is behind -/

section Behind

variable [Fintype ι] {s : State ι α}

theorem Pc.writing_or_reading {pc : Pc α} {t : ℕ} (h : pc.ticket = some t) :
    pc.writing = some t ∨ pc.reading = some t := by
  cases pc with
  | pushWrite | pushStore => exact Or.inl h
  | popRead | popStore => exact Or.inr h
  | _ => cases h

/-- The slot of a push has the number of its ticket. -/
theorem Inv.sequence_of_writing (hI : Inv R s) {i : ι} {t : ℕ} (h : (s.pc i).writing = some t) :
    s.mem.sequence (R.slot t) = t ∧ t < s.mem.tail := by
  have hok := hI.threads i
  cases hpc : s.pc i with
  | pushWrite | pushStore =>
    rw [hpc] at h hok
    obtain rfl := Option.some.inj h
    exact ⟨hok.1, hok.2.1⟩
  | _ =>
    rw [hpc] at h
    cases h

/-- The slot of a pop has the number after its ticket. -/
theorem Inv.sequence_of_reading (hI : Inv R s) {i : ι} {h : ℕ} (hr : (s.pc i).reading = some h) :
    s.mem.sequence (R.slot h) = h + 1 ∧ h < s.mem.head := by
  have hok := hI.threads i
  cases hpc : s.pc i with
  | popRead | popStore =>
    rw [hpc] at hr hok
    obtain rfl := Option.some.inj hr
    exact ⟨hok.1, hok.2.1⟩
  | _ =>
    rw [hpc] at hr
    cases hr

/-- **A slot behind the ticket of a pop.**  The ticket is the current `head`, and its element
is not there. -/
theorem Inv.blocked_pop (hI : Inv R s) {h : ℕ} (hh : h ≤ s.mem.head)
    (hseq : s.mem.sequence (R.slot h) < h + 1) : Blocked R s .pop := by
  have hle := hI.head_le_tail
  obtain ⟨t, hk, hslot⟩ := hI.slots h
  rw [← hk] at hseq
  rcases hslot with ⟨hs, ht, -⟩ | ⟨i, hs, ht, -, -, ho⟩ | ⟨-, hs, ht, -, -, -⟩ |
    ⟨-, hs, -, hlap, -⟩
  · exact Or.inl (by omega)
  · -- the slot is at `head`, where only a push can own it
    obtain rfl : t = s.mem.head := by omega
    rcases Pc.writing_or_reading ho with hw | hr
    · exact Or.inr ⟨i, hw⟩
    · exact absurd (hI.sequence_of_reading hr).2 (lt_irrefl _)
  · omega
  · have := R.add_size_le hk (by omega)
    exact Or.inl (by omega)

/-- **A slot behind the ticket of a push.**  The ticket is the current `tail`, and the slot is
a lap behind it. -/
theorem Inv.blocked_push (hI : Inv R s) {t : ℕ} (ht : t ≤ s.mem.tail)
    (hseq : s.mem.sequence (R.slot t) < t) (value : α) : Blocked R s (.push value) := by
  have hle := hI.tail_le
  obtain ⟨t', hk, hslot⟩ := hI.slots t
  rw [← hk] at hseq
  have hlap : t' < t → t' + R.size ≤ t := R.add_size_le hk
  rcases hslot with ⟨hs, h₁, -⟩ | ⟨-, hs, h₁, -, h₃, -⟩ | ⟨-, hs, h₁, -, h₃, -⟩ |
    ⟨i, hs, -, h₃, ho⟩
  · omega
  · exact Or.inl (by omega)
  · exact Or.inl (by omega)
  · refine Or.inr ⟨t', by omega, i, ?_⟩
    rcases Pc.writing_or_reading ho with hw | hr
    · have := (hI.sequence_of_writing hw).1
      omega
    · exact hr

/-- No slot is more than half the range ahead of a ticket. -/
theorem Inv.sequence_le (hI : Inv R s) (hb : s.calls < 2 ^ 63) (h : ℕ) :
    s.mem.sequence (R.slot h) ≤ h + 2 ^ 63 := by
  have hbudget := hI.budget
  have htail := hI.tail_eq
  have hhead := hI.head_eq
  have hle := hI.head_le_tail
  have hsize := R.size_le
  obtain ⟨t, hk, hslot⟩ := hI.slots h
  rw [← hk]
  rcases hslot with ⟨hs, -, hlt⟩ | ⟨-, hs, -, hlt, -, -⟩ | ⟨-, hs, -, hlt, -, -⟩ |
    ⟨-, hs, hlt, -, -⟩
  · -- two laps ahead are too many for the largest rings
    have hlap : h < t → h + R.size ≤ t := R.add_size_le hk.symm
    have hlap' : h + R.size < t → h + R.size + R.size ≤ t :=
      R.add_size_le ((R.slot_add_size h).trans hk.symm)
    omega
  · omega
  · omega
  · omega

/-- A slot is half the range ahead of a ticket only where a lap is that long. -/
theorem Inv.sequence_lt_add (hI : Inv R s) (hb : s.calls < 2 ^ 63)
    (hsize : R.size ≤ 2 ^ 62) (t : ℕ) : s.mem.sequence (R.slot t) < t + 2 ^ 63 := by
  have hbudget := hI.budget
  have htail := hI.tail_eq
  have hhead := hI.head_eq
  have hle := hI.head_le_tail
  obtain ⟨t', hk, hslot⟩ := hI.slots t
  rw [← hk]
  rcases hslot with ⟨hs, -, hlt⟩ | ⟨-, hs, -, hlt, -, -⟩ | ⟨-, hs, -, hlt, -, -⟩ |
    ⟨-, hs, hlt, -, -⟩ <;> omega

end Behind

/-! ## The failing step -/

section Step

variable [DecidableEq ι] {s s' : State ι α}

theorem failing_ne_idle (call : QueueCall α) : failing call ≠ .idle := by
  cases call <;> simp [failing]

/-- The step that makes a call fail is an access of its own thread. -/
theorem access_of_failing {a : Action ι α} {i : ι} {call : QueueCall α}
    (h : step R s a = some s') (hpc : s.pc i ≠ failing call) (hpc' : s'.pc i = failing call) :
    ∃ spurious m, s.mem.access R spurious (s.pc i) = some (m, failing call) := by
  have hupdate : ∀ (j : ι) (p : Pc α), (Function.update s.pc j p) i = failing call →
      j = i ∧ p = failing call := by
    intro j p hp
    by_cases hj : i = j
    · subst hj
      rw [Function.update_self] at hp
      exact ⟨rfl, hp⟩
    · rw [Function.update_of_ne hj] at hp
      exact absurd hp hpc
  cases a with
  | push j value =>
    rw [eq_of_push h] at hpc'
    have := (hupdate j _ hpc').2
    cases call <;> cases this
  | pop j =>
    rw [eq_of_pop h] at hpc'
    have := (hupdate j _ hpc').2
    cases call <;> cases this
  | access j spurious =>
    obtain ⟨r, hr, rfl⟩ := eq_of_access h
    obtain ⟨rfl, hp⟩ := hupdate j _ hpc'
    exact ⟨spurious, r.1, by rw [hr, ← hp]⟩
  | ret j =>
    rw [eq_of_ret h] at hpc'
    exact absurd (hupdate j _ hpc').2.symm (failing_ne_idle call)

/-- A pop fails at a slot that is behind its ticket. -/
theorem diff_of_popFalse {m m' : Mem α} {pc : Pc α} {spurious : Bool}
    (h : m.access R spurious pc = some (m', .popFalse)) :
    ∃ n, pc = .popLoadSeq n ∧ intptrDiff (m.sequence (R.slot n)) (addSizeT n 1) < 0 := by
  cases pc with
  | popLoadSeq n =>
    rw [Mem.access] at h
    split at h
    · cases h
    · split at h
      · next hneg => exact ⟨n, rfl, hneg⟩
      · cases h
  | pushLoadSeq value t =>
    rw [Mem.access] at h
    split at h
    · cases h
    · split at h <;> cases h
  | pushCas | popCas =>
    rw [Mem.access] at h
    split at h <;> cases h
  | _ => cases h

/-- A push fails at a slot that is behind its ticket. -/
theorem diff_of_pushFalse {m m' : Mem α} {pc : Pc α} {spurious : Bool} {value : α}
    (h : m.access R spurious pc = some (m', .pushFalse value)) :
    ∃ t, pc = .pushLoadSeq value t ∧ intptrDiff (m.sequence (R.slot t)) t < 0 := by
  cases pc with
  | pushLoadSeq v t =>
    rw [Mem.access] at h
    split at h
    · cases h
    · split at h
      · next hneg =>
        cases h
        exact ⟨t, rfl, hneg⟩
      · cases h
  | popLoadSeq n =>
    rw [Mem.access] at h
    split at h
    · cases h
    · split at h <;> cases h
  | pushCas | popCas =>
    rw [Mem.access] at h
    split at h <;> cases h
  | _ => cases h

variable [Fintype ι]

omit [DecidableEq ι] in
/-- **A call that fails is blocked** when it loads the sequence number. -/
theorem Inv.blocked_of_failing (hI : Inv R s) (hb : s.calls < 2 ^ 63) {i : ι} {spurious : Bool}
    {m : Mem α} {call : QueueCall α} (hsize : call = .pop ∨ R.size ≤ 2 ^ 62)
    (h : s.mem.access R spurious (s.pc i) = some (m, failing call)) : Blocked R s call := by
  have hok := hI.threads i
  have htail := hI.tail_le_calls
  have hle := hI.head_le_tail
  cases call with
  | pop =>
    obtain ⟨n, hpc, hneg⟩ := diff_of_popFalse h
    rw [hpc] at hok
    have hn : n ≤ s.mem.head := hok
    rw [addSizeT_of_lt (by rw [sizeT_eq]; omega)] at hneg
    exact hI.blocked_pop hn (lt_of_intptrDiff_neg (by have := hI.sequence_le hb n; omega) hneg)
  | push value =>
    obtain ⟨t, hpc, hneg⟩ := diff_of_pushFalse h
    rw [hpc] at hok
    have hsize' : R.size ≤ 2 ^ 62 := hsize.resolve_left (by simp)
    exact hI.blocked_push hok
      (lt_of_intptrDiff_neg (hI.sequence_lt_add hb hsize' t) hneg) value

end Step

/-! ## A thread that is held up

While one thread stands still another one makes calls of its own, each of them alone in the
ring.  `Within` bounds the elements that the ring has during these calls. -/

/-- The calls of a thread that is alone leave at least `lo` and at most `hi` elements. -/
inductive Within (R : RingSize) (lo hi : ℕ) (m : Mem α) (pc : Pc α) : Prop
  | idle (h : ℕ) (l : List α) : pc = .idle → Ring R m h l → lo ≤ l.length → l.length ≤ hi →
      Within R lo hi m pc
  | push (h : ℕ) (l : List α) (value : α) : PushAt R m h l value pc → lo ≤ l.length →
      l.length < hi → Within R lo hi m pc
  | pop (h : ℕ) (l : List α) : PopAt R m h l pc → lo < l.length → l.length ≤ hi →
      Within R lo hi m pc

section Alone

variable {m : Mem α} {h : ℕ} {l : List α} {pc : Pc α}

/-- The counters during a push, and the ticket that it writes. -/
theorem PushAt.counters {value : α} (hP : PushAt R m h l value pc) :
    m.head = h % sizeT ∧ pc.reading = none ∧
      (∀ t, pc.writing = some t → t = (h + l.length) % sizeT ∧ l.length < R.size) ∧
      ∃ n, m.tail = (h + n) % sizeT ∧ l.length ≤ n ∧ n ≤ l.length + 1 ∧ n ≤ R.size := by
  have hkeep : Ring R m h l → pc.writing = none →
      (∀ t, pc.writing = some t → t = (h + l.length) % sizeT ∧ l.length < R.size) ∧
      ∃ n, m.tail = (h + n) % sizeT ∧ l.length ≤ n ∧ n ≤ l.length + 1 ∧ n ≤ R.size := by
    intro hR hnone
    refine ⟨fun t ht => ?_, l.length, hR.tail, le_rfl, Nat.le_succ _, hR.length_le⟩
    rw [hnone] at ht
    cases ht
  have hwrite : ∀ t, Ring R { m with tail := t } h l → m.tail = addSizeT t 1 →
      l.length < R.size → m.head = h % sizeT ∧
      (∀ t', some t = some t' → t' = (h + l.length) % sizeT ∧ l.length < R.size) ∧
      ∃ n, m.tail = (h + n) % sizeT ∧ l.length ≤ n ∧ n ≤ l.length + 1 ∧ n ≤ R.size := by
    intro t hR hadd hlt
    have htail : t = (h + l.length) % sizeT := hR.tail
    refine ⟨hR.head, fun t' ht' => ⟨(Option.some.inj ht').symm.trans htail, hlt⟩,
      l.length + 1, ?_, Nat.le_succ _, le_rfl, hlt⟩
    rw [hadd, htail, addSizeT_mod, Nat.add_assoc]
  cases pc with
  | pushLoadTail => exact ⟨hP.2.head, rfl, hkeep hP.2 rfl⟩
  | pushLoadSeq | pushCas => exact ⟨hP.2.1.head, rfl, hkeep hP.2.1 rfl⟩
  | pushWrite v t =>
    obtain ⟨hhead, hrest⟩ := hwrite t hP.2.1 hP.2.2.1 hP.2.2.2
    exact ⟨hhead, rfl, hrest⟩
  | pushStore v t =>
    obtain ⟨hhead, hrest⟩ := hwrite t hP.2.1 hP.2.2.1 hP.2.2.2.1
    exact ⟨hhead, rfl, hrest⟩
  | pushTrue =>
    obtain ⟨-, hlt, hR⟩ := hP
    refine ⟨hR.head, rfl, nofun, l.length + 1, ?_, Nat.le_succ _,
      le_rfl, hlt⟩
    rw [hR.tail, List.length_append, List.length_singleton]
  | pushFalse => exact ⟨hP.2.2.head, rfl, hkeep hP.2.2 rfl⟩
  | _ => exact hP.elim

/-- The counters during a pop, and the ticket that it reads. -/
theorem PopAt.counters (hP : PopAt R m h l pc) :
    m.tail = (h + l.length) % sizeT ∧ pc.writing = none ∧
      (∀ n, pc.reading = some n → n = h % sizeT) ∧
      ∃ k, m.head = (h + k) % sizeT ∧ k ≤ 1 ∧ l.length ≤ k + R.size := by
  have hkeep : Ring R m h l → pc.reading = none → m.tail = (h + l.length) % sizeT ∧
      (∀ n, pc.reading = some n → n = h % sizeT) ∧
      ∃ k, m.head = (h + k) % sizeT ∧ k ≤ 1 ∧ l.length ≤ k + R.size := by
    intro hR hnone
    refine ⟨hR.tail, fun n hn => ?_, 0, hR.head, Nat.zero_le _, ?_⟩
    · rw [hnone] at hn
      cases hn
    · rw [Nat.zero_add]
      exact hR.length_le
  have hread : ∀ n, Ring R { m with head := n } h l → m.head = addSizeT n 1 →
      m.tail = (h + l.length) % sizeT ∧ (∀ n', some n = some n' → n' = h % sizeT) ∧
      ∃ k, m.head = (h + k) % sizeT ∧ k ≤ 1 ∧ l.length ≤ k + R.size := by
    intro n hR hadd
    have hhead : n = h % sizeT := hR.head
    refine ⟨hR.tail, fun n' hn' => (Option.some.inj hn').symm.trans hhead, 1, ?_, le_rfl,
      hR.length_le.trans (Nat.le_add_left _ _)⟩
    rw [hadd, hhead, addSizeT_mod]
  cases pc with
  | popLoadHead =>
    obtain ⟨htail, hrest⟩ := hkeep hP rfl
    exact ⟨htail, rfl, hrest⟩
  | popLoadSeq | popCas =>
    obtain ⟨htail, hrest⟩ := hkeep hP.1 rfl
    exact ⟨htail, rfl, hrest⟩
  | popRead n | popStore n =>
    obtain ⟨htail, hrest⟩ := hread n hP.1 hP.2.1
    exact ⟨htail, rfl, hrest⟩
  | popTrue =>
    obtain ⟨hfirst, hR⟩ := hP
    obtain ⟨rest, rfl⟩ := List.head?_eq_some_iff.mp hfirst
    have hle : rest.length ≤ R.size := hR.length_le
    refine ⟨?_, rfl, nofun, 1, hR.head, le_rfl, ?_⟩
    · rw [hR.tail, List.tail_cons, List.length_cons, Nat.add_assoc, Nat.add_comm 1]
    · rw [List.length_cons]
      omega
  | popFalse =>
    obtain ⟨htail, hrest⟩ := hkeep hP.2 rfl
    exact ⟨htail, rfl, hrest⟩
  | _ => exact hP.elim

/-- Where the counters and the tickets of the thread stand. -/
theorem Within.counters {lo hi : ℕ} (hW : Within R lo hi m pc) :
    ∃ h a b, m.head = (h + a) % sizeT ∧ m.tail = (h + b) % sizeT ∧ a ≤ 1 ∧ a + lo ≤ b ∧ b ≤ hi ∧
      b ≤ a + R.size ∧
      (∀ t, pc.writing = some t → ∃ c, t = (h + c) % sizeT ∧ a + lo ≤ c ∧ c < a + R.size) ∧
      ∀ n, pc.reading = some n → n = h % sizeT := by
  rcases hW with ⟨h, l, rfl, hR, hlo, hhi⟩ | ⟨h, l, value, hP, hlo, hhi⟩ | ⟨h, l, hP, hlo, hhi⟩
  · have hle := hR.length_le
    exact ⟨h, 0, l.length, hR.head, hR.tail, by omega, by omega, hhi, by omega,
      nofun, nofun⟩
  · obtain ⟨hhead, hnone, hwrite, n, htail, hln, hnl, hns⟩ := hP.counters
    refine ⟨h, 0, n, hhead, htail, by omega, by omega, by omega, by omega, fun t ht => ?_,
      fun k hk => ?_⟩
    · obtain ⟨heq, hlt⟩ := hwrite t ht
      exact ⟨l.length, heq, by omega, by omega⟩
    · rw [hnone] at hk
      cases hk
  · obtain ⟨htail, hnone, hread, k, hhead, hk, hle⟩ := hP.counters
    refine ⟨h, k, l.length, hhead, htail, hk, by omega, hhi, hle, fun t ht => ?_, hread⟩
    rw [hnone] at ht
    cases ht

variable {s : State ι α} {i : ι} {lo hi : ℕ}

/-- A ring that keeps an element is not blocked for a pop. -/
theorem Within.not_blocked_pop (hW : Within R lo hi s.mem (s.pc i)) (hlo : 0 < lo)
    (hother : ∀ j, j ≠ i → (s.pc j).writing = none) : ¬ Blocked R s .pop := by
  have hsize := R.size_le
  obtain ⟨h, a, b, hhead, htail, -, hab, -, hle, hwrite, -⟩ := hW.counters
  rintro (heq | ⟨j, hj⟩)
  · rw [hhead, htail, sizeT_eq] at heq
    omega
  · by_cases hji : j = i
    · subst hji
      obtain ⟨c, hc, hac, hlt⟩ := hwrite _ hj
      rw [hhead, sizeT_eq] at hc
      omega
    · rw [hother j hji] at hj
      cases hj

/-- A ring that keeps room is not blocked for a push. -/
theorem Within.not_blocked_push (hW : Within R lo hi s.mem (s.pc i)) (hhi : hi < R.size)
    (hother : ∀ j, j ≠ i → (s.pc j).reading = none) (value : α) :
    ¬ Blocked R s (.push value) := by
  have hsize := R.size_le
  obtain ⟨h, a, b, hhead, htail, ha, hab, hb, -, -, hread⟩ := hW.counters
  rintro (heq | ⟨n, hn, j, hj⟩)
  · rw [hhead, htail, sizeT_eq] at heq
    omega
  · by_cases hji : j = i
    · subst hji
      rw [hread n hj, htail, sizeT_eq] at hn
      omega
    · rw [hother j hji] at hj
      cases hj

end Alone

section Pairs

variable [DecidableEq ι] {s s' : State ι α} {i : ι}

/-- A step of a thread leaves the others where they are. -/
theorem pc_of_ne {a : Action ι α} (h : (system ι α R).step s a = some s') {j : ι}
    (hj : j ≠ a.thread) : s'.pc j = s.pc j := by
  change step R s a = some s' at h
  cases a with
  | push k value =>
    rw [eq_of_push h]
    exact Function.update_of_ne hj _ _
  | pop k =>
    rw [eq_of_pop h]
    exact Function.update_of_ne hj _ _
  | access k spurious =>
    obtain ⟨r, -, rfl⟩ := eq_of_access h
    exact Function.update_of_ne hj _ _
  | ret k =>
    rw [eq_of_ret h]
    exact Function.update_of_ne hj _ _

/-- A step of the thread `i` in a ring that keeps between `lo` and `hi` elements. -/
def Alone (R : RingSize) (i : ι) (lo hi : ℕ) (s : State ι α) (a : Action ι α) : Prop :=
  a.thread = i ∧ Within R lo hi s.mem (s.pc i)

variable {h : ℕ} {l : List α}

/-- A push into a ring that has room. -/
theorem Ring.exists_push (hR : Ring R s.mem h l) (hidle : s.pc i = .idle)
    (hlt : l.length < R.size) (value : α) :
    ∃ trace s', (system ι α R).Path (Alone R i l.length (l.length + 1)) s trace s' ∧
      s'.pc i = .idle ∧ Ring R s'.mem h (l ++ [value]) ∧ s'.calls = s.calls + 1 := by
  obtain ⟨t, hstep, hthread, -⟩ := exists_step_call R hidle (.push value)
  have ht := eq_of_push (R := R) hstep
  obtain ⟨trace, s', pc, p, hidle', -, hcalls, hP, hpc⟩ := exists_return (R := R) (s := t) (i := i)
    (P := fun m pc => PushAt R m h l value pc)
    (fun m pc r hP hr => ⟨(hP.access (Or.inl hlt) hr).1, (hP.access (Or.inl hlt) hr).2 rfl⟩)
    (fun m hP => hP) (by
      rw [ht]
      simp only [Function.update_self]
      exact ⟨rfl, hR⟩)
  have hfirst : (system ι α R).Path (Alone R i l.length (l.length + 1)) s
      [⟨s, callAction i (.push value), t⟩] t :=
    .single ⟨hthread, .idle h l hidle hR le_rfl (Nat.le_succ _)⟩ hstep
  refine ⟨_, s', hfirst.trans (p.mono fun u a hok => ⟨hok.1,
    .push h l value hok.2 le_rfl (Nat.lt_succ_self _)⟩), hidle', ?_, ?_⟩
  · cases pc with
    | pushTrue => exact hP.2.2
    | pushFalse => exact absurd hP.2.1 hlt.ne
    | popTrue | popFalse => exact hP.elim
    | _ => exact absurd hpc (by simp [Pc.rank])
  · rw [hcalls, ht]

/-- A pop from a ring that has an element. -/
theorem Ring.exists_pop {x : α} (hR : Ring R s.mem h (x :: l)) (hidle : s.pc i = .idle) :
    ∃ trace s', (system ι α R).Path (Alone R i l.length (l.length + 1)) s trace s' ∧
      s'.pc i = .idle ∧ Ring R s'.mem (h + 1) l ∧ s'.calls = s.calls + 1 := by
  obtain ⟨t, hstep, hthread, -⟩ := exists_step_call R hidle .pop
  have ht := eq_of_pop (R := R) hstep
  obtain ⟨trace, s', pc, p, hidle', -, hcalls, hP, hpc⟩ := exists_return (R := R) (s := t) (i := i)
    (P := fun m pc => PopAt R m h (x :: l) pc)
    (fun m pc r hP hr => ⟨(hP.access hr).1, (hP.access hr).2 rfl⟩)
    (fun m hP => hP) (by
      rw [ht]
      simp only [Function.update_self]
      exact hR)
  have hfirst : (system ι α R).Path (Alone R i l.length (l.length + 1)) s
      [⟨s, callAction i .pop, t⟩] t :=
    .single ⟨hthread, .idle h _ hidle hR (Nat.le_succ _) le_rfl⟩ hstep
  refine ⟨_, s', hfirst.trans (p.mono fun u a hok => ⟨hok.1,
    .pop h _ hok.2 (Nat.lt_succ_self _) le_rfl⟩), hidle', ?_, ?_⟩
  · cases pc with
    | popTrue => exact hP.2
    | popFalse => exact absurd hP.1 (List.cons_ne_nil x l)
    | pushTrue | pushFalse => exact hP.elim
    | _ => exact absurd hpc (by simp [Pc.rank])
  · rw [hcalls, ht]

/-- **A push and a pop, `n` times.**  Each pair moves `head` on and leaves the number of
elements. -/
theorem Ring.exists_pairs (value : α) (k n : ℕ) (hR : Ring R s.mem h (List.replicate k value))
    (hidle : s.pc i = .idle) (hk : k < R.size) :
    ∃ trace s', (system ι α R).Path (Alone R i k (k + 1)) s trace s' ∧ s'.pc i = .idle ∧
      Ring R s'.mem (h + n) (List.replicate k value) ∧ s'.calls = s.calls + 2 * n := by
  induction n with
  | zero => exact ⟨[], s, .nil s, hidle, hR, rfl⟩
  | succ n ih =>
    obtain ⟨trace, s₁, p, hidle₁, hR₁, hcalls₁⟩ := ih
    obtain ⟨trace₂, s₂, p₂, hidle₂, hR₂, hcalls₂⟩ := hR₁.exists_push hidle₁
      (by rwa [List.length_replicate]) value
    rw [← List.replicate_succ', List.replicate_succ] at hR₂
    obtain ⟨trace₃, s₃, p₃, hidle₃, hR₃, hcalls₃⟩ := hR₂.exists_pop hidle₂
    rw [List.length_replicate] at p₂ p₃
    exact ⟨_, s₃, (p.trans p₂).trans p₃, hidle₃, hR₃, by omega⟩

end Pairs

section Truthful

variable [DecidableEq ι]

/-- The first access of a call. -/
def starting : QueueCall α → Pc α
  | .push value => .pushLoadTail value
  | .pop => .popLoadHead

theorem eq_of_call {s s' : State ι α} {i : ι} {call : QueueCall α}
    (h : step R s (callAction i call) = some s') :
    s' = { s with pc := Function.update s.pc i (starting call), calls := s.calls + 1 } := by
  cases call with
  | push value => exact eq_of_push h
  | pop => exact eq_of_pop h

/-- A thread that holds no ticket. -/
def Pc.Waits (pc : Pc α) : Prop :=
  pc.pushing = none ∧ pc.writing = none ∧ pc.reading = none

/-- **A call is held up** between its load of the ticket and its load of the sequence number.
If it fails then, and `E` held neither before nor in the meantime, the failure does not
tell `E`. -/
theorem not_truthful_of_stall {B : ℕ → Prop} {E : State ι α → QueueCall α → Prop}
    {I : State ι α → Prop} {s₀ : State ι α} {i : ι} {call : QueueCall α} {p : Pc α}
    (hs₀ : (system ι α R).Reachable s₀) (hidle : s₀.pc i = .idle)
    (hload : s₀.mem.access R false (starting call) = some (s₀.mem, p)) (hp : p.Waits)
    (hI₀ : I s₀)
    (hI : ∀ v v' : State ι α, I v → v'.mem = v.mem → (∀ j, j ≠ i → v'.pc j = v.pc j) → I v')
    (hmeanwhile : ∀ s₁ : State ι α, I s₁ → s₁.mem = s₀.mem →
      (∀ j, j ≠ i → s₁.pc j = s₀.pc j) → s₁.calls = s₀.calls + 1 →
      ∃ trace u, (system ι α R).Path (fun v a => a.thread ≠ i ∧ I v) s₁ trace u ∧ I u ∧
        u.mem.access R false p = some (u.mem, failing call) ∧ B u.calls)
    (hE : ∀ v : State ι α, I v → (v.pc i).Waits → ¬ E v call) : ¬ Truthful R B E call := by
  intro htruth
  obtain ⟨s, hcall, -, -⟩ := exists_step_call R hidle call
  have hs := eq_of_call hcall
  have hpc : s.pc i = starting call := by
    rw [hs]
    exact Function.update_self _ _ _
  have hother : ∀ j, j ≠ i → s.pc j = s₀.pc j := fun j hj => by
    rw [hs]
    exact Function.update_of_ne hj _ _
  have hmem : s.mem = s₀.mem := by rw [hs]
  have hIs : I s := hI s₀ s hI₀ hmem hother
  -- the load of the ticket
  have haccess : s.mem.access R false (s.pc i) = some (s₀.mem, p) := by
    rw [hpc, hmem]
    exact hload
  obtain ⟨s₁, h₁, hmem₁, hpc₁⟩ := exists_access haccess
  have hcalls₁ : s₁.calls = s₀.calls + 1 := by
    obtain ⟨r, -, hr⟩ := eq_of_access (R := R) h₁
    rw [hr, hs]
  have hother₁ : ∀ j, j ≠ i → s₁.pc j = s.pc j := fun j hj => pc_of_ne h₁ hj
  have hIs₁ : I s₁ := hI s s₁ hIs (hmem₁.trans hmem.symm) hother₁
  obtain ⟨trace, u, q, hIu, hfail, hB⟩ := hmeanwhile s₁ hIs₁ hmem₁
    (fun j hj => (hother₁ j hj).trans (hother j hj)) hcalls₁
  obtain ⟨q, hpcu⟩ := q.with_invariant (J := fun v => v.pc i = p) hpc₁
    fun v a v' hv hok h => (pc_of_ne h hok.1.symm).trans hv
  -- the load of the sequence number
  obtain ⟨s', h', hmem', hpc'⟩ := exists_access (R := R) (s := u) (i := i)
    (r := (u.mem, failing call)) (by rw [hpcu]; exact hfail)
  have hcalls' : s'.calls = u.calls := by
    obtain ⟨r, -, hr⟩ := eq_of_access (R := R) h'
    rw [hr]
  have hIs' : I s' := hI u s' hIu hmem' fun j hj => pc_of_ne h' hj
  have hfirst : (system ι α R).Path (fun _ a => a ≠ .ret i) s [⟨s, .access i false, s₁⟩] s₁ :=
    .single (by simp) h₁
  have hpath := (hfirst.trans (q.mono fun v a hok => by
    rintro rfl
    exact hok.1.1 rfl)).snoc (a := .access i false) (by simp) h'
  rcases htruth i s₀ s _ s' hs₀ hcall hpath hpc' (hcalls' ▸ hB) with hE' | ⟨t, ht, hE'⟩
  · refine hE s' hIs' ?_ hE'
    rw [hpc']
    cases call <;> exact ⟨rfl, rfl, rfl⟩
  · rcases List.mem_append.mp ht with ht' | ht'
    · rcases List.mem_append.mp ht' with ht'' | ht''
      · rw [List.mem_singleton.mp ht''] at hE'
        refine hE s hIs ?_ hE'
        rw [hpc]
        cases call <;> exact ⟨rfl, rfl, rfl⟩
      · obtain ⟨⟨-, hIt⟩, hpct⟩ := q.ok_of_mem ht''
        exact hE t.source hIt (hpct ▸ hp) hE'
    · rw [List.mem_singleton.mp ht'] at hE'
      exact hE u hIu (hpcu ▸ hp) hE'

/-! ### Half the range of the tickets -/

theorem RingSize.slot_half (R : RingSize) : R.slot (2 ^ 63) = R.slot 0 := by
  obtain ⟨k, hk, he⟩ := R.isPowerOfTwo
  rw [R.slot_eq_mod, R.slot_eq_mod, Nat.zero_mod, he]
  exact Nat.mod_eq_zero_of_dvd (Nat.pow_dvd_pow 2 (by omega))

/-- Half the range ahead counts as behind. -/
theorem intptrDiff_half (b : ℕ) : intptrDiff (2 ^ 63 + b) b < 0 := by
  rw [intptrDiff, Int.bmod_def, sizeT_eq]
  push_cast
  rw [add_sub_cancel_right]
  norm_num

/-- The push that has loaded the first ticket meets a slot half the range ahead. -/
theorem Ring.push_fails {m : Mem α} {n : ℕ} (hR : Ring R m n [])
    (hn : n + (R.size - 1) = 2 ^ 63) (value : α) :
    m.access R false (.pushLoadSeq value 0) = some (m, .pushFalse value) := by
  have hpos := R.size_pos
  have hseq := hR.free (R.size - 1) (Nat.zero_le _) (by omega)
  rw [hn, R.slot_half, Nat.mod_eq_of_lt (by rw [sizeT_eq]; norm_num)] at hseq
  have hneg : intptrDiff (m.sequence (R.slot 0)) 0 < 0 := by
    rw [hseq]
    exact intptrDiff_half 0
  rw [Mem.access, if_neg hneg.ne, if_pos hneg]

/-- The pop that has loaded the first ticket meets a slot half the range ahead. -/
theorem Ring.pop_fails {m : Mem α} {l : List α} (hR : Ring R m (2 ^ 63) l) (hl : l ≠ []) :
    m.access R false (.popLoadSeq 0) = some (m, .popFalse) := by
  have hseq := (hR.ready 0 (List.length_pos_iff.mpr hl)).1
  rw [Nat.add_zero, R.slot_half, Nat.mod_eq_of_lt (by rw [sizeT_eq]; norm_num)] at hseq
  have hneg : intptrDiff (m.sequence (R.slot 0)) (addSizeT 0 1) < 0 := by
    rw [hseq]
    exact intptrDiff_half 1
  rw [Mem.access, if_neg hneg.ne, if_pos hneg]

/-- A push is held up at the first ticket while `2 ^ 63` tickets go by. -/
theorem not_truthful_push (R : RingSize) (h2 : 2 ≤ R.size) (value : α) {B : ℕ → Prop}
    (hB : B (1 + 2 * (2 ^ 63 - (R.size - 1)))) :
    ¬ Truthful R B (Blocked (ι := Bool) R) (.push value) := by
  have hsize := R.size_le
  refine not_truthful_of_stall (i := true)
    (I := fun v => Within R 0 1 v.mem (v.pc false)) (p := .pushLoadSeq value 0)
    (.start (isInitial_newQueue R value)) rfl rfl ⟨rfl, rfl, rfl⟩ ?_ ?_ ?_ ?_
  · exact .idle 0 [] rfl (ring_of_initial (isInitial_newQueue (ι := Bool) R value)) le_rfl
      (Nat.zero_le _)
  · intro v v' hI hmem hother
    rw [hmem, hother false (by decide)]
    exact hI
  · intro s₁ hI hmem hother hcalls
    have hring : Ring R s₁.mem 0 (List.replicate 0 value) := by
      rw [hmem]
      exact ring_of_initial (isInitial_newQueue (ι := Bool) R value)
    obtain ⟨trace, u, q, hidle, hRu, hcallsu⟩ := hring.exists_pairs value 0
      (2 ^ 63 - (R.size - 1)) (hother false (by decide)) R.size_pos
    rw [Nat.zero_add] at hRu
    refine ⟨trace, u, q.mono fun v a hok => ⟨by rw [hok.1]; decide, hok.2⟩,
      .idle _ _ hidle hRu le_rfl (Nat.zero_le _), hRu.push_fails (by omega) value, ?_⟩
    rw [hcallsu, hcalls]
    exact hB
  · intro v hI hwaits
    exact hI.not_blocked_push h2 (fun j hj => by
      obtain rfl : j = true := by simpa using hj
      exact hwaits.2.2) value

/-- A pop is held up at the first ticket while `2 ^ 63` tickets go by. -/
theorem not_truthful_pop (R : RingSize) (h2 : 2 ≤ R.size) (value : α) :
    ¬ Truthful R (fun _ => True) (Blocked (ι := Bool) R) (.pop : QueueCall α) := by
  have hnew := ring_of_initial (isInitial_newQueue (ι := Bool) R value)
  obtain ⟨trace₀, s₀, p₀, hidle₀, hR₀, -⟩ :=
    hnew.exists_push (s := newQueue value) (i := false) rfl R.size_pos value
  obtain ⟨-, hidle⟩ := p₀.with_invariant (J := fun v => v.pc true = .idle) rfl
    fun v a v' hv hok h => (pc_of_ne h (by rw [hok.1]; decide)).trans hv
  have hhead : s₀.mem.head = 0 := hR₀.head
  refine not_truthful_of_stall (i := true)
    (I := fun v => Within R 1 2 v.mem (v.pc false)) (p := .popLoadSeq 0)
    (p₀.reachable (.start (isInitial_newQueue R value))) hidle
    (by rw [starting, Mem.access, hhead]) ⟨rfl, rfl, rfl⟩ ?_ ?_ ?_ ?_
  · exact .idle 0 _ hidle₀ hR₀ le_rfl (by simp)
  · intro v v' hI hmem hother
    rw [hmem, hother false (by decide)]
    exact hI
  · intro s₁ hI hmem hother hcalls
    have hring : Ring R s₁.mem 0 (List.replicate 1 value) := by
      rw [hmem]
      exact hR₀
    obtain ⟨trace, u, q, hidle', hRu, -⟩ := hring.exists_pairs value 1 (2 ^ 63)
      ((hother false (by decide)).trans hidle₀) h2
    rw [Nat.zero_add] at hRu
    exact ⟨trace, u, q.mono fun v a hok => ⟨by rw [hok.1]; decide, hok.2⟩,
      .idle _ _ hidle' hRu le_rfl (by simp), hRu.pop_fails (by simp), trivial⟩
  · intro v hI hwaits
    exact hI.not_blocked_pop Nat.one_pos fun j hj => by
      obtain rfl : j = true := by simpa using hj
      exact hwaits.2.1

/-! ### A stall after the exchange -/

/-- A call that is made alone and fails where its answer is not exhausted. -/
theorem not_truthful_of_failing {B : ℕ → Prop} {E : State ι α → QueueCall α → Prop}
    {s₀ : State ι α} {i : ι} {call : QueueCall α} {p : Pc α}
    (hs₀ : (system ι α R).Reachable s₀) (hidle : s₀.pc i = .idle)
    (hload : s₀.mem.access R false (starting call) = some (s₀.mem, p)) (hp : p.Waits)
    (hfail : s₀.mem.access R false p = some (s₀.mem, failing call)) (hB : B (s₀.calls + 1))
    (hE : ∀ v : State ι α, v.mem = s₀.mem → (∀ j, j ≠ i → v.pc j = s₀.pc j) →
      (v.pc i).Waits → ¬ E v call) : ¬ Truthful R B E call := by
  refine not_truthful_of_stall (I := fun v => v.mem = s₀.mem ∧ ∀ j, j ≠ i → v.pc j = s₀.pc j)
    hs₀ hidle hload hp ⟨rfl, fun _ _ => rfl⟩ ?_ ?_ ?_
  · rintro v v' ⟨hmem, hother⟩ hmem' hother'
    exact ⟨hmem'.trans hmem, fun j hj => (hother' j hj).trans (hother j hj)⟩
  · intro s₁ hI hmem hother hcalls
    refine ⟨[], s₁, .nil s₁, hI, ?_, ?_⟩
    · rw [hmem]
      exact hfail
    · rw [hcalls]
      exact hB
  · rintro v ⟨hmem, hother⟩ hwaits
    exact hE v hmem hother hwaits

/-- Thread `0` stalls after the exchange of its push, and thread `1` pushes `8`. -/
def behindPush : State (Fin 3) ℕ :=
  (system (Fin 3) ℕ ringOfTwo).replay (newQueue 0)
    ([.push 0 7] ++ List.replicate 3 (.access 0 false) ++ [.push 1 8] ++
      List.replicate 5 (.access 1 false) ++ [.ret 1])

/-- Thread `1` stalls after the exchange of its pop, in a ring that was full. -/
def behindPop : State (Fin 3) ℕ :=
  (system (Fin 3) ℕ ringOfTwo).replay (newQueue 0)
    ([.push 0 7] ++ List.replicate 5 (.access 0 false) ++ [.ret 0, .push 0 8] ++
      List.replicate 5 (.access 0 false) ++ [.ret 0, .pop 1] ++
      List.replicate 3 (.access 1 false))

theorem reachable_behindPush : (system (Fin 3) ℕ ringOfTwo).Reachable behindPush :=
  .replay (.start (isInitial_newQueue _ 0)) _ (by decide)

theorem reachable_behindPop : (system (Fin 3) ℕ ringOfTwo).Reachable behindPop :=
  .replay (.start (isInitial_newQueue _ 0)) _ (by decide)

/-- A pop fails although the element `8` is there. -/
theorem not_truthful_behindPush :
    ¬ Truthful (ι := Fin 3) ringOfTwo (fun _ => True) (Exhausted ringOfTwo)
      (.pop : QueueCall ℕ) := by
  refine not_truthful_of_failing (i := 2) (p := .popLoadSeq 0) reachable_behindPush (by decide)
    rfl ⟨rfl, rfl, rfl⟩ rfl trivial fun v hmem hother hwaits hE => ?_
  rw [Exhausted, hmem] at hE
  refine absurd (hE 1 (by decide) fun j => ?_) (by decide)
  by_cases hj : j = 2
  · rw [hj, hwaits.1]
    exact (Option.some_ne_none _).symm
  · rw [hother j hj]
    revert j
    decide

/-- A push fails although one slot of two has been emptied. -/
theorem not_truthful_behindPop :
    ¬ Truthful (ι := Fin 3) ringOfTwo (fun _ => True) (Exhausted ringOfTwo) (.push 9) := by
  refine not_truthful_of_failing (i := 2) (p := .pushLoadSeq 9 2) reachable_behindPop (by decide)
    rfl ⟨rfl, rfl, rfl⟩ rfl trivial fun v hmem hother hwaits hE => ?_
  rw [Exhausted, hmem] at hE
  exact absurd hE (by decide)

/-! ## The theorem -/

/-- **What the answer `false` says**, in every run with fewer than `2 ^ 63` calls. -/
theorem truthful_blocked [Fintype ι] (R : RingSize) (h2 : 2 ≤ R.size) (call : QueueCall α)
    (hsize : call = .pop ∨ R.size ≤ 2 ^ 62) :
    Truthful R (· < 2 ^ 63) (Blocked (ι := ι) R) call := by
  intro i s₀ s trace s' hs hcall p hpc' hb
  have hcall' : step R s₀ (callAction i call) = some s := hcall
  have hpc : s.pc i ≠ failing call := by
    cases call with
    | push value =>
      rw [eq_of_push hcall']
      simp [failing]
    | pop =>
      rw [eq_of_pop hcall']
      simp [failing]
  obtain ⟨t, ht, ht', ⟨-, hb'⟩, hstep, hbefore, hafter⟩ :=
    (p.within (B := fun u => u.calls < 2 ^ 63)
      (fun _ _ _ h hb => lt_of_le_of_lt (calls_le_of_step h) hb) hb).exists_establishing
      (P := fun u => u.pc i = failing call) (.next hs trivial hcall) hpc hpc'
  obtain ⟨spurious, m, hm⟩ := access_of_failing hstep hbefore hafter
  exact Or.inr ⟨t, ht, (inv_of_reachable h2 ht' hb').blocked_of_failing hb' hsize hm⟩

/-- The pop that fails behind the stalled push met a blocked state. -/
theorem truthful_blocked_behindPush : ∃ s trace s',
    (system (Fin 3) ℕ ringOfTwo).step behindPush (.pop 2) = some s ∧
    (system (Fin 3) ℕ ringOfTwo).Path (fun _ a => a ≠ .ret 2) s trace s' ∧
    s'.pc 2 = .popFalse ∧
    (Blocked ringOfTwo s' .pop ∨ ∃ t ∈ trace, Blocked ringOfTwo t.source .pop) := by
  obtain ⟨s, hcall, -, -⟩ :=
    exists_step_call ringOfTwo (s := behindPush) (i := 2) (by decide) .pop
  have hs := eq_of_pop hcall
  obtain ⟨s₁, h₁, hmem₁, hpc₁⟩ := exists_access (R := ringOfTwo) (s := s) (i := 2)
    (r := (behindPush.mem, .popLoadSeq 0)) (by rw [hs]; rfl)
  obtain ⟨s', h', -, hpc'⟩ := exists_access (R := ringOfTwo) (s := s₁) (i := 2)
    (r := (behindPush.mem, .popFalse)) (by rw [hpc₁, hmem₁]; rfl)
  have hfirst : (system (Fin 3) ℕ ringOfTwo).Path (fun _ a => a ≠ .ret 2) s
      [⟨s, .access 2 false, s₁⟩] s₁ := .single (by simp) h₁
  have hpath := hfirst.snoc (a := .access 2 false) (by simp) h'
  have hcalls : s'.calls = 3 := by
    obtain ⟨r, -, hr⟩ := eq_of_access (R := ringOfTwo) h'
    obtain ⟨r₁, -, hr₁⟩ := eq_of_access (R := ringOfTwo) h₁
    rw [hr, hr₁, hs]
    rfl
  refine ⟨s, _, s', hcall, hpath, hpc', ?_⟩
  exact truthful_blocked ringOfTwo (by decide) .pop (Or.inl rfl) 2 behindPush s _ s'
    reachable_behindPush hcall hpath hpc' (by rw [hcalls]; norm_num)

/-- The largest ring that its static assertion admits. -/
def largestRing : RingSize := ⟨2 ^ 63, 63, by norm_num, rfl⟩

/-- **What the answer `false` does not say.**  A call fails behind a thread that stalls after
its exchange.  Without the bounds it fails behind nothing. -/
theorem not_truthful :
    (¬ Truthful (ι := Fin 3) ringOfTwo (fun _ => True) (Exhausted ringOfTwo)
        (.pop : QueueCall ℕ) ∧
      ¬ Truthful (ι := Fin 3) ringOfTwo (fun _ => True) (Exhausted ringOfTwo) (.push 9)) ∧
    (¬ Truthful (ι := Bool) ringOfTwo (fun _ => True) (Blocked ringOfTwo)
        (.pop : QueueCall Unit) ∧
      ¬ Truthful (ι := Bool) ringOfTwo (fun _ => True) (Blocked ringOfTwo) (.push ())) ∧
    ¬ Truthful (ι := Bool) largestRing (· < 2 ^ 63) (Blocked largestRing) (.push ()) := by
  refine ⟨⟨not_truthful_behindPush, not_truthful_behindPop⟩,
    ⟨not_truthful_pop ringOfTwo (by decide) (), not_truthful_push ringOfTwo (by decide) () trivial⟩,
    not_truthful_push largestRing ?_ () ?_⟩
  · show 2 ≤ 2 ^ 63
    norm_num
  · show 1 + 2 * (2 ^ 63 - (2 ^ 63 - 1)) < 2 ^ 63
    norm_num

end Truthful

end FiniteLockFreeQueue
end ThreadUtils
