import ThreadUtils.DataStructures.FiniteLockFreeQueue.Model

/-!
# The ring between two calls

When no call is in flight the ring holds a list of elements: those of the tickets from
`head` on.  `Ring` says so for the pops that were made since the construction, however
often the counters have wrapped, because two sequence numbers that are compared are less
than `2 ^ 63` apart.

`PushAt` and `PopAt` follow a call of a thread that nobody disturbs.  A push fails exactly
when the ring is full, and a pop exactly when it is empty.

## Tickets that have wrapped

`head` and `tail` are kept modulo `2 ^ 64`, and the slot of a ticket modulo the capacity.  Since the
capacity is a power of two it divides `2 ^ 64`, so a ticket finds its slot after the wrap
(`slot_mod`), and the signed difference of two numbers that have wrapped is the difference of the
numbers that have not (`intptrDiff_mod`).  So `Ring` can count pops and elements with natural
numbers and say of the counters only what they are modulo `2 ^ 64`.

## One slot

In a ring of one slot that is full, the number of the slot is the one that a push expects
(`Ring.pushDiff`).  The push of an undisturbed thread is therefore followed only where there is room
or where there are two slots.
-/

namespace ThreadUtils
namespace FiniteLockFreeQueue

variable {α : Type*} {R : RingSize}

/-! ## Tickets that have wrapped -/

/-- The signed difference of two counters that have wrapped. -/
theorem intptrDiff_mod {x y : ℕ} (hlo : -(2 ^ 63) ≤ (x : ℤ) - y) (hhi : (x : ℤ) - y < 2 ^ 63) :
    intptrDiff (x % sizeT) (y % sizeT) = (x : ℤ) - y := by
  have hmod : ((x % sizeT : ℕ) : ℤ) - ((y % sizeT : ℕ) : ℤ) ≡ (x : ℤ) - y [ZMOD (sizeT : ℤ)] := by
    push_cast
    exact (Int.mod_modEq _ _).sub (Int.mod_modEq _ _)
  rw [intptrDiff, Int.bmod_def, hmod, ← Int.bmod_def]
  refine Int.bmod_eq_of_le ?_ ?_
  · rw [sizeT_eq]
    omega
  · rw [sizeT_eq]
    omega

namespace RingSize

theorem dvd_sizeT : R.size ∣ sizeT := by
  obtain ⟨k, hk, he⟩ := R.isPowerOfTwo
  rw [he, sizeT]
  exact Nat.pow_dvd_pow 2 (by omega)

/-- A ticket finds its slot after the wrap. -/
theorem slot_mod (t : ℕ) : R.slot (t % sizeT) = R.slot t := by
  rw [R.slot_eq_mod, R.slot_eq_mod, Nat.mod_mod_of_dvd _ R.dvd_sizeT]

/-- The tickets of one lap have different slots. -/
theorem slot_add_inj {h j k : ℕ} (hj : j < R.size) (hk : k < R.size)
    (heq : R.slot (h + j) = R.slot (h + k)) : j = k := by
  rw [R.slot_eq_mod, R.slot_eq_mod] at heq
  have hmod : j ≡ k [MOD R.size] := Nat.ModEq.add_left_cancel' h heq
  rwa [Nat.ModEq, Nat.mod_eq_of_lt hj, Nat.mod_eq_of_lt hk] at hmod

end RingSize

theorem addSizeT_mod (x k : ℕ) : addSizeT (x % sizeT) k = (x + k) % sizeT := by
  rw [addSizeT, Nat.mod_add_mod]

/-! ## The memory between two calls -/

/-- The memory after `h` pops, with the elements that are left. -/
structure Ring (R : RingSize) (m : Mem α) (h : ℕ) (contents : List α) : Prop where
  head : m.head = h % sizeT
  tail : m.tail = (h + contents.length) % sizeT
  length_le : contents.length ≤ R.size
  ready : ∀ k (hk : k < contents.length), m.sequence (R.slot (h + k)) = (h + k + 1) % sizeT ∧
    m.data (R.slot (h + k)) = contents[k]
  free : ∀ k, contents.length ≤ k → k < R.size → m.sequence (R.slot (h + k)) = (h + k) % sizeT

/-- What an undisturbed push of `value` has done at its program counter. -/
def PushAt (R : RingSize) (m : Mem α) (h : ℕ) (contents : List α) (value : α) : Pc α → Prop
  | .pushLoadTail v => v = value ∧ Ring R m h contents
  | .pushLoadSeq v t => v = value ∧ Ring R m h contents ∧ t = m.tail
  | .pushCas v t => v = value ∧ Ring R m h contents ∧ t = m.tail ∧ contents.length < R.size
  | .pushWrite v t => v = value ∧ Ring R { m with tail := t } h contents ∧
      m.tail = addSizeT t 1 ∧ contents.length < R.size
  | .pushStore v t => v = value ∧ Ring R { m with tail := t } h contents ∧
      m.tail = addSizeT t 1 ∧ contents.length < R.size ∧ m.data (R.slot t) = value
  | .pushTrue v _ => v = value ∧ contents.length < R.size ∧ Ring R m h (contents ++ [value])
  | .pushFalse v => v = value ∧ contents.length = R.size ∧ Ring R m h contents
  | _ => False

/-- What an undisturbed pop has done at its program counter. -/
def PopAt (R : RingSize) (m : Mem α) (h : ℕ) (contents : List α) : Pc α → Prop
  | .popLoadHead => Ring R m h contents
  | .popLoadSeq n => Ring R m h contents ∧ n = m.head
  | .popCas n => Ring R m h contents ∧ n = m.head ∧ contents ≠ []
  | .popRead n => Ring R { m with head := n } h contents ∧ m.head = addSizeT n 1 ∧ contents ≠ []
  | .popStore n result => Ring R { m with head := n } h contents ∧ m.head = addSizeT n 1 ∧
      contents.head? = some result
  | .popTrue _ result => contents.head? = some result ∧ Ring R m (h + 1) contents.tail
  | .popFalse => contents = [] ∧ Ring R m h contents
  | _ => False

/-- The accesses that a call has to make when no exchange fails, its return included. -/
def Pc.rank : Pc α → ℕ
  | .idle => 0
  | .pushTrue _ _ | .pushFalse _ | .popTrue _ _ | .popFalse => 1
  | .pushStore _ _ | .popStore _ _ => 2
  | .pushWrite _ _ | .popRead _ => 3
  | .pushCas _ _ | .popCas _ => 4
  | .pushLoadSeq _ _ | .popLoadSeq _ => 5
  | .pushLoadTail _ | .popLoadHead => 6

variable {m : Mem α} {h : ℕ} {contents : List α}

theorem ring_of_initial {ι : Type*} {s : State ι α} (hs : IsInitial R s) : Ring R s.mem 0 [] := by
  obtain ⟨hseq, hhead, htail, -⟩ := hs
  refine ⟨hhead, htail, Nat.zero_le _, fun k hk => absurd hk (Nat.not_lt_zero k), fun k _ hk => ?_⟩
  have hlt : k < sizeT := hk.trans_le (R.size_le.trans (by rw [sizeT_eq]; norm_num))
  rw [Nat.zero_add, R.slot_eq_mod, Nat.mod_eq_of_lt hk, hseq k hk, Nat.mod_eq_of_lt hlt]

/-- The difference that a push computes.  In a full ring of one slot it is zero, too. -/
theorem Ring.pushDiff (hR : Ring R m h contents) :
    intptrDiff (m.sequence (R.slot m.tail)) m.tail =
      if contents.length < R.size then 0 else 1 - (R.size : ℤ) := by
  have hsize := R.size_le
  have hpos := R.size_pos
  rw [hR.tail, R.slot_mod]
  split
  · next hlt =>
    rw [hR.free _ le_rfl hlt, intptrDiff_mod (by omega) (by omega), sub_self]
  · next hge =>
    -- the slot is that of the first element
    have hfull : contents.length = R.size := le_antisymm hR.length_le (not_lt.mp hge)
    have hslot : R.slot (h + contents.length) = R.slot (h + 0) := by
      rw [hfull, R.slot_eq_mod, R.slot_eq_mod, Nat.add_mod_right, Nat.add_zero]
    rw [hslot, (hR.ready 0 (by omega)).1, intptrDiff_mod (by omega) (by omega)]
    omega

/-- The difference that a pop computes. -/
theorem Ring.popDiff (hR : Ring R m h contents) :
    intptrDiff (m.sequence (R.slot m.head)) (addSizeT m.head 1) =
      if contents = [] then -1 else 0 := by
  rw [hR.head, R.slot_mod, addSizeT_mod]
  split
  · next hnil =>
    subst hnil
    have hseq := hR.free 0 le_rfl R.size_pos
    rw [Nat.add_zero] at hseq
    rw [hseq, intptrDiff_mod (by omega) (by omega)]
    omega
  · next hne =>
    have hseq := (hR.ready 0 (List.length_pos_iff.mpr hne)).1
    rw [Nat.add_zero] at hseq
    rw [hseq, intptrDiff_mod (by omega) (by omega), sub_self]

/-- The data of a slot that is not ready do not matter. -/
theorem Ring.write (hR : Ring R m h contents) (hlt : contents.length < R.size) (value : α) :
    Ring R { m with data := Function.update m.data (R.slot m.tail) value } h contents := by
  refine ⟨hR.head, hR.tail, hR.length_le, fun k hk => ?_, hR.free⟩
  obtain ⟨hseq, hdata⟩ := hR.ready k hk
  refine ⟨hseq, ?_⟩
  have hne : R.slot (h + k) ≠ R.slot m.tail := by
    rw [hR.tail, R.slot_mod]
    intro heq
    have hkl := R.slot_add_inj (by omega) hlt heq
    omega
  show Function.update m.data (R.slot m.tail) value (R.slot (h + k)) = contents[k]
  rw [Function.update_of_ne hne, hdata]

/-- The last store of a push. -/
theorem Ring.push (hR : Ring R m h contents) (hlt : contents.length < R.size) {value : α}
    (hdata : m.data (R.slot m.tail) = value) :
    Ring R { m with
      tail := addSizeT m.tail 1
      sequence := Function.update m.sequence (R.slot m.tail) (addSizeT m.tail 1) } h
      (contents ++ [value]) := by
  have hslot : R.slot m.tail = R.slot (h + contents.length) := by rw [hR.tail, R.slot_mod]
  have htail : addSizeT m.tail 1 = (h + contents.length + 1) % sizeT := by
    rw [hR.tail, addSizeT_mod]
  have hlen : (contents ++ [value]).length = contents.length + 1 := List.length_append
  have hother : ∀ k, k < R.size → k ≠ contents.length →
      Function.update m.sequence (R.slot m.tail) (addSizeT m.tail 1) (R.slot (h + k)) =
        m.sequence (R.slot (h + k)) := by
    intro k hk hne
    rw [hslot, Function.update_of_ne fun heq => hne (R.slot_add_inj hk hlt heq)]
  refine ⟨hR.head, ?_, ?_, fun k hk => ?_, fun k hk hks => ?_⟩
  · show addSizeT m.tail 1 = _
    rw [htail, hlen, Nat.add_assoc]
  · rw [hlen]
    exact hlt
  · by_cases hkl : k < contents.length
    · obtain ⟨hseq, hk'⟩ := hR.ready k hkl
      refine ⟨(hother k (by omega) (by omega)).trans hseq, ?_⟩
      rw [List.getElem_append_left hkl]
      exact hk'
    · obtain rfl : k = contents.length := by omega
      refine ⟨?_, ?_⟩
      · show Function.update m.sequence (R.slot m.tail) (addSizeT m.tail 1) _ = _
        rw [← hslot, Function.update_self, htail]
      · show m.data _ = _
        rw [← hslot, hdata, List.getElem_concat_length rfl]
  · exact (hother k hks (by omega)).trans (hR.free k (by omega) hks)

/-- The last store of a pop. -/
theorem Ring.pop {value : α} (hR : Ring R m h (value :: contents)) :
    Ring R { m with
      head := addSizeT m.head 1
      sequence := Function.update m.sequence (R.slot m.head) (addSizeT m.head R.size) } (h + 1)
      contents := by
  have hlen : (value :: contents).length = contents.length + 1 := rfl
  have hle := hR.length_le
  have hslot : R.slot m.head = R.slot (h + 0) := by rw [hR.head, R.slot_mod, Nat.add_zero]
  have hother : ∀ k, k + 1 < R.size →
      Function.update m.sequence (R.slot m.head) (addSizeT m.head R.size) (R.slot (h + 1 + k)) =
        m.sequence (R.slot (h + (k + 1))) := by
    intro k hk
    rw [show h + 1 + k = h + (k + 1) by omega, hslot, Function.update_of_ne fun heq =>
      absurd (R.slot_add_inj hk R.size_pos heq) (Nat.succ_ne_zero k)]
  refine ⟨?_, ?_, by omega, fun k hk => ?_, fun k hk hks => ?_⟩
  · show addSizeT m.head 1 = _
    rw [hR.head, addSizeT_mod]
  · show m.tail = _
    rw [hR.tail, hlen, show h + (contents.length + 1) = h + 1 + contents.length by omega]
  · obtain ⟨hseq, hdata⟩ := hR.ready (k + 1) (by omega)
    refine ⟨(hother k (by omega)).trans ?_, ?_⟩
    · rw [hseq, show h + (k + 1) + 1 = h + 1 + k + 1 by omega]
    · rw [show h + 1 + k = h + (k + 1) by omega]
      exact hdata
  · by_cases hlast : k + 1 = R.size
    · -- the slot that was given up is the last one of the next lap
      have hwrap : R.slot (h + 1 + k) = R.slot m.head := by
        rw [hslot, show h + 1 + k = h + R.size by omega, R.slot_eq_mod, R.slot_eq_mod,
          Nat.add_mod_right, Nat.add_zero]
      show Function.update m.sequence (R.slot m.head) (addSizeT m.head R.size) _ = _
      rw [hwrap, Function.update_self, hR.head, addSizeT_mod,
        show h + 1 + k = h + R.size by omega]
    · refine (hother k (by omega)).trans ?_
      rw [hR.free (k + 1) (by omega) (by omega), show h + (k + 1) = h + 1 + k by omega]

/-! ## An undisturbed call -/

/-- **A push of a single thread**, one access at a time. -/
theorem PushAt.access {value : α} {pc : Pc α} {spurious : Bool} {r : Mem α × Pc α}
    (hP : PushAt R m h contents value pc) (hroom : contents.length < R.size ∨ 2 ≤ R.size)
    (hr : m.access R spurious pc = some r) :
    PushAt R r.1 h contents value r.2 ∧ (spurious = false → r.2.rank < pc.rank) := by
  cases pc with
  | pushLoadTail v =>
    obtain rfl := Option.some.inj hr
    exact ⟨⟨hP.1, hP.2, rfl⟩, fun _ => Nat.lt_succ_self 5⟩
  | pushLoadSeq v t =>
    obtain ⟨hv, hR, rfl⟩ := hP
    simp only [Mem.access, hR.pushDiff] at hr
    by_cases hlt : contents.length < R.size
    · rw [if_pos hlt, if_pos rfl] at hr
      obtain rfl := Option.some.inj hr
      exact ⟨⟨hv, hR, rfl, hlt⟩, fun _ => Nat.lt_succ_self 4⟩
    · rw [if_neg hlt, if_neg (by omega), if_pos (by omega)] at hr
      obtain rfl := Option.some.inj hr
      exact ⟨⟨hv, le_antisymm hR.length_le (not_lt.mp hlt), hR⟩,
        fun _ => by show 1 < 5; norm_num⟩
  | pushCas v t =>
    obtain ⟨hv, hR, rfl, hlt⟩ := hP
    rw [Mem.access] at hr
    cases spurious with
    | false =>
      rw [if_pos ⟨rfl, rfl⟩] at hr
      obtain rfl := Option.some.inj hr
      exact ⟨⟨hv, hR, rfl, hlt⟩, fun _ => Nat.lt_succ_self 3⟩
    | true =>
      rw [if_neg (by simp)] at hr
      obtain rfl := Option.some.inj hr
      exact ⟨⟨hv, hR, rfl⟩, fun hfalse => absurd hfalse (by simp)⟩
  | pushWrite v t =>
    obtain ⟨rfl, hR, htail, hlt⟩ := hP
    obtain rfl := Option.some.inj hr
    exact ⟨⟨rfl, hR.write hlt v, htail, hlt, Function.update_self _ _ _⟩,
      fun _ => Nat.lt_succ_self 2⟩
  | pushStore v t =>
    obtain ⟨rfl, hR, htail, hlt, hdata⟩ := hP
    obtain rfl := Option.some.inj hr
    refine ⟨⟨rfl, hlt, ?_⟩, fun _ => Nat.lt_succ_self 1⟩
    have hpush := hR.push hlt hdata
    rw [← htail] at hpush
    rw [← htail]
    exact hpush
  | pushTrue | pushFalse => cases hr
  | _ => exact hP.elim

/-- **A pop of a single thread**, one access at a time. -/
theorem PopAt.access {pc : Pc α} {spurious : Bool} {r : Mem α × Pc α}
    (hP : PopAt R m h contents pc) (hr : m.access R spurious pc = some r) :
    PopAt R r.1 h contents r.2 ∧ (spurious = false → r.2.rank < pc.rank) := by
  cases pc with
  | popLoadHead =>
    obtain rfl := Option.some.inj hr
    exact ⟨⟨hP, rfl⟩, fun _ => Nat.lt_succ_self 5⟩
  | popLoadSeq n =>
    obtain ⟨hR, rfl⟩ := hP
    simp only [Mem.access, hR.popDiff] at hr
    by_cases hnil : contents = []
    · rw [if_pos hnil, if_neg (by norm_num), if_pos (by norm_num)] at hr
      obtain rfl := Option.some.inj hr
      exact ⟨⟨hnil, hR⟩, fun _ => by show 1 < 5; norm_num⟩
    · rw [if_neg hnil, if_pos rfl] at hr
      obtain rfl := Option.some.inj hr
      exact ⟨⟨hR, rfl, hnil⟩, fun _ => Nat.lt_succ_self 4⟩
  | popCas n =>
    obtain ⟨hR, rfl, hne⟩ := hP
    rw [Mem.access] at hr
    cases spurious with
    | false =>
      rw [if_pos ⟨rfl, rfl⟩] at hr
      obtain rfl := Option.some.inj hr
      exact ⟨⟨hR, rfl, hne⟩, fun _ => Nat.lt_succ_self 3⟩
    | true =>
      rw [if_neg (by simp)] at hr
      obtain rfl := Option.some.inj hr
      exact ⟨⟨hR, rfl⟩, fun hfalse => absurd hfalse (by simp)⟩
  | popRead n =>
    obtain ⟨hR, hhead, hne⟩ := hP
    obtain rfl := Option.some.inj hr
    refine ⟨⟨hR, hhead, ?_⟩, fun _ => Nat.lt_succ_self 2⟩
    have hpos := List.length_pos_iff.mpr hne
    have hn : n = h % sizeT := hR.head
    have hslot : R.slot n = R.slot (h + 0) := by rw [hn, R.slot_mod, Nat.add_zero]
    rw [hslot, (hR.ready 0 hpos).2, List.head?_eq_getElem?, List.getElem?_eq_getElem hpos]
  | popStore n result =>
    obtain ⟨hR, hhead, hfirst⟩ := hP
    obtain rfl := Option.some.inj hr
    obtain ⟨rest, rfl⟩ := List.head?_eq_some_iff.mp hfirst
    refine ⟨⟨rfl, ?_⟩, fun _ => Nat.lt_succ_self 1⟩
    have hpop := hR.pop
    rw [← hhead] at hpop
    exact hpop
  | popTrue | popFalse => cases hr
  | _ => exact hP.elim

/-- A thread inside a call that has not come to its return makes an access. -/
theorem access_isSome (m : Mem α) (spurious : Bool) {pc : Pc α} (hpc : 1 < pc.rank) :
    (m.access R spurious pc).isSome := by
  cases pc with
  | idle | pushTrue | pushFalse | popTrue | popFalse => exact absurd hpc (by simp [Pc.rank])
  | pushLoadSeq | popLoadSeq =>
    rw [Mem.access]
    split
    · rfl
    · split <;> rfl
  | pushCas | popCas =>
    rw [Mem.access]
    split <;> rfl
  | _ => rfl

/-! ## The steps of a call -/

section Steps

variable {ι : Type*} [DecidableEq ι] {s t : State ι α} {i : ι}

theorem eq_of_push {value : α} (h : step R s (.push i value) = some t) :
    t = { s with pc := Function.update s.pc i (.pushLoadTail value), calls := s.calls + 1 } := by
  rw [step] at h
  split at h
  · exact (Option.some.inj h).symm
  · cases h

theorem eq_of_pop (h : step R s (.pop i) = some t) :
    t = { s with pc := Function.update s.pc i .popLoadHead, calls := s.calls + 1 } := by
  rw [step] at h
  split at h
  · exact (Option.some.inj h).symm
  · cases h

theorem eq_of_access {spurious : Bool} (h : step R s (.access i spurious) = some t) :
    ∃ r, s.mem.access R spurious (s.pc i) = some r ∧
      t = { mem := r.1, pc := Function.update s.pc i r.2, calls := s.calls
            pushed := (record s i r.2).1, popped := (record s i r.2).2 } := by
  obtain ⟨r, hr, rfl⟩ := Option.map_eq_some_iff.mp h
  exact ⟨r, hr, rfl⟩

theorem eq_of_ret (h : step R s (.ret i) = some t) :
    t = { s with pc := Function.update s.pc i .idle } := by
  rw [step] at h
  split at h
  all_goals first
    | exact (Option.some.inj h).symm
    | cases h

end Steps

end FiniteLockFreeQueue
end ThreadUtils
