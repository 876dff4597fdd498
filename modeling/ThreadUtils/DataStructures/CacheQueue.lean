import Mathlib.Algebra.Order.Group.Nat
import Mathlib.Data.List.ReduceOption
import ThreadUtils.DataStructures.FiniteLockFreeQueue.Sequential

/-!
# The cache of a worker

`TU_CacheQueue` is a ring that is a queue for `cache`, which drives the oldest element out of
a full ring, and a stack for `pop`.  `head` only advances and `tail` moves both ways, so the
slots in use are those of the tickets from `head` up to `tail`.

`contents` is the list that the ring holds, and `Call.onList` says what the calls do to such a
list.

## The counters

`head` and `tail` are of type `size_t` and `count` is their difference, so the ring works as long
as neither wraps.  Each `cache` advances `tail` by one, and `head` never passes it; so the number of
calls bounds both, and the bound of the result is the one on the calls (`Holds.tail_lt`).

A slot is used again for a later ticket, and after a `pop` for the same ticket.  `Holds` speaks only
of the slots of the tickets in use, which are fewer than the capacity and thus different, so what
lies in the others does not matter: `pop` leaves the element in its slot, and the constructor leaves
there what `new` does.

## Nothing is lost

`cache` hands out the element that it drives out, and `pop` the one that it takes back.  On a list
it is plain that what was cached is held or was handed out, as often (`Call.onList_perm`), and the
ring does what the list does.

* `boundedDeque` --- a sequence of calls does to a new cache what it does to the empty list,
  and what was cached is held or was handed out once.
-/

namespace ThreadUtils

open FiniteLockFreeQueue (RingSize)

/-- `TU_CacheQueue`. -/
structure CacheQueue (α : Type*) where
  size : ℕ
  head : ℕ
  tail : ℕ
  mask : ℕ
  data : ℕ → α

namespace CacheQueue

open scoped List

variable {α : Type*}

/-- The constructor, for a size that its assertion admits.  `data` is what `new T[size]`
leaves in the slots. -/
def new (R : RingSize) (data : ℕ → α) : CacheQueue α where
  size := R.size
  head := 0
  tail := 0
  mask := R.mask
  data := data

/-- `count`. -/
def count (q : CacheQueue α) : ℕ :=
  subSizeT q.tail q.head

/-- The assignments at the end of `cache`. -/
def append (q : CacheQueue α) (newValue : α) : CacheQueue α :=
  { q with
    data := Function.update q.data (q.tail &&& q.mask) newValue
    tail := addSizeT q.tail 1 }

/-- `cache`, and the value of `*poped_value` when it returns true. -/
def cache (q : CacheQueue α) (newValue : α) : CacheQueue α × Option α :=
  if q.size ≤ subSizeT q.tail q.head then
    (append { q with head := addSizeT q.head 1 } newValue, some (q.data (q.head &&& q.mask)))
  else (q.append newValue, none)

/-- `pop`, and the value of `*result` when it returns true. -/
def pop (q : CacheQueue α) : CacheQueue α × Option α :=
  if q.tail ≤ q.head then (q, none)
  else
    let tail := subSizeT q.tail 1
    ({ q with tail := tail }, some (q.data (tail &&& q.mask)))

/-- A call of `cache` or `pop`. -/
inductive Call (α : Type*) where
  | cache (newValue : α)
  | pop

/-- The element that a call caches. -/
def Call.cached? : Call α → Option α
  | .cache newValue => some newValue
  | .pop => none

/-- A call, and what it hands out. -/
def call (q : CacheQueue α) : Call α → CacheQueue α × Option α
  | .cache newValue => q.cache newValue
  | .pop => q.pop

/-- A call, for a list of at most `size` elements. -/
def Call.onList (size : ℕ) (contents : List α) : Call α → List α × Option α
  | .cache newValue =>
      if contents.length = size then (contents.tail ++ [newValue], contents.head?)
      else (contents ++ [newValue], none)
  | .pop => (contents.dropLast, contents.getLast?)

/-- What a sequence of calls leaves, and what each of them hands out. -/
def runCalls {σ : Type*} (act : σ → Call α → σ × Option α) (s : σ) :
    List (Call α) → σ × List (Option α)
  | [] => (s, [])
  | c :: calls =>
      let r := act s c
      let rs := runCalls act r.1 calls
      (rs.1, r.2 :: rs.2)

/-- The elements between `head` and `tail`. -/
def contents (q : CacheQueue α) : List α :=
  (List.range q.count).map fun k => q.data (addSizeT q.head k &&& q.mask)

/-! ## What the ring holds -/

/-- The ring holds a list.  `head` and `tail` have not wrapped. -/
structure Holds (R : RingSize) (q : CacheQueue α) (l : List α) : Prop where
  size : q.size = R.size
  mask : q.mask = R.mask
  tail : q.tail = q.head + l.length
  tail_lt : q.tail < sizeT
  length_le : l.length ≤ R.size
  data : ∀ k (hk : k < l.length), q.data (R.slot (q.head + k)) = l[k]

variable {R : RingSize} {q : CacheQueue α} {l : List α}

theorem holds_new (R : RingSize) (data : ℕ → α) : Holds R (new R data) [] where
  size := rfl
  mask := rfl
  tail := rfl
  tail_lt := by
    rw [sizeT_eq]
    exact Nat.succ_pos _
  length_le := Nat.zero_le _
  data k hk := absurd hk (Nat.not_lt_zero k)

theorem Holds.count_eq (hq : Holds R q l) : q.count = l.length := by
  have hlt := hq.tail_lt
  have htail := hq.tail
  rw [count, subSizeT_of_le (by omega) hlt, htail]
  exact Nat.add_sub_cancel_left _ _

theorem Holds.contents_eq (hq : Holds R q l) : q.contents = l := by
  have hlt := hq.tail_lt
  have htail := hq.tail
  refine List.ext_getElem ?_ fun k hk hkl => ?_
  · rw [contents, List.length_map, List.length_range, hq.count_eq]
  · unfold contents at hk
    simp only [contents, List.getElem_map, List.getElem_range]
    rw [addSizeT_of_lt (by omega), hq.mask]
    exact hq.data k hkl

/-- A new element, when there is room. -/
theorem Holds.append (hq : Holds R q l) (hroom : l.length < R.size) (hlt : q.tail + 1 < sizeT)
    (value : α) : Holds R (q.append value) (l ++ [value]) := by
  have htail := hq.tail
  have hlen : (l ++ [value]).length = l.length + 1 := List.length_append
  have htail' : (q.append value).tail = q.tail + 1 := addSizeT_of_lt hlt
  refine ⟨hq.size, hq.mask, ?_, ?_, ?_, fun k hk => ?_⟩
  · rw [htail', htail, hlen]
    exact Nat.add_assoc _ _ _
  · rw [htail']
    exact hlt
  · rw [hlen]
    exact hroom
  · show Function.update q.data (q.tail &&& q.mask) value (R.slot (q.head + k)) = _
    have hslot : q.tail &&& q.mask = R.slot (q.head + l.length) := by rw [hq.mask, htail]; rfl
    rw [hslot]
    by_cases hkl : k < l.length
    · have hne : R.slot (q.head + k) ≠ R.slot (q.head + l.length) := by
        intro heq
        have hk' := R.slot_add_inj (by omega) hroom heq
        omega
      rw [Function.update_of_ne hne, hq.data k hkl, List.getElem_append_left hkl]
    · obtain rfl : k = l.length := by omega
      rw [Function.update_self, List.getElem_concat_length rfl]

/-- The oldest element is given up. -/
theorem Holds.advance {value : α} (hq : Holds R q (value :: l)) :
    Holds R { q with head := addSizeT q.head 1 } l := by
  have htail := hq.tail
  have hlt := hq.tail_lt
  have hlen : (value :: l).length = l.length + 1 := List.length_cons
  have hle := hq.length_le
  have hhead : addSizeT q.head 1 = q.head + 1 := addSizeT_of_lt (by omega)
  refine ⟨hq.size, hq.mask, ?_, hlt, by omega, fun k hk => ?_⟩
  · show q.tail = addSizeT q.head 1 + l.length
    omega
  · have hdata := hq.data (k + 1) (by omega)
    show q.data (R.slot (addSizeT q.head 1 + k)) = l[k]
    rw [hhead, show q.head + 1 + k = q.head + (k + 1) by omega, hdata]
    rfl

/-- The newest element is taken back. -/
theorem Holds.dropLast (hq : Holds R q l) (hne : l ≠ []) :
    Holds R { q with tail := subSizeT q.tail 1 } l.dropLast ∧
      some (q.data (subSizeT q.tail 1 &&& q.mask)) = l.getLast? := by
  have htail := hq.tail
  have hlt := hq.tail_lt
  have hle := hq.length_le
  have hpos := List.length_pos_iff.mpr hne
  have htail' : subSizeT q.tail 1 = q.tail - 1 := subSizeT_of_le (by omega) hlt
  have hlen : l.dropLast.length = l.length - 1 := List.length_dropLast
  constructor
  · refine ⟨hq.size, hq.mask, ?_, ?_, by omega, fun k hk => ?_⟩
    · show subSizeT q.tail 1 = q.head + l.dropLast.length
      omega
    · show subSizeT q.tail 1 < sizeT
      omega
    · rw [List.getElem_dropLast]
      exact hq.data k (by omega)
  · rw [htail', hq.mask, List.getLast?_eq_getElem?, List.getElem?_eq_getElem (by omega),
      ← hq.data (l.length - 1) (by omega), show q.tail - 1 = q.head + (l.length - 1) by omega]
    rfl

/-- **A call on the ring is the call on its list.** -/
theorem Holds.call (hq : Holds R q l) (hlt : q.tail + 1 < sizeT) (c : Call α) :
    Holds R (q.call c).1 (c.onList R.size l).1 ∧ (q.call c).2 = (c.onList R.size l).2 ∧
      (q.call c).1.tail ≤ q.tail + 1 := by
  have hcount : subSizeT q.tail q.head = l.length := hq.count_eq
  have htail := hq.tail
  have hle := hq.length_le
  have happend : addSizeT q.tail 1 = q.tail + 1 := addSizeT_of_lt hlt
  cases c with
  | cache value =>
    by_cases hfull : l.length = R.size
    · obtain ⟨first, rest, rfl⟩ := List.exists_cons_of_length_pos (hfull ▸ R.size_pos)
      have hpoped : q.data (q.head &&& q.mask) = first := by
        rw [hq.mask]
        exact hq.data 0 (Nat.succ_pos _)
      have hfull' : q.size ≤ subSizeT q.tail q.head := by rw [hcount, hfull, hq.size]
      rw [CacheQueue.call, cache, if_pos hfull', Call.onList, if_pos hfull, hpoped]
      refine ⟨hq.advance.append ?_ hlt value, rfl, happend.le⟩
      rw [← hfull]
      exact Nat.lt_succ_self _
    · have hroom : ¬ q.size ≤ subSizeT q.tail q.head := by
        rw [hcount, hq.size]
        omega
      rw [CacheQueue.call, cache, if_neg hroom, Call.onList, if_neg hfull]
      exact ⟨hq.append (by omega) hlt value, rfl, happend.le⟩
  | pop =>
    rw [CacheQueue.call, pop, Call.onList]
    by_cases hnil : l = []
    · subst hnil
      rw [if_pos (by rw [htail]; rfl)]
      exact ⟨hq, rfl, Nat.le_succ _⟩
    · have hpos := List.length_pos_iff.mpr hnil
      obtain ⟨hholds, hresult⟩ := hq.dropLast hnil
      rw [if_neg (by omega)]
      refine ⟨hholds, hresult, ?_⟩
      show subSizeT q.tail 1 ≤ _
      rw [subSizeT_of_le (by omega) hq.tail_lt]
      omega

/-! ## Sequences of calls -/

/-- A relation that the first `n` calls keep, and under which they hand out the same. -/
theorem runCalls_related {σ τ : Type*} {act : σ → Call α → σ × Option α}
    {act' : τ → Call α → τ × Option α} (Rel : ℕ → σ → τ → Prop) {n : ℕ}
    (hstep : ∀ k s t c, k < n → Rel k s t →
      Rel (k + 1) (act s c).1 (act' t c).1 ∧ (act s c).2 = (act' t c).2)
    {calls : List (Call α)} {k : ℕ} {s : σ} {t : τ} (hrel : Rel k s t)
    (hle : k + calls.length ≤ n) :
    Rel (k + calls.length) (runCalls act s calls).1 (runCalls act' t calls).1 ∧
      (runCalls act s calls).2 = (runCalls act' t calls).2 := by
  induction calls generalizing k s t with
  | nil => exact ⟨hrel, rfl⟩
  | cons c calls ih =>
    rw [List.length_cons] at hle ⊢
    obtain ⟨hnext, hsame⟩ := hstep k s t c (by omega) hrel
    obtain ⟨hlast, hrest⟩ := ih hnext (by omega)
    rw [show k + (calls.length + 1) = k + 1 + calls.length by omega]
    exact ⟨hlast, List.cons_eq_cons.mpr ⟨hsame, hrest⟩⟩

/-- A call on a list loses nothing. -/
theorem Call.onList_perm (size : ℕ) (l : List α) (c : Call α) :
    (l ++ c.cached?.toList).Perm ((c.onList size l).1 ++ (c.onList size l).2.toList) := by
  cases c with
  | cache value =>
    show (l ++ [value]).Perm _
    by_cases hfull : l.length = size
    · rw [onList, if_pos hfull]
      cases l with
      | nil => exact .refl _
      | cons first rest => exact (List.perm_append_singleton first (rest ++ [value])).symm
    · rw [onList, if_neg hfull]
      show (l ++ [value]).Perm (l ++ [value] ++ [])
      rw [List.append_nil]
  | pop =>
    show (l ++ []).Perm (l.dropLast ++ l.getLast?.toList)
    rw [List.append_nil]
    cases l using List.reverseRecOn with
    | nil => exact .refl _
    | append_singleton rest last => simp

/-- A sequence of calls on a list loses nothing. -/
theorem runCalls_onList_perm (size : ℕ) (calls : List (Call α)) (l : List α) :
    (l ++ calls.filterMap Call.cached?).Perm
      ((runCalls (fun l c => c.onList size l) l calls).1 ++
        (runCalls (fun l c => c.onList size l) l calls).2.reduceOption) := by
  induction calls generalizing l with
  | nil => exact .refl _
  | cons c calls ih =>
    have hcached : (c :: calls).filterMap Call.cached? =
        c.cached?.toList ++ calls.filterMap Call.cached? := by
      cases c <;> rfl
    have hhanded : ∀ (r : Option α) (rs : List (Option α)),
        (r :: rs).reduceOption = r.toList ++ rs.reduceOption := by
      intro r rs
      cases r with
      | none => exact List.reduceOption_cons_of_none rs
      | some value => exact List.reduceOption_cons_of_some value rs
    have hrun : runCalls (fun l c => c.onList size l) l (c :: calls) =
        ((runCalls (fun l c => c.onList size l) (c.onList size l).1 calls).1,
          (c.onList size l).2 ::
            (runCalls (fun l c => c.onList size l) (c.onList size l).1 calls).2) := rfl
    rw [hcached, hrun, hhanded, ← List.append_assoc]
    -- what this call hands out goes past what is held at the end
    calc l ++ c.cached?.toList ++ calls.filterMap Call.cached?
        _ ~ (c.onList size l).1 ++ (c.onList size l).2.toList ++ calls.filterMap Call.cached? :=
          (c.onList_perm size l).append_right _
        _ ~ (c.onList size l).1 ++ calls.filterMap Call.cached? ++ (c.onList size l).2.toList := by
          rw [List.append_assoc, List.append_assoc]
          exact List.perm_append_comm.append_left _
        _ ~ _ ++ (c.onList size l).2.toList := (ih _).append_right _
        _ ~ _ := by
          rw [List.append_assoc]
          exact List.perm_append_comm.append_left _

/-- What a sequence of calls does to a new cache. -/
structure BoundedDeque (R : RingSize) (data : ℕ → α) (calls : List (Call α)) : Prop where
  /-- The content is the list that the calls make of the empty one. -/
  contents : (runCalls call (new R data) calls).1.contents =
    (runCalls (fun l c => c.onList R.size l) [] calls).1
  /-- The calls hand out what they hand out of the list. -/
  handedOut : (runCalls call (new R data) calls).2 =
    (runCalls (fun l c => c.onList R.size l) [] calls).2
  count : (runCalls call (new R data) calls).1.count =
    (runCalls call (new R data) calls).1.contents.length
  length_le : (runCalls call (new R data) calls).1.contents.length ≤ R.size
  /-- What was cached is held, or was handed out, as often. -/
  conserved : (calls.filterMap Call.cached?).Perm
    ((runCalls call (new R data) calls).1.contents ++
      (runCalls call (new R data) calls).2.reduceOption)

/-- **The cache is a bounded deque that loses nothing.** -/
theorem boundedDeque (R : RingSize) (data : ℕ → α) (calls : List (Call α))
    (hcalls : calls.length < sizeT) : BoundedDeque R data calls := by
  have hstep : ∀ k q (l : List α) c, k < sizeT - 1 → Holds R q l ∧ q.tail ≤ k →
      (Holds R (q.call c).1 (c.onList R.size l).1 ∧ (q.call c).1.tail ≤ k + 1) ∧
        (q.call c).2 = (c.onList R.size l).2 := by
    rintro k q l c hk ⟨hq, htail⟩
    obtain ⟨hq', hsame, htail'⟩ := hq.call (by omega) c
    exact ⟨⟨hq', by omega⟩, hsame⟩
  have hstart : Holds R (new R data) [] ∧ (new R data).tail ≤ 0 := ⟨holds_new R data, le_rfl⟩
  obtain ⟨⟨hq, -⟩, hsame⟩ := runCalls_related (fun k q l => Holds R q l ∧ q.tail ≤ k) hstep hstart
    (show 0 + calls.length ≤ sizeT - 1 by omega)
  have hconserved := runCalls_onList_perm R.size calls ([] : List α)
  rw [← hsame, ← hq.contents_eq] at hconserved
  constructor
  · exact hq.contents_eq
  · exact hsame
  · rw [hq.count_eq, hq.contents_eq]
  · rw [hq.contents_eq]
    exact hq.length_le
  · exact hconserved

/-- Six elements go through a cache of four. -/
theorem boundedDeque_six : BoundedDeque ⟨4, 2, by decide, rfl⟩ (fun _ => 0)
    [.cache 1, .cache 2, .cache 3, .pop, .cache 4, .cache 5, .cache 6, .pop] :=
  boundedDeque _ _ _ (by decide)

end CacheQueue
end ThreadUtils
