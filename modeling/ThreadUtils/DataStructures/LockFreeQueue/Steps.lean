import ThreadUtils.DataStructures.LockFreeQueue.Invariant
import ThreadUtils.Transition.Fifo

/-!
# What each access does to the chain

Most accesses read, or fail to exchange, and change only the program counter
(`Inv.quiet`).  The others are taken one by one: the allocation and the initialization
of a node, the exchange of `next` that appends to the chain, the three exchanges of
`tail_`, the exchange of `head_`, and the store and the exchange of `release_node`.
`Inv.access` puts them together: an access keeps the invariant for some chain, and
moves the elements by one step of a FIFO.

## Why an exchange that succeeds does the right thing

An exchange compares a pair of a pointer and a version with a pair that was loaded some time ago.

* For `head_` and `tail_` the version is the position in the chain, so an equal pair is the same
  position, and what the thread has found out about that position is still true: the chain only
  grows, and no node is in it twice (`Chain.position_unique`).
* For `next` the pair is `{nullptr, 0}`, and the field may belong to a node that was popped long
  ago.  Then its version is not `0` any more (`Chain.retired`), so the exchange fails; where it
  succeeds the node is the last one.
* For `free_` nothing depends on the result but the number of releases, which is what bounds the
  versions that `release_node` writes (`Inv.free_lt_head`).

## What the steps leave alone

A store of `next` to a private node keeps the chain, and so does one to a node that `head_` has left
behind as long as the version is not `0` (`Chain.store_next`).  Only the link and the unlink
change the elements, and they are what `Pc.event` tells from the program counters.
-/

namespace ThreadUtils
namespace LockFreeQueue

variable {ι : Type*} {α : Type*}

/-- What an access does to the list, told by the program counters around it: the
exchange of `next` enqueues and the exchange of `head_` dequeues. -/
def Pc.event : Pc α → Pc α → Option (FifoEvent α)
  | .pushLink value _ _ _, .pushSwing _ _ => some (.enqueue value)
  | .popCas _ _ result, .releaseLoad _ _ => some (.dequeue result)
  | _, _ => none

/-- Two positions of the chain with one node are one position. -/
theorem Chain.position_unique {m : Mem α} {chain : List ℕ} (hC : Chain m chain) {j k a : ℕ}
    (hj : chain[j]? = some a) (hk : chain[k]? = some a) : j = k := by
  obtain ⟨hjlt, hja⟩ := List.getElem?_eq_some_iff.mp hj
  obtain ⟨hklt, hka⟩ := List.getElem?_eq_some_iff.mp hk
  exact (List.Nodup.getElem_inj_iff hC.nodup).mp (hja.trans hka.symm)

/-- A node of the chain is not private. -/
theorem Private.ne_of_getElem? {m : Mem α} {chain : List ℕ} {node k a : ℕ} {value : α}
    (hp : Private m chain node value) (hk : chain[k]? = some a) : node ≠ a := by
  rintro rfl
  exact hp.not_linked (List.mem_of_getElem? hk)

/-- A `next` field of the live part is the end mark or names a successor. -/
theorem link_cases (chain : List ℕ) (k : ℕ) :
    link chain k = ⟨none, 0⟩ ∨ Linked chain k (link chain k).ptr := by
  rcases Nat.lt_or_ge (k + 1) chain.length with hlt | hge
  · exact Or.inr ⟨hlt, rfl⟩
  · exact Or.inl (link_of_le hge)

theorem Linked.ne_none {chain : List ℕ} {k : ℕ} {p : Option ℕ} (h : Linked chain k p) :
    p ≠ none := by
  rw [h.2, List.getElem?_eq_getElem h.1]
  exact Option.some_ne_none _

section Bounds

variable [Fintype ι] {s : State ι α} {chain : List ℕ}

/-- A call fits in the budget, so the chain is no longer than a `size_t` can count. -/
theorem Inv.length_le (hI : Inv s chain) : chain.length ≤ s.calls + 1 := by
  have h := hI.budget
  omega

theorem Inv.head_lt_length (hI : Inv s chain) : s.mem.head_.count < chain.length :=
  lt_of_le_of_lt hI.shape.head_le_tail hI.shape.tail_lt

/-- A node that is being released has not been counted on the free list. -/
theorem Inv.free_lt_head (hI : Inv s chain) {i : ι} (h : (s.pc i).releasing = 1) :
    s.mem.free_.count < s.mem.head_.count := by
  have hle := le_sum_apply (fun j => (s.pc j).releasing) i
  have hrel := hI.released
  simp only [h] at hle
  omega

end Bounds

section Steps

variable [Fintype ι] [DecidableEq ι] {s : State ι α} {chain : List ℕ}

/-- A step that changes only the program counter of `i` and the number of calls. -/
theorem Inv.quiet (hI : Inv s chain) {i : ι} {q p : Pc α} {c : ℕ} (hpc : s.pc i = q)
    (hok : ThreadOk s.mem chain p) (hown : p.owned = q.owned)
    (hrel : p.releasing = q.releasing) (hbud : p.unlinked + s.calls ≤ q.unlinked + c) :
    Inv { mem := s.mem, pc := Function.update s.pc i p, calls := c } chain := by
  subst hpc
  refine hI.update i hI.shape (Grows.refl _ _) hok ?_ ?_ (by rw [hrel]) (by omega)
  · intro node value ho
    rw [hown] at ho
    refine ⟨hI.owned i node value ho, fun j hji w hj => hji ?_⟩
    exact hI.distinct j i node w value hj ho
  · exact fun j _ node value ho => hI.owned j node value ho

/-- An access that leaves the memory as it is. -/
theorem Inv.read (hI : Inv s chain) {i : ι} {q p : Pc α} (hpc : s.pc i = q)
    (hok : ThreadOk s.mem chain p) (hown : p.owned = q.owned)
    (hrel : p.releasing = q.releasing) (hunl : p.unlinked = q.unlinked) :
    Inv { mem := s.mem, pc := Function.update s.pc i p, calls := s.calls } chain :=
  hI.quiet hpc hok hown hrel (by rw [hunl])

/-- `new TU_LockFreeQueueNode<T>()`: the node is private. -/
theorem Inv.new (hI : Inv s chain) {i : ι} {value : α} {fresh : ℕ}
    (hpc : s.pc i = .pushNew value) (hfresh : fresh ∉ s.mem.allocated) :
    Inv { mem := { s.mem with
            allocated := insert fresh s.mem.allocated
            data := Function.update s.mem.data fresh value
            next := Function.update s.mem.next fresh ⟨none, 0⟩ }
          pc := Function.update s.pc i (.pushInit value fresh), calls := s.calls } chain := by
  have hC := hI.shape
  have hne : ∀ {k a : ℕ}, chain[k]? = some a → a ≠ fresh := by
    rintro k a hk rfl
    exact hfresh (hC.allocated a (List.mem_of_getElem? hk))
  refine hI.update i ?_ ?_ trivial ?_ ?_ ?_ ?_
  · refine ⟨hC.nodup, fun a ha => Finset.mem_insert_of_mem (hC.allocated a ha), hC.head,
      hC.tail, hC.head_le_tail, hC.tail_lt, hC.last, fun k a hk hka => ?_, fun k a hk hka => ?_⟩
    · show Function.update s.mem.next fresh ⟨none, 0⟩ a = _
      rw [Function.update_of_ne (hne hka)]
      exact hC.next k a hk hka
    · show (Function.update s.mem.next fresh ⟨none, 0⟩ a).count ≠ 0
      rw [Function.update_of_ne (hne hka)]
      exact hC.retired k a hk hka
  · refine ⟨List.prefix_refl _, le_rfl, le_rfl, le_rfl, fun a ha => ?_⟩
    refine Function.update_of_ne ?_ _ _
    rintro rfl
    exact hfresh (hC.allocated a ha)
  · intro node v ho
    obtain ⟨rfl, rfl⟩ := Prod.mk.inj (Option.some.inj ho)
    refine ⟨⟨Finset.mem_insert_self _ _, fun hmem => hfresh (hC.allocated _ hmem),
      Function.update_self _ _ _, Function.update_self _ _ _⟩, fun j _ w hj => hfresh ?_⟩
    exact (hI.owned j _ w hj).allocated
  · intro j _ node v ho
    have hp := hI.owned j node v ho
    have hnf : node ≠ fresh := by
      rintro rfl
      exact hfresh hp.allocated
    refine ⟨Finset.mem_insert_of_mem hp.allocated, hp.not_linked, ?_, ?_⟩
    · exact (Function.update_of_ne hnf _ _).trans hp.data
    · exact (Function.update_of_ne hnf _ _).trans hp.next
  · rw [hpc]
    rfl
  · rw [hpc]
    exact le_rfl

/-- Writing the `next` field of a node outside the live part of the chain. -/
theorem Chain.store_next {m : Mem α} (hC : Chain m chain) {b : ℕ} {v : NodePtr}
    (hb : ∀ k, m.head_.count ≤ k → chain[k]? ≠ some b)
    (hv : b ∈ chain → v.count ≠ 0) :
    Chain { m with next := Function.update m.next b v } chain := by
  refine ⟨hC.nodup, hC.allocated, hC.head, hC.tail, hC.head_le_tail, hC.tail_lt, hC.last,
    fun k a hk hka => ?_, fun k a hk hka => ?_⟩
  · show Function.update m.next b v a = _
    have hne : a ≠ b := by
      rintro rfl
      exact hb k hk hka
    rw [Function.update_of_ne hne]
    exact hC.next k a hk hka
  · show (Function.update m.next b v a).count ≠ 0
    by_cases hab : a = b
    · subst hab
      rw [Function.update_self]
      exact hv (List.mem_of_getElem? hka)
    · rw [Function.update_of_ne hab]
      exact hC.retired k a hk hka

/-- `node->next.store({nullptr, 0})`: the node is still private. -/
theorem Inv.initialize (hI : Inv s chain) {i : ι} {value : α} {node : ℕ}
    (hpc : s.pc i = .pushInit value node) :
    Inv { mem := { s.mem with next := Function.update s.mem.next node ⟨none, 0⟩ }
          pc := Function.update s.pc i (.pushLoadTail value node), calls := s.calls } chain := by
  have hown : (s.pc i).owned = some (node, value) := by
    rw [hpc]
    rfl
  have hp := hI.owned i node value hown
  refine hI.update i (hI.shape.store_next ?_ fun hmem => absurd hmem hp.not_linked)
    ⟨List.prefix_refl _, le_rfl, le_rfl, le_rfl, fun _ _ => rfl⟩ trivial ?_ ?_ ?_ ?_
  · exact fun k _ hk => hp.ne_of_getElem? hk rfl
  · intro node' v ho
    obtain ⟨rfl, rfl⟩ := Prod.mk.inj (Option.some.inj ho)
    refine ⟨⟨hp.allocated, hp.not_linked, hp.data, Function.update_self _ _ _⟩,
      fun j hji w hj => hji ?_⟩
    exact hI.distinct j i _ w _ hj hown
  · intro j hji node' v ho
    have hp' := hI.owned j node' v ho
    have hne : node' ≠ node := by
      rintro rfl
      exact hji (hI.distinct j i _ v _ ho hown)
    exact ⟨hp'.allocated, hp'.not_linked, hp'.data,
      (Function.update_of_ne hne _ _).trans hp'.next⟩
  · rw [hpc]
    rfl
  · rw [hpc]
    exact le_rfl

/-- `tail_` moves to the successor of its node, in a push or in a pop. -/
theorem Inv.swing (hI : Inv s chain) {i : ι} {q p : Pc α} (hpc : s.pc i = q)
    {target : Option ℕ} (hlink : Linked chain s.mem.tail_.count target)
    (hcalls : s.calls < sizeT) (hok : ∀ m : Mem α, ThreadOk m chain p)
    (hown : p.owned = q.owned) (hrel : p.releasing = q.releasing)
    (hunl : p.unlinked = q.unlinked) :
    Inv { mem := { s.mem with tail_ := s.mem.tail_.advance target }
          pc := Function.update s.pc i p, calls := s.calls } chain := by
  subst hpc
  have hC := hI.shape
  have hlen := hI.length_le
  have hlt := hlink.1
  have hadv : s.mem.tail_.advance target = ⟨target, s.mem.tail_.count + 1⟩ := by
    rw [NodePtr.advance, addSizeT_of_lt (by omega)]
  rw [hadv]
  refine hI.update i ⟨hC.nodup, hC.allocated, hC.head, hlink.2, ?_, hlt, ?_, hC.next,
    hC.retired⟩ ⟨List.prefix_refl _, le_rfl, Nat.le_succ _, le_rfl, fun _ _ => rfl⟩ (hok _)
    ?_ ?_ ?_ ?_
  · exact hC.head_le_tail.trans (Nat.le_succ _)
  · exact hC.last.trans (Nat.le_succ _)
  · intro node value ho
    rw [hown] at ho
    have hp := hI.owned i node value ho
    refine ⟨⟨hp.allocated, hp.not_linked, hp.data, hp.next⟩, fun j hji w hj => hji ?_⟩
    exact hI.distinct j i node w value hj ho
  · intro j _ node value ho
    have hp := hI.owned j node value ho
    exact ⟨hp.allocated, hp.not_linked, hp.data, hp.next⟩
  · rw [hrel]
  · rw [hunl]

/-- **The exchange of `next` in `push`** appends the node to the chain.  The field was
`{nullptr, 0}`, so the node it belongs to is the last one and `tail_` points to it. -/
theorem Inv.link (hI : Inv s chain) {i : ι} {value : α} {node a : ℕ} {tail : NodePtr}
    (hpc : s.pc i = .pushLink value node tail ⟨none, 0⟩) (ha : tail.ptr = some a)
    (hnext : s.mem.next a = ⟨none, 0⟩) :
    Inv { mem := { s.mem with next := Function.update s.mem.next a ⟨some node, 1⟩ }
          pc := Function.update s.pc i (.pushSwing node tail), calls := s.calls }
        (chain ++ [node]) ∧
      elements { s.mem with next := Function.update s.mem.next a ⟨some node, 1⟩ }
        (chain ++ [node]) = elements s.mem chain ++ [value] := by
  have hC := hI.shape
  have hown : (s.pc i).owned = some (node, value) := by
    rw [hpc]
    rfl
  have hp := hI.owned i node value hown
  have hok := hI.threads i
  rw [hpc] at hok
  obtain ⟨⟨hptr, hcount⟩, -⟩ := hok
  have hpos : chain[tail.count]? = some a := hptr.symm.trans ha
  have hend : chain.length ≤ tail.count + 1 := hC.length_le_of_next hpos hnext
  have htail := hC.tail_lt
  have hhead := hC.head_le_tail
  have heq : tail.count = s.mem.tail_.count := by omega
  have hlen : chain.length = s.mem.tail_.count + 1 := by omega
  have hna : node ≠ a := hp.ne_of_getElem? hpos
  have hpre : chain <+: chain ++ [node] := List.prefix_append _ _
  have hhlt : s.mem.head_.count < chain.length := hI.head_lt_length
  constructor
  · refine hI.update i ⟨?_, ?_, ?_, ?_, hhead, ?_, ?_, ?_, ?_⟩
      ⟨hpre, le_rfl, le_rfl, le_rfl, fun _ _ => rfl⟩ ?_ ?_ ?_ ?_ ?_
    · refine List.nodup_append.mpr ⟨hC.nodup, List.nodup_singleton _, ?_⟩
      rintro b hb c hc rfl
      exact hp.not_linked (List.mem_singleton.mp hc ▸ hb)
    · intro b hb
      rcases List.mem_append.mp hb with hb | hb
      · exact hC.allocated b hb
      · rw [List.mem_singleton.mp hb]
        exact hp.allocated
    · rw [getElem?_of_isPrefix hpre hhlt]
      exact hC.head
    · rw [getElem?_of_isPrefix hpre htail]
      exact hC.tail
    · rw [List.length_append]
      exact Nat.lt_add_right 1 htail
    · rw [List.length_append, List.length_singleton]
      exact Nat.add_le_add_right hlen.le 1
    · intro k b hk hkb
      show Function.update s.mem.next a ⟨some node, 1⟩ b = _
      rcases Nat.lt_trichotomy k s.mem.tail_.count with hlt | rfl | hgt
      · -- an inner node keeps its successor
        rw [getElem?_of_isPrefix hpre (by omega)] at hkb
        have hba : b ≠ a := by
          rintro rfl
          have := hC.position_unique hkb hpos
          omega
        rw [Function.update_of_ne hba, hC.next k b hk hkb, link_of_lt (by omega),
          link_of_lt (by rw [List.length_append]; omega)]
        rw [List.getElem_append_left]
      · -- the old last node now points to the new one
        rw [getElem?_of_isPrefix hpre htail, ← heq, hpos] at hkb
        obtain rfl := Option.some.inj hkb
        rw [Function.update_self,
          link_of_lt (by rw [List.length_append, List.length_singleton]; omega)]
        simp [← hlen]
      · -- the new node is the last one
        have hkl : k = chain.length := by
          have := (List.getElem?_eq_some_iff.mp hkb).1
          rw [List.length_append, List.length_singleton] at this
          omega
        subst hkl
        rw [List.getElem?_concat_length] at hkb
        obtain rfl := Option.some.inj hkb
        rw [Function.update_of_ne hna, hp.next,
          link_of_le (by rw [List.length_append, List.length_singleton])]
    · intro k b hk hkb
      show (Function.update s.mem.next a ⟨some node, 1⟩ b).count ≠ 0
      have hk' : k < s.mem.head_.count := hk
      rw [getElem?_of_isPrefix hpre (by omega)] at hkb
      have hba : b ≠ a := by
        rintro rfl
        have := hC.position_unique hkb hpos
        omega
      rw [Function.update_of_ne hba]
      exact hC.retired k b hk hkb
    · refine ⟨⟨?_, hcount⟩, ?_, ?_⟩
      · rw [getElem?_of_isPrefix hpre (by omega)]
        exact hptr
      · rw [List.length_append, List.length_singleton]
        omega
      · rw [heq, ← hlen, List.getElem?_concat_length]
    · intro node' v ho
      exact absurd ho (by simp [Pc.owned])
    · intro j hji node' v ho
      have hp' := hI.owned j node' v ho
      have hne : node' ≠ node := by
        rintro rfl
        exact hji (hI.distinct j i _ v _ ho hown)
      refine ⟨hp'.allocated, ?_, hp'.data, ?_⟩
      · rw [List.mem_append, List.mem_singleton]
        rintro (h | h)
        · exact hp'.not_linked h
        · exact hne h
      · exact (Function.update_of_ne (hp'.ne_of_getElem? hpos) _ _).trans hp'.next
    · rw [hpc]
      rfl
    · rw [hpc, List.length_append, List.length_singleton]
      show chain.length + 1 + 0 + s.calls ≤ chain.length + 1 + s.calls
      omega
  · rw [elements, List.drop_append_of_le_length hhlt, List.map_append, List.map_singleton]
    rw [← hp.data]
    rfl

/-- **The exchange of `head_` in `pop`** makes the second node the dummy, and the
element read from it is the first of the list. -/
theorem Inv.unlink (hI : Inv s chain) {i : ι} {next : NodePtr} {result : α}
    (hpc : s.pc i = .popCas s.mem.head_ next result) (hcalls : s.calls < sizeT) :
    Inv { mem := { s.mem with head_ := s.mem.head_.advance next.ptr }
          pc := Function.update s.pc i (.releaseLoad s.mem.head_.ptr result)
          calls := s.calls } chain ∧
      elements s.mem chain = result ::
        elements { s.mem with head_ := s.mem.head_.advance next.ptr } chain := by
  have hC := hI.shape
  have hlen := hI.length_le
  have htail := hC.tail_lt
  have hok := hI.threads i
  rw [hpc] at hok
  obtain ⟨-, hle, hnext, hdata⟩ := hok
  have hlt : s.mem.head_.count + 1 < chain.length := by omega
  have hadv : s.mem.head_.advance next.ptr = ⟨next.ptr, s.mem.head_.count + 1⟩ := by
    rw [NodePtr.advance, addSizeT_of_lt (by omega)]
  rw [hadv]
  constructor
  · refine hI.update i ⟨hC.nodup, hC.allocated, hnext, hC.tail, hle, htail, hC.last, ?_, ?_⟩
      ⟨List.prefix_refl _, Nat.le_succ _, le_rfl, le_rfl, fun _ _ => rfl⟩ ?_ ?_ ?_ ?_ ?_
    · exact fun k a hk hka => hC.next k a ((Nat.le_succ _).trans hk) hka
    · intro k a hk hka
      rcases Nat.lt_succ_iff_lt_or_eq.mp hk with hk | rfl
      · exact hC.retired k a hk hka
      · show (s.mem.next a).count ≠ 0
        rw [hC.next _ a le_rfl hka, link_of_lt hlt]
        exact Nat.one_ne_zero
    · exact ⟨s.mem.head_.count, Nat.lt_succ_self _, hC.head⟩
    · intro node v ho
      exact absurd ho (by simp [Pc.owned])
    · intro j _ node v ho
      have hp := hI.owned j node v ho
      exact ⟨hp.allocated, hp.not_linked, hp.data, hp.next⟩
    · rw [hpc]
      show s.mem.free_.count + 1 + s.mem.head_.count =
        s.mem.free_.count + 0 + (s.mem.head_.count + 1)
      omega
    · rw [hpc]
      exact le_rfl
  · rw [hnext, List.getElem?_eq_getElem hlt, Option.map_some] at hdata
    rw [elements, List.drop_eq_getElem_cons hlt, List.map_cons, Option.some.inj hdata]
    rfl

/-- `node->next.store({free.ptr, free.count + 1})`: the node is before `head_`, and the
version it receives is not `0`. -/
theorem Inv.retire (hI : Inv s chain) {i : ι} {a : ℕ} {free : NodePtr} {result : α}
    (hpc : s.pc i = .releaseStore (some a) free result) (hcalls : s.calls < sizeT) :
    Inv { mem := { s.mem with next := Function.update s.mem.next a (free.advance free.ptr) }
          pc := Function.update s.pc i (.releaseCas (some a) free result)
          calls := s.calls } chain := by
  have hC := hI.shape
  have hlen := hI.length_le
  have hhead := hI.head_lt_length
  have hrel := hI.free_lt_head (i := i) (by rw [hpc]; rfl)
  have hok := hI.threads i
  rw [hpc] at hok
  obtain ⟨⟨k, hk, hka⟩, hfree⟩ := hok
  have hadv : (free.advance free.ptr).count = free.count + 1 := by
    rw [NodePtr.advance, addSizeT_of_lt (by omega)]
  refine hI.update i (hC.store_next ?_ fun _ => ?_)
    ⟨List.prefix_refl _, le_rfl, le_rfl, le_rfl, fun _ _ => rfl⟩ ⟨⟨k, hk, hka⟩, hfree⟩
    ?_ ?_ ?_ ?_
  · intro j hj hja
    have := hC.position_unique hja hka.symm
    omega
  · rw [hadv]
    exact Nat.succ_ne_zero _
  · intro node v ho
    exact absurd ho (by simp [Pc.owned])
  · intro j _ node v ho
    have hp := hI.owned j node v ho
    exact ⟨hp.allocated, hp.not_linked, hp.data,
      (Function.update_of_ne (hp.ne_of_getElem? hka.symm) _ _).trans hp.next⟩
  · rw [hpc]
    rfl
  · rw [hpc]
    exact le_rfl

/-- The exchange of `free_` in `release_node`. -/
theorem Inv.release (hI : Inv s chain) {i : ι} {node : Option ℕ} {result : α}
    (hpc : s.pc i = .releaseCas node s.mem.free_ result) (hcalls : s.calls < sizeT) :
    Inv { mem := { s.mem with free_ := s.mem.free_.advance node }
          pc := Function.update s.pc i (.popTrue result), calls := s.calls } chain := by
  have hC := hI.shape
  have hlen := hI.length_le
  have hhead := hI.head_lt_length
  have hrel := hI.free_lt_head (i := i) (by rw [hpc]; rfl)
  have hadv : s.mem.free_.advance node = ⟨node, s.mem.free_.count + 1⟩ := by
    rw [NodePtr.advance, addSizeT_of_lt (by omega)]
  rw [hadv]
  refine hI.update i ⟨hC.nodup, hC.allocated, hC.head, hC.tail, hC.head_le_tail, hC.tail_lt,
    hC.last, hC.next, hC.retired⟩
    ⟨List.prefix_refl _, le_rfl, le_rfl, Nat.le_succ _, fun _ _ => rfl⟩ trivial ?_ ?_ ?_ ?_
  · intro node v ho
    exact absurd ho (by simp [Pc.owned])
  · intro j _ node v ho
    have hp := hI.owned j node v ho
    exact ⟨hp.allocated, hp.not_linked, hp.data, hp.next⟩
  · rw [hpc]
    show s.mem.free_.count + 1 + 0 + s.mem.head_.count =
      s.mem.free_.count + 1 + s.mem.head_.count
    omega
  · rw [hpc]
    exact le_rfl

/-- **The step lemma.**  An access keeps the invariant, for a chain that it may have
extended, and the elements make the step of a FIFO that the program counters tell. -/
theorem Inv.access (hI : Inv s chain) (hcalls : s.calls < sizeT) {i : ι} {c : Choice}
    {r : Mem α × Pc α} (h : s.mem.access c (s.pc i) = some r) :
    ∃ chain', Inv { mem := r.1, pc := Function.update s.pc i r.2, calls := s.calls } chain' ∧
      FifoStep (elements s.mem chain) ((s.pc i).event r.2) (elements r.1 chain') := by
  have hC := hI.shape
  have hlen := hI.length_le
  have htail := hC.tail_lt
  have hle := hC.head_le_tail
  have hok := hI.threads i
  cases hpc : s.pc i with
  | idle => simp [Mem.access, hpc] at h
  | pushDone => simp [Mem.access, hpc] at h
  | popTrue result => simp [Mem.access, hpc] at h
  | popFalse => simp [Mem.access, hpc] at h
  | pushNew value =>
    simp only [Mem.access, hpc] at h
    split at h
    · exact absurd h (by simp)
    · next hfresh =>
      obtain rfl := Option.some.inj h
      refine ⟨chain, hI.new hpc hfresh, ?_⟩
      have hdata : ∀ a ∈ chain, Function.update s.mem.data c.fresh value a = s.mem.data a := by
        intro a ha
        refine Function.update_of_ne ?_ _ _
        rintro rfl
        exact hfresh (hC.allocated _ ha)
      rw [show elements { s.mem with
            allocated := insert c.fresh s.mem.allocated
            data := Function.update s.mem.data c.fresh value
            next := Function.update s.mem.next c.fresh ⟨none, 0⟩ } chain =
          elements s.mem chain from
        List.map_congr_left fun a ha => hdata a (List.mem_of_mem_drop ha)]
      exact .internal _
  | pushInit value node =>
    simp only [Mem.access, hpc, Option.some.injEq] at h
    subst h
    exact ⟨chain, hI.initialize hpc, .internal _⟩
  | pushLoadTail value node =>
    simp only [Mem.access, hpc, Option.some.injEq] at h
    subst h
    exact ⟨chain, hI.read hpc ⟨hC.tail, le_rfl⟩ rfl rfl rfl, .internal _⟩
  | pushLoadNext value node tail =>
    rw [hpc] at hok
    simp only [Mem.access, hpc, Option.map_eq_some_iff] at h
    obtain ⟨a, ha, rfl⟩ := h
    refine ⟨chain, hI.read hpc ⟨hok, fun heq => ?_⟩ rfl rfl rfl, .internal _⟩
    rw [hC.next tail.count a (heq ▸ hle) (hok.1.symm.trans ha)]
    exact link_cases chain tail.count
  | pushCheck value node tail next =>
    rw [hpc] at hok
    simp only [Mem.access, hpc] at h
    split at h
    · next htl =>
      have hnext := hok.2 (by rw [htl])
      split at h
      · next hnone =>
        obtain rfl := Option.some.inj h
        rcases hnext with hnext | hnext
        · exact ⟨chain, hI.read hpc ⟨hok.1, hnext⟩ rfl rfl rfl, .internal _⟩
        · exact absurd hnone hnext.ne_none
      · next hsome =>
        obtain rfl := Option.some.inj h
        rcases hnext with hnext | hnext
        · rw [hnext] at hsome
          exact absurd hsome (by simp)
        · exact ⟨chain, hI.read hpc ⟨hok.1, hnext⟩ rfl rfl rfl, .internal _⟩
    · obtain rfl := Option.some.inj h
      exact ⟨chain, hI.read hpc trivial rfl rfl rfl, .internal _⟩
  | pushLink value node tail next =>
    rw [hpc] at hok
    obtain ⟨hseen, rfl⟩ := hok
    simp only [Mem.access, hpc, Option.map_eq_some_iff] at h
    obtain ⟨a, ha, h⟩ := h
    split at h
    · next hcas =>
      obtain ⟨hinv, helems⟩ := hI.link hpc ha hcas.2
      have hadv : NodePtr.advance ⟨none, 0⟩ (some node) = ⟨some node, 1⟩ := by
        rw [NodePtr.advance, addSizeT_of_lt (by norm_num [sizeT])]
      rw [hadv] at h
      subst h
      refine ⟨chain ++ [node], hinv, ?_⟩
      rw [helems]
      exact .enqueue _ _
    · subst h
      exact ⟨chain, hI.read hpc trivial rfl rfl rfl, .internal _⟩
  | pushHelp value node tail next =>
    rw [hpc] at hok
    simp only [Mem.access, hpc] at h
    split at h
    · next hcas =>
      obtain rfl := Option.some.inj h
      obtain rfl := hcas.2
      exact ⟨chain, hI.swing hpc hok.2 hcalls (fun _ => trivial) rfl rfl rfl, .internal _⟩
    · obtain rfl := Option.some.inj h
      exact ⟨chain, hI.read hpc trivial rfl rfl rfl, .internal _⟩
  | pushSwing node tail =>
    rw [hpc] at hok
    simp only [Mem.access, hpc] at h
    split at h
    · next hcas =>
      obtain rfl := Option.some.inj h
      obtain rfl := hcas.2
      exact ⟨chain, hI.swing hpc hok.2 hcalls (fun _ => trivial) rfl rfl rfl, .internal _⟩
    · obtain rfl := Option.some.inj h
      exact ⟨chain, hI.read hpc trivial rfl rfl rfl, .internal _⟩
  | popLoadHead =>
    simp only [Mem.access, hpc, Option.some.injEq] at h
    subst h
    exact ⟨chain, hI.read hpc ⟨hC.head, le_rfl⟩ rfl rfl rfl, .internal _⟩
  | popLoadTail head =>
    rw [hpc] at hok
    simp only [Mem.access, hpc, Option.some.injEq] at h
    subst h
    exact ⟨chain, hI.read hpc ⟨hok, ⟨hC.tail, le_rfl⟩, hok.2.trans hle⟩ rfl rfl rfl,
      .internal _⟩
  | popLoadNext head tail =>
    rw [hpc] at hok
    obtain ⟨hseen, hseen', hcount⟩ := hok
    simp only [Mem.access, hpc, Option.map_eq_some_iff] at h
    obtain ⟨a, ha, rfl⟩ := h
    refine ⟨chain, hI.read hpc ⟨hseen, hseen', hcount, fun heq => ?_⟩ rfl rfl rfl,
      .internal _⟩
    rw [hC.next head.count a heq.ge (hseen.1.symm.trans ha)]
    rcases Nat.lt_or_ge (head.count + 1) chain.length with hlt | hge
    · exact Or.inr ⟨hlt, rfl⟩
    · -- `head` is the last node, so the tail that was read is not behind it
      have := hseen'.2
      exact Or.inl ⟨link_of_le hge, by omega⟩
  | popCheck head tail next =>
    rw [hpc] at hok
    obtain ⟨hseen, hseen', hcount, hnext⟩ := hok
    simp only [Mem.access, hpc] at h
    split at h
    · next hhd =>
      have hnext := hnext (by rw [hhd])
      split at h
      · next hht =>
        split at h
        · obtain rfl := Option.some.inj h
          exact ⟨chain, hI.read hpc trivial rfl rfl rfl, .internal _⟩
        · next hsome =>
          obtain rfl := Option.some.inj h
          rcases hnext with ⟨hnext, -⟩ | hnext
          · rw [hnext] at hsome
            exact absurd hsome (by simp)
          · rw [hht] at hnext
            exact ⟨chain, hI.read hpc ⟨hseen', hnext⟩ rfl rfl rfl, .internal _⟩
      · next hht =>
        obtain rfl := Option.some.inj h
        -- two different pairs have different positions
        have hne : head.count ≠ tail.count := by
          intro heq
          refine hht ?_
          cases head
          cases tail
          simp only at heq
          subst heq
          rw [NodePtr.mk.injEq]
          exact ⟨hseen.1.trans hseen'.1.symm, rfl⟩
        rcases hnext with ⟨-, hnext⟩ | hnext
        · exact absurd hnext.symm hne
        · have := hseen'.2
          exact ⟨chain, hI.read hpc ⟨hseen, by omega, hnext.2⟩ rfl rfl rfl,
            .internal _⟩
    · obtain rfl := Option.some.inj h
      exact ⟨chain, hI.read hpc trivial rfl rfl rfl, .internal _⟩
  | popHelp tail next =>
    rw [hpc] at hok
    simp only [Mem.access, hpc] at h
    split at h
    · next hcas =>
      obtain rfl := Option.some.inj h
      obtain rfl := hcas.2
      exact ⟨chain, hI.swing hpc hok.2 hcalls (fun _ => trivial) rfl rfl rfl, .internal _⟩
    · obtain rfl := Option.some.inj h
      exact ⟨chain, hI.read hpc trivial rfl rfl rfl, .internal _⟩
  | popRead head next =>
    rw [hpc] at hok
    obtain ⟨hseen, hcount, hnext⟩ := hok
    simp only [Mem.access, hpc, Option.map_eq_some_iff] at h
    obtain ⟨a, ha, rfl⟩ := h
    exact ⟨chain, hI.read hpc ⟨hseen, hcount, hnext, by rw [ha, Option.map_some]⟩ rfl rfl rfl,
      .internal _⟩
  | popCas head next result =>
    simp only [Mem.access, hpc] at h
    split at h
    · next hcas =>
      obtain rfl := Option.some.inj h
      obtain rfl := hcas.2
      obtain ⟨hinv, helems⟩ := hI.unlink hpc hcalls
      refine ⟨chain, hinv, ?_⟩
      rw [helems]
      exact .dequeue _ _
    · obtain rfl := Option.some.inj h
      exact ⟨chain, hI.read hpc trivial rfl rfl rfl, .internal _⟩
  | releaseLoad node result =>
    rw [hpc] at hok
    simp only [Mem.access, hpc, Option.some.injEq] at h
    subst h
    exact ⟨chain, hI.read hpc ⟨hok, le_rfl⟩ rfl rfl rfl, .internal _⟩
  | releaseStore node free result =>
    simp only [Mem.access, hpc, Option.map_eq_some_iff] at h
    obtain ⟨a, rfl, rfl⟩ := h
    exact ⟨chain, hI.retire hpc hcalls, .internal _⟩
  | releaseCas node free result =>
    rw [hpc] at hok
    simp only [Mem.access, hpc] at h
    split at h
    · next hcas =>
      obtain rfl := Option.some.inj h
      obtain rfl := hcas.2
      exact ⟨chain, hI.release hpc hcalls, .internal _⟩
    · obtain rfl := Option.some.inj h
      exact ⟨chain, hI.read hpc hok.1 rfl rfl rfl, .internal _⟩

end Steps

end LockFreeQueue
end ThreadUtils
