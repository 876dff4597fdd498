import ThreadUtils.DataStructures.LockFreeQueue.Model

/-!
# The chain of all nodes ever linked

A push always allocates, so a node is linked once.  Let `chain` be all nodes that
were ever linked, in order, starting with the first dummy.  Then the version number
of `head_`, and of `tail_`, is the position of its node in `chain`, and everything
the algorithm relies on can be said by positions:

* `next` of a node at or behind `head_` is its successor in `chain` with version `1`,
  and `{nullptr, 0}` for the last node (`Chain.next`);
* `next` of a node before `head_` was overwritten by `release_node` or still names the
  successor; its version is not `0` either way (`Chain.retired`).

Hence a node whose `next` is `{nullptr, 0}` is the last one, however old the pointer
is through which it was read.  That is why the exchange of `next` in `push` cannot
succeed on a node that was popped.

The positions fit in a `size_t` while fewer than `2 ^ 64` calls were made, because
every position belongs to a call of its own.
-/

namespace ThreadUtils
namespace LockFreeQueue

variable {ι : Type*} {α : Type*}

/-! ## The chain -/

/-- The `next` field of the node at the position `k`: its successor, or the end mark. -/
def link (chain : List ℕ) (k : ℕ) : NodePtr :=
  ⟨chain[k + 1]?, if k + 1 < chain.length then 1 else 0⟩

/-- The shape of the memory relative to the chain of all nodes ever linked. -/
structure Chain (m : Mem α) (chain : List ℕ) : Prop where
  nodup : chain.Nodup
  allocated : ∀ a ∈ chain, a ∈ m.allocated
  head : m.head_.ptr = chain[m.head_.count]?
  tail : m.tail_.ptr = chain[m.tail_.count]?
  head_le_tail : m.head_.count ≤ m.tail_.count
  tail_lt : m.tail_.count < chain.length
  /-- At most one node is linked behind the node of `tail_`. -/
  last : chain.length ≤ m.tail_.count + 2
  next : ∀ k a, m.head_.count ≤ k → chain[k]? = some a → m.next a = link chain k
  retired : ∀ k a, k < m.head_.count → chain[k]? = some a → (m.next a).count ≠ 0

/-- The elements of the queue, read off the chain. -/
def elements (m : Mem α) (chain : List ℕ) : List α :=
  (chain.drop (m.head_.count + 1)).map m.data

theorem link_of_lt {chain : List ℕ} {k : ℕ} (h : k + 1 < chain.length) :
    link chain k = ⟨some chain[k + 1], 1⟩ := by
  rw [link, if_pos h, List.getElem?_eq_getElem h]

theorem link_of_le {chain : List ℕ} {k : ℕ} (h : chain.length ≤ k + 1) :
    link chain k = ⟨none, 0⟩ := by
  rw [link, if_neg (by omega), List.getElem?_eq_none h]

namespace Chain

variable {m : Mem α} {chain : List ℕ}

/-- Only the last node has the end mark. -/
theorem length_le_of_next (hC : Chain m chain) {k a : ℕ} (hk : chain[k]? = some a)
    (hnext : m.next a = ⟨none, 0⟩) : chain.length ≤ k + 1 := by
  by_contra hlt
  rcases Nat.lt_or_ge k m.head_.count with h | h
  · exact hC.retired k a h hk (by rw [hnext])
  · rw [hC.next k a h hk, link_of_lt (by omega)] at hnext
    exact absurd (congrArg NodePtr.count hnext) (by simp)

/-- Following pointers from a node behind `head_` walks down the chain. -/
theorem follow_eq_drop (hC : Chain m chain) :
    ∀ (n k : ℕ), m.head_.count ≤ k → chain.length ≤ k + n →
      m.follow n chain[k]? = chain.drop k
  | 0, k, _, hn => by
    rw [Mem.follow, List.drop_eq_nil_of_le (by omega)]
  | n + 1, k, hk, hn => by
    rcases Nat.lt_or_ge k chain.length with hlt | hge
    · rw [List.getElem?_eq_getElem hlt, Mem.follow,
        hC.next k chain[k] hk (List.getElem?_eq_getElem hlt)]
      show chain[k] :: m.follow n chain[k + 1]? = _
      rw [hC.follow_eq_drop n (k + 1) (by omega) (by omega), List.drop_eq_getElem_cons hlt]
    · rw [List.getElem?_eq_none hge, Mem.follow, List.drop_eq_nil_of_le hge]

theorem length_le_card (hC : Chain m chain) : chain.length ≤ m.allocated.card := by
  rw [← List.toFinset_card_of_nodup hC.nodup]
  refine Finset.card_le_card fun a ha => hC.allocated a ?_
  exact List.mem_toFinset.mp ha

/-- The list read off the memory is the list read off the chain. -/
theorem contents_eq (hC : Chain m chain) : m.contents = elements m chain := by
  have hcard := hC.length_le_card
  rw [Mem.contents, hC.head, hC.follow_eq_drop _ _ le_rfl (by omega), elements, List.tail_drop]

end Chain

/-! ## What a thread knows -/

/-- The pair `p` was the value of a pointer whose position is now at most `bound`. -/
def Seen (chain : List ℕ) (bound : ℕ) (p : NodePtr) : Prop :=
  p.ptr = chain[p.count]? ∧ p.count ≤ bound

/-- The node at the position `k` has a successor, and `p` points to it. -/
def Linked (chain : List ℕ) (k : ℕ) (p : Option ℕ) : Prop :=
  k + 1 < chain.length ∧ p = chain[k + 1]?

/-- The node being released is before `head_`. -/
def Retired (m : Mem α) (chain : List ℕ) (node : Option ℕ) : Prop :=
  ∃ k, k < m.head_.count ∧ node = chain[k]?

/-- What a thread knows about the queue at its program counter.  A `next` field that
was read is trusted only while the pointer it was read through is still current. -/
def ThreadOk (m : Mem α) (chain : List ℕ) : Pc α → Prop
  | .pushLoadNext _ _ tail => Seen chain m.tail_.count tail
  | .pushCheck _ _ tail next => Seen chain m.tail_.count tail ∧
      (tail.count = m.tail_.count → next = ⟨none, 0⟩ ∨ Linked chain tail.count next.ptr)
  | .pushLink _ _ tail next => Seen chain m.tail_.count tail ∧ next = ⟨none, 0⟩
  | .pushHelp _ _ tail next => Seen chain m.tail_.count tail ∧ Linked chain tail.count next.ptr
  | .pushSwing node tail => Seen chain m.tail_.count tail ∧ Linked chain tail.count (some node)
  | .popLoadTail head => Seen chain m.head_.count head
  | .popLoadNext head tail => Seen chain m.head_.count head ∧ Seen chain m.tail_.count tail ∧
      head.count ≤ tail.count
  | .popCheck head tail next => Seen chain m.head_.count head ∧ Seen chain m.tail_.count tail ∧
      head.count ≤ tail.count ∧
      (head.count = m.head_.count →
        (next = ⟨none, 0⟩ ∧ tail.count = head.count) ∨ Linked chain head.count next.ptr)
  | .popHelp tail next => Seen chain m.tail_.count tail ∧ Linked chain tail.count next.ptr
  | .popRead head next => Seen chain m.head_.count head ∧ head.count + 1 ≤ m.tail_.count ∧
      next.ptr = chain[head.count + 1]?
  | .popCas head next result => Seen chain m.head_.count head ∧
      head.count + 1 ≤ m.tail_.count ∧ next.ptr = chain[head.count + 1]? ∧
      next.ptr.map m.data = some result
  | .releaseLoad node _ => Retired m chain node
  | .releaseStore node free _ => Retired m chain node ∧ free.count ≤ m.free_.count
  | .releaseCas node free _ => Retired m chain node ∧ free.count ≤ m.free_.count
  | _ => True

/-- The node a push has allocated and not linked, with the value it carries. -/
def Pc.owned : Pc α → Option (ℕ × α)
  | .pushInit value node | .pushLoadTail value node | .pushLoadNext value node _
  | .pushCheck value node _ _ | .pushLink value node _ _ | .pushHelp value node _ _ =>
      some (node, value)
  | _ => none

/-- A node that only its thread knows. -/
structure Private (m : Mem α) (chain : List ℕ) (node : ℕ) (value : α) : Prop where
  allocated : node ∈ m.allocated
  not_linked : node ∉ chain
  data : m.data node = value
  next : m.next node = ⟨none, 0⟩

/-- `1` for a push that has not linked its node. -/
def Pc.unlinked : Pc α → ℕ
  | .pushNew _ | .pushInit _ _ | .pushLoadTail _ _ | .pushLoadNext _ _ _
  | .pushCheck _ _ _ _ | .pushLink _ _ _ _ | .pushHelp _ _ _ _ => 1
  | _ => 0

/-- `1` for a pop that moved `head_` and has not put the old dummy on the free list. -/
def Pc.releasing : Pc α → ℕ
  | .releaseLoad _ _ | .releaseStore _ _ _ | .releaseCas _ _ _ => 1
  | _ => 0

/-- The invariant of the queue, for the chain of all nodes ever linked. -/
structure Inv [Fintype ι] (s : State ι α) (chain : List ℕ) : Prop where
  shape : Chain s.mem chain
  threads : ∀ i, ThreadOk s.mem chain (s.pc i)
  owned : ∀ i node value, (s.pc i).owned = some (node, value) →
    Private s.mem chain node value
  distinct : ∀ i j node v w, (s.pc i).owned = some (node, v) →
    (s.pc j).owned = some (node, w) → i = j
  /-- Every pop that moved `head_` releases one node. -/
  released : s.mem.free_.count + ∑ i, (s.pc i).releasing = s.mem.head_.count
  /-- Every node but the first dummy belongs to a call of its own. -/
  budget : chain.length + ∑ i, (s.pc i).unlinked ≤ s.calls + 1

theorem inv_init [Fintype ι] {s : State ι α} (h : IsInitial s) : ∃ chain, Inv s chain := by
  obtain ⟨dummy, halloc, hnext, hhead, htail, hfree, hpc, hcalls⟩ := h
  refine ⟨[dummy], ⟨?_, fun i => ?_, ?_, ?_, ?_, ?_⟩⟩
  · refine ⟨List.nodup_singleton _, ?_, ?_, ?_, ?_, ?_, ?_, ?_, ?_⟩
    · intro a ha
      rw [halloc, List.mem_singleton.mp ha]
      exact Finset.mem_singleton_self _
    · rw [hhead]
      rfl
    · rw [htail]
      rfl
    · rw [hhead, htail]
    · rw [htail]
      exact Nat.zero_lt_one
    · rw [htail]
      exact Nat.le_succ 1
    · intro k a _ hk
      obtain ⟨hlt, rfl⟩ := List.getElem?_eq_some_iff.mp hk
      have hk0 : k = 0 := by simpa using hlt
      subst hk0
      exact hnext
    · intro k a hk _
      rw [hhead] at hk
      exact absurd hk (Nat.not_lt_zero k)
  · rw [hpc]
    trivial
  · intro i node value ho
    rw [hpc] at ho
    exact absurd ho (by simp [Pc.owned])
  · intro i j node v w ho
    rw [hpc] at ho
    exact absurd ho (by simp [Pc.owned])
  · simp [hpc, hfree, hhead, Pc.releasing]
  · simp [hpc, Pc.unlinked]

/-! ## What survives a step of another thread -/

/-- How the memory and the chain change under any step: positions and the chain grow,
and the data of linked nodes stays. -/
structure Grows (m : Mem α) (chain : List ℕ) (m' : Mem α) (chain' : List ℕ) : Prop where
  isPrefix : chain <+: chain'
  head : m.head_.count ≤ m'.head_.count
  tail : m.tail_.count ≤ m'.tail_.count
  free : m.free_.count ≤ m'.free_.count
  data : ∀ a ∈ chain, m'.data a = m.data a

theorem Grows.refl (m : Mem α) (chain : List ℕ) : Grows m chain m chain :=
  ⟨List.prefix_refl _, le_rfl, le_rfl, le_rfl, fun _ _ => rfl⟩

/-- An entry of a list stays where it is in a longer list. -/
theorem getElem?_of_isPrefix {l l' : List ℕ} (h : l <+: l') {k : ℕ} (hk : k < l.length) :
    l'[k]? = l[k]? := by
  obtain ⟨t, rfl⟩ := h
  exact List.getElem?_append_left hk

theorem Seen.mono {chain chain' : List ℕ} {b b' : ℕ} {p : NodePtr} (h : Seen chain b p)
    (hp : chain <+: chain') (hb : b < chain.length) (hbb : b ≤ b') : Seen chain' b' p :=
  ⟨h.1.trans (getElem?_of_isPrefix hp (lt_of_le_of_lt h.2 hb)).symm, h.2.trans hbb⟩

theorem Linked.mono {chain chain' : List ℕ} {k : ℕ} {p : Option ℕ} (h : Linked chain k p)
    (hp : chain <+: chain') : Linked chain' k p :=
  ⟨lt_of_lt_of_le h.1 hp.length_le, h.2.trans (getElem?_of_isPrefix hp h.1).symm⟩

theorem Retired.mono {m m' : Mem α} {chain chain' : List ℕ} {node : Option ℕ}
    (h : Retired m chain node) (hC : Chain m chain) (hg : Grows m chain m' chain') :
    Retired m' chain' node := by
  obtain ⟨k, hk, hnode⟩ := h
  have hlt : k < chain.length := by
    have := hC.head_le_tail
    have := hC.tail_lt
    omega
  exact ⟨k, lt_of_lt_of_le hk hg.head, hnode.trans (getElem?_of_isPrefix hg.isPrefix hlt).symm⟩

/-- What a thread knows survives every step of another thread. -/
theorem ThreadOk.mono {m m' : Mem α} {chain chain' : List ℕ} {pc : Pc α}
    (hok : ThreadOk m chain pc) (hC : Chain m chain) (hg : Grows m chain m' chain') :
    ThreadOk m' chain' pc := by
  have htail := hC.tail_lt
  have hhead : m.head_.count < chain.length := lt_of_le_of_lt hC.head_le_tail htail
  cases pc with
  | pushLoadNext value node tail => exact Seen.mono hok hg.isPrefix htail hg.tail
  | pushCheck value node tail next =>
    obtain ⟨hseen, hnext⟩ := hok
    refine ⟨hseen.mono hg.isPrefix htail hg.tail, fun heq => ?_⟩
    have hle := hseen.2
    have hge := hg.tail
    rcases hnext (by omega) with h | h
    · exact Or.inl h
    · exact Or.inr (h.mono hg.isPrefix)
  | pushLink value node tail next => exact ⟨hok.1.mono hg.isPrefix htail hg.tail, hok.2⟩
  | pushHelp value node tail next =>
    exact ⟨hok.1.mono hg.isPrefix htail hg.tail, hok.2.mono hg.isPrefix⟩
  | pushSwing node tail =>
    exact ⟨hok.1.mono hg.isPrefix htail hg.tail, hok.2.mono hg.isPrefix⟩
  | popLoadTail head => exact Seen.mono hok hg.isPrefix hhead hg.head
  | popLoadNext head tail =>
    exact ⟨hok.1.mono hg.isPrefix hhead hg.head, hok.2.1.mono hg.isPrefix htail hg.tail,
      hok.2.2⟩
  | popCheck head tail next =>
    obtain ⟨hseen, hseen', hle, hnext⟩ := hok
    refine ⟨hseen.mono hg.isPrefix hhead hg.head, hseen'.mono hg.isPrefix htail hg.tail, hle,
      fun heq => ?_⟩
    have hle' := hseen.2
    have hge := hg.head
    rcases hnext (by omega) with h | h
    · exact Or.inl h
    · exact Or.inr (h.mono hg.isPrefix)
  | popHelp tail next =>
    exact ⟨hok.1.mono hg.isPrefix htail hg.tail, hok.2.mono hg.isPrefix⟩
  | popRead head next =>
    obtain ⟨hseen, hle, hnext⟩ := hok
    exact ⟨hseen.mono hg.isPrefix hhead hg.head, hle.trans hg.tail,
      hnext.trans (getElem?_of_isPrefix hg.isPrefix (by omega)).symm⟩
  | popCas head next result =>
    obtain ⟨hseen, hle, hnext, hdata⟩ := hok
    refine ⟨hseen.mono hg.isPrefix hhead hg.head, hle.trans hg.tail,
      hnext.trans (getElem?_of_isPrefix hg.isPrefix (by omega)).symm, ?_⟩
    have hlt : head.count + 1 < chain.length := by omega
    rw [hnext, List.getElem?_eq_getElem hlt, Option.map_some] at hdata ⊢
    rw [hg.data _ (List.getElem_mem hlt), hdata]
  | releaseLoad node result => exact Retired.mono hok hC hg
  | releaseStore node free result => exact ⟨hok.1.mono hC hg, hok.2.trans hg.free⟩
  | releaseCas node free result => exact ⟨hok.1.mono hC hg, hok.2.trans hg.free⟩
  | idle => trivial
  | pushNew value => trivial
  | pushInit value node => trivial
  | pushLoadTail value node => trivial
  | pushDone => trivial
  | popLoadHead => trivial
  | popTrue result => trivial
  | popFalse => trivial

/-- The invariant after a step of the thread `i`, from what the step does to the
memory, to the knowledge of `i` and to the private nodes. -/
theorem Inv.update [Fintype ι] [DecidableEq ι] {s : State ι α} {chain : List ℕ}
    (hI : Inv s chain) (i : ι) {m' : Mem α} {chain' : List ℕ} {p : Pc α} {c : ℕ}
    (hC : Chain m' chain') (hg : Grows s.mem chain m' chain') (hok : ThreadOk m' chain' p)
    (hown : ∀ node value, p.owned = some (node, value) → Private m' chain' node value ∧
      ∀ j ≠ i, ∀ w, (s.pc j).owned ≠ some (node, w))
    (hother : ∀ j ≠ i, ∀ node value, (s.pc j).owned = some (node, value) →
      Private m' chain' node value)
    (hrel : m'.free_.count + p.releasing + s.mem.head_.count =
      s.mem.free_.count + (s.pc i).releasing + m'.head_.count)
    (hbud : chain'.length + p.unlinked + s.calls ≤ chain.length + (s.pc i).unlinked + c) :
    Inv { mem := m', pc := Function.update s.pc i p, calls := c } chain' := by
  refine ⟨hC, fun j => ?_, fun j node value ho => ?_, fun j k node v w hj hk => ?_, ?_, ?_⟩
  · by_cases hji : j = i
    · subst hji
      simpa using hok
    · simp only [Function.update_of_ne hji]
      exact (hI.threads j).mono hI.shape hg
  · change (Function.update s.pc i p j).owned = some (node, value) at ho
    by_cases hji : j = i
    · subst hji
      rw [Function.update_self] at ho
      exact (hown node value ho).1
    · rw [Function.update_of_ne hji] at ho
      exact hother j hji node value ho
  · change (Function.update s.pc i p j).owned = some (node, v) at hj
    change (Function.update s.pc i p k).owned = some (node, w) at hk
    by_cases hji : j = i <;> by_cases hki : k = i
    · rw [hji, hki]
    · subst hji
      rw [Function.update_self] at hj
      rw [Function.update_of_ne hki] at hk
      exact absurd hk ((hown node v hj).2 k hki w)
    · subst hki
      rw [Function.update_self] at hk
      rw [Function.update_of_ne hji] at hj
      exact absurd hj ((hown node w hk).2 j hji v)
    · rw [Function.update_of_ne hji] at hj
      rw [Function.update_of_ne hki] at hk
      exact hI.distinct j k node v w hj hk
  · have hsum := sum_update_exchange Pc.releasing s.pc i p
    have hold := hI.released
    show m'.free_.count + ∑ j, (Function.update s.pc i p j).releasing = m'.head_.count
    omega
  · have hsum := sum_update_exchange Pc.unlinked s.pc i p
    have hold := hI.budget
    show chain'.length + ∑ j, (Function.update s.pc i p j).unlinked ≤ c + 1
    omega

end LockFreeQueue
end ThreadUtils
