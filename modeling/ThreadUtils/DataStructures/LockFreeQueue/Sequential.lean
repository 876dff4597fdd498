import ThreadUtils.DataStructures.LockFreeQueue.Invariant

/-!
# The list between two calls

When no call is in flight the nodes from `head_` on are a list, and `tail_` is at its last
node or at the one before: a push may fail to swing it.  The version numbers only have to
agree up to the wrap, so that `Line` holds however many calls were made, in contrast to
the positions of `Chain`.

`PushAt` and `PopAt` follow a call of a thread that nobody disturbs.  A pop fails exactly
when the list is empty.

## The return of an undisturbed call

All comparisons of such a call succeed, but it need not go straight to its return: when `tail_` is
one node behind, a push swings it first and begins again, and so does the pop of a single element.
`Pc.rank` counts this one round in, by way of `Mem.lag`, and so it bounds the accesses of a call
whose exchanges do not fail spuriously.  One access lowers it (`PushAt.access`, `PopAt.access`).

A spurious failure at the swing of `tail_` in a push is not repeated by the source.  It leaves the
list with the lag and the call returns all the same, which is why `Line` has to admit both places of
`tail_`.
-/

namespace ThreadUtils
namespace LockFreeQueue

variable {α : Type*}

/-- The memory between two calls: `chain` are the nodes from the dummy on, `tail_` is at the
position `k`, and the nodes after the dummy have the data `contents`. -/
structure Line (m : Mem α) (chain : List ℕ) (k : ℕ) (contents : List α) : Prop where
  nodup : chain.Nodup
  allocated : ∀ a ∈ chain, a ∈ m.allocated
  head : m.head_.ptr = chain[0]?
  head_lt : m.head_.count < sizeT
  tail : m.tail_ = ⟨chain[k]?, (m.head_.count + k) % sizeT⟩
  tail_lt : k < chain.length
  last : chain.length ≤ k + 2
  next : ∀ j a, chain[j]? = some a → m.next a = link chain j
  data : chain.tail.map m.data = contents

/-- Some nodes form the list. -/
def Lined (m : Mem α) (contents : List α) : Prop :=
  ∃ chain k, Line m chain k contents

/-- What an undisturbed push of `value` has done at its program counter. -/
def PushAt (m : Mem α) (contents : List α) (value : α) : Pc α → Prop
  | .pushNew v => v = value ∧ Lined m contents
  | .pushInit v node | .pushLoadTail v node => v = value ∧
      ∃ chain k, Line m chain k contents ∧ Private m chain node value
  | .pushLoadNext v node tail => v = value ∧
      ∃ chain k, Line m chain k contents ∧ Private m chain node value ∧ tail = m.tail_
  | .pushCheck v node tail next => v = value ∧
      ∃ chain k, Line m chain k contents ∧ Private m chain node value ∧ tail = m.tail_ ∧
        next = link chain k
  | .pushLink v node tail next => v = value ∧
      ∃ chain k, Line m chain k contents ∧ Private m chain node value ∧ tail = m.tail_ ∧
        next = ⟨none, 0⟩ ∧ chain.length = k + 1
  | .pushHelp v node tail next => v = value ∧
      ∃ chain k, Line m chain k contents ∧ Private m chain node value ∧ tail = m.tail_ ∧
        next.ptr = chain[k + 1]? ∧ k + 1 < chain.length
  | .pushSwing node tail => ∃ chain k, Line m chain k (contents ++ [value]) ∧ tail = m.tail_ ∧
      chain[k + 1]? = some node
  | .pushDone => Lined m (contents ++ [value])
  | _ => False

/-- What an undisturbed pop has done at its program counter. -/
def PopAt (m : Mem α) (contents : List α) : Pc α → Prop
  | .popLoadHead => Lined m contents
  | .popLoadTail head => Lined m contents ∧ head = m.head_
  | .popLoadNext head tail => Lined m contents ∧ head = m.head_ ∧ tail = m.tail_
  | .popCheck head tail next => ∃ chain k, Line m chain k contents ∧ head = m.head_ ∧
      tail = m.tail_ ∧ next = link chain 0
  | .popHelp tail next => ∃ chain, Line m chain 0 contents ∧ tail = m.tail_ ∧
      next.ptr = chain[1]? ∧ 1 < chain.length
  | .popRead head next => ∃ chain k, Line m chain (k + 1) contents ∧ head = m.head_ ∧
      next.ptr = chain[1]?
  | .popCas head next result => ∃ chain k, Line m chain (k + 1) contents ∧ head = m.head_ ∧
      next.ptr = chain[1]? ∧ contents.head? = some result
  | .releaseLoad node result => contents.head? = some result ∧
      ∃ chain k d, Line m chain k contents.tail ∧ node = some d ∧ d ∉ chain
  | .releaseStore node free result | .releaseCas node free result =>
      contents.head? = some result ∧
        ∃ chain k d, Line m chain k contents.tail ∧ node = some d ∧ d ∉ chain ∧ free = m.free_
  | .popTrue result => contents.head? = some result ∧ Lined m contents.tail
  | .popFalse => contents = [] ∧ Lined m contents
  | _ => False

/-- `1` when `tail_` is not at the last node. -/
def Mem.lag (m : Mem α) : ℕ :=
  if (m.tail_.ptr.bind fun a => (m.next a).ptr).isSome then 1 else 0

/-- A bound on the accesses that a call has to make when no exchange fails, its return
included.  A call that finds `tail_` behind begins again. -/
def Pc.rank (m : Mem α) : Pc α → ℕ
  | .idle => 0
  | .pushDone | .popTrue _ | .popFalse => 1
  | .pushSwing _ _ | .releaseCas _ _ _ => 2
  | .releaseStore _ _ _ => 3
  | .releaseLoad _ _ => 4
  | .popCas _ _ _ => 5
  | .popRead _ _ => 6
  | .pushLink _ _ _ _ | .pushHelp _ _ _ _ | .popHelp _ _ => 7 + 10 * m.lag
  | .pushCheck _ _ _ _ | .popCheck _ _ _ => 8 + 10 * m.lag
  | .pushLoadNext _ _ _ | .popLoadNext _ _ => 9 + 10 * m.lag
  | .pushLoadTail _ _ | .popLoadTail _ => 10 + 10 * m.lag
  | .pushInit _ _ | .popLoadHead => 11 + 10 * m.lag
  | .pushNew _ => 12 + 10 * m.lag

variable {m : Mem α} {chain : List ℕ} {k : ℕ} {contents : List α}

/-- A call that begins. -/
theorem rank_lt_of_entry {pc : Pc α} (hpc : (∃ value, pc = .pushNew value) ∨ pc = .popLoadHead)
    (m : Mem α) : pc.rank m < 41 := by
  have hlag : m.lag ≤ 1 := by
    unfold Mem.lag
    split
    · exact le_rfl
    · exact Nat.zero_le 1
  obtain ⟨value, rfl⟩ | rfl := hpc
  · dsimp only [Pc.rank]
    omega
  · dsimp only [Pc.rank]
    omega

theorem line_of_initial {ι : Type*} {s : State ι α} (hs : IsInitial s) : Lined s.mem [] := by
  obtain ⟨dummy, halloc, hnext, hhead, htail, -⟩ := hs
  refine ⟨[dummy], 0, List.nodup_singleton _, fun a ha => ?_, by rw [hhead]; rfl, ?_, ?_,
    Nat.zero_lt_one, Nat.le_succ 1, fun j a hj => ?_, rfl⟩
  · rw [halloc, List.mem_singleton.mp ha]
    exact Finset.mem_singleton_self _
  · rw [hhead, sizeT_eq]
    norm_num
  · rw [htail, hhead]
    rfl
  · obtain ⟨hlt, rfl⟩ := List.getElem?_eq_some_iff.mp hj
    obtain rfl : j = 0 := by simpa using hlt
    exact hnext

namespace Line

/-- The node of `tail_`. -/
theorem tail_ptr (hL : Line m chain k contents) :
    ∃ a, m.tail_.ptr = some a ∧ chain[k]? = some a := by
  have hk : chain[k]? = some (chain.get ⟨k, hL.tail_lt⟩) := List.getElem?_eq_getElem hL.tail_lt
  exact ⟨_, by rw [hL.tail, hk], hk⟩

/-- The dummy. -/
theorem head_ptr (hL : Line m chain k contents) :
    ∃ a, m.head_.ptr = some a ∧ chain[0]? = some a := by
  have hpos : 0 < chain.length := (Nat.zero_le k).trans_lt hL.tail_lt
  exact ⟨chain[0], by rw [hL.head, List.getElem?_eq_getElem hpos], List.getElem?_eq_getElem hpos⟩

theorem lag_eq (hL : Line m chain k contents) :
    m.lag = if k + 1 < chain.length then 1 else 0 := by
  obtain ⟨a, ha, hk⟩ := hL.tail_ptr
  rw [Mem.lag, ha, Option.bind_some, hL.next k a hk]
  by_cases hlt : k + 1 < chain.length
  · rw [link_of_lt hlt, if_pos hlt]
    rfl
  · rw [link_of_le (not_lt.mp hlt), if_neg hlt]
    rfl

/-- The list and the pointers to it are left alone. -/
theorem congr (hL : Line m chain k contents) {m' : Mem α} (hhead : m'.head_ = m.head_)
    (htail : m'.tail_ = m.tail_) (halloc : m.allocated ⊆ m'.allocated)
    (hnext : ∀ a ∈ chain, m'.next a = m.next a) (hdata : ∀ a ∈ chain, m'.data a = m.data a) :
    Line m' chain k contents := by
  refine ⟨hL.nodup, fun a ha => halloc (hL.allocated a ha), by rw [hhead, hL.head],
    by rw [hhead]; exact hL.head_lt, by rw [htail, hhead, hL.tail], hL.tail_lt, hL.last,
    fun j a hj => ?_, ?_⟩
  · rw [hnext a (List.mem_of_getElem? hj), hL.next j a hj]
  · rw [← hL.data]
    exact List.map_congr_left fun a ha => hdata a (List.mem_of_mem_tail ha)

/-- The contents determine the number of nodes. -/
theorem length_eq (hL : Line m chain k contents) : chain.length = contents.length + 1 := by
  have hpos : 0 < chain.length := (Nat.zero_le k).trans_lt hL.tail_lt
  rw [← hL.data, List.length_map, List.length_tail]
  omega

/-- The node of a push is linked behind the last one. -/
theorem append (hL : Line m chain k contents) (hlast : chain.length = k + 1) {a node : ℕ}
    {value : α} (ha : chain[k]? = some a) (hp : Private m chain node value) :
    Line { m with next := Function.update m.next a ⟨some node, 1⟩ } (chain ++ [node]) k
      (contents ++ [value]) := by
  have hne : a ≠ node := fun heq => hp.not_linked (heq ▸ List.mem_of_getElem? ha)
  have hpos : 0 < chain.length := by omega
  refine ⟨?_, fun b hb => ?_, ?_, hL.head_lt, ?_, ?_, ?_, fun j b hj => ?_, ?_⟩
  · exact List.nodup_append.mpr ⟨hL.nodup, List.nodup_singleton _, fun b hb c hc hbc =>
      hp.not_linked (by rwa [← List.mem_singleton.mp hc, ← hbc])⟩
  · rcases List.mem_append.mp hb with hb | hb
    · exact hL.allocated b hb
    · rw [List.mem_singleton.mp hb]
      exact hp.allocated
  · rw [List.getElem?_append_left hpos]
    exact hL.head
  · rw [List.getElem?_append_left hL.tail_lt]
    exact hL.tail
  · rw [List.length_append, List.length_singleton]
    omega
  · rw [List.length_append, List.length_singleton]
    omega
  · show Function.update m.next a ⟨some node, 1⟩ b = _
    rcases Nat.lt_trichotomy j k with hjk | rfl | hjk
    · rw [List.getElem?_append_left (by omega)] at hj
      have hba : b ≠ a := by
        rintro rfl
        have heq := (List.getElem?_inj (by omega) hL.nodup).mp (hj.trans ha.symm)
        omega
      rw [Function.update_of_ne hba, hL.next j b hj, link_of_lt (by omega),
        link_of_lt (by rw [List.length_append]; omega), List.getElem_append_left]
    · rw [List.getElem?_append_left (by omega), ha] at hj
      obtain rfl := Option.some.inj hj
      rw [Function.update_self,
        link_of_lt (by rw [List.length_append, List.length_singleton]; omega),
        List.getElem_concat_length hlast.symm]
    · have hjl := (List.getElem?_eq_some_iff.mp hj).1
      rw [List.length_append, List.length_singleton] at hjl
      obtain rfl : j = chain.length := by omega
      rw [List.getElem?_concat_length] at hj
      obtain rfl := Option.some.inj hj
      rw [Function.update_of_ne (Ne.symm hne), hp.next, link_of_le]
      rw [List.length_append, List.length_singleton]
  · rw [List.tail_append_of_ne_nil (List.length_pos_iff.mp hpos), List.map_append,
      List.map_singleton, hp.data]
    exact congrArg (· ++ [value]) hL.data

/-- `tail_` is swung to the last node. -/
theorem swing (hL : Line m chain k contents) (hlt : k + 1 < chain.length) :
    Line { m with tail_ := m.tail_.advance chain[k + 1]? } chain (k + 1) contents := by
  refine ⟨hL.nodup, hL.allocated, hL.head, hL.head_lt, ?_, hlt, by have := hL.last; omega, hL.next,
    hL.data⟩
  show NodePtr.advance m.tail_ _ = _
  rw [hL.tail, NodePtr.advance, addSizeT, Nat.mod_add_mod]
  rfl

/-- `head_` is moved to the second node. -/
theorem pop {d : ℕ} (hL : Line m (d :: chain) (k + 1) contents) :
    Line { m with head_ := m.head_.advance chain[0]? } chain k contents.tail := by
  have hlt : k + 1 < chain.length + 1 := hL.tail_lt
  have hlast : chain.length + 1 ≤ k + 1 + 2 := hL.last
  refine ⟨(List.nodup_cons.mp hL.nodup).2, fun a ha => hL.allocated a (List.mem_cons_of_mem d ha),
    rfl, Nat.mod_lt _ (by rw [sizeT_eq]; norm_num), ?_, by omega, by omega, fun j a hj => ?_, ?_⟩
  · show m.tail_ = ⟨_, (addSizeT m.head_.count 1 + k) % sizeT⟩
    rw [hL.tail, addSizeT, Nat.mod_add_mod, List.getElem?_cons_succ,
      show m.head_.count + (k + 1) = m.head_.count + 1 + k by omega]
  · show m.next a = _
    rw [hL.next (j + 1) a (by rwa [List.getElem?_cons_succ]), link, link, List.getElem?_cons_succ,
      List.length_cons]
    by_cases hj' : j + 1 < chain.length
    · rw [if_pos hj', if_pos (by omega)]
    · rw [if_neg hj', if_neg (by omega)]
  · show chain.tail.map m.data = _
    rw [← hL.data, List.tail_cons, List.map_tail]

end Line

/-! ## An undisturbed call -/

/-- A new node is private to the push that has allocated it. -/
theorem Line.alloc (hL : Line m chain k contents) {node : ℕ} (hnew : node ∉ m.allocated)
    (value : α) :
    Line { m with
        allocated := insert node m.allocated
        data := Function.update m.data node value
        next := Function.update m.next node ⟨none, 0⟩ } chain k contents ∧
      Private { m with
        allocated := insert node m.allocated
        data := Function.update m.data node value
        next := Function.update m.next node ⟨none, 0⟩ } chain node value := by
  have hne : ∀ a ∈ chain, a ≠ node := fun a ha heq => hnew (heq ▸ hL.allocated a ha)
  refine ⟨hL.congr rfl rfl (Finset.subset_insert _ _)
    (fun a ha => Function.update_of_ne (hne a ha) _ _)
    (fun a ha => Function.update_of_ne (hne a ha) _ _), Finset.mem_insert_self _ _,
    fun hmem => hne node hmem rfl, Function.update_self _ _ _, Function.update_self _ _ _⟩

/-- **A push of a single thread**, one access at a time. -/
theorem PushAt.access {value : α} {pc : Pc α} {c : Choice} {r : Mem α × Pc α}
    (hP : PushAt m contents value pc) (hr : m.access c pc = some r) :
    PushAt r.1 contents value r.2 ∧ (c.spurious = false → r.2.rank r.1 < pc.rank m) := by
  cases pc with
  | pushNew v =>
    obtain ⟨rfl, chain, k, hL⟩ := hP
    simp only [Mem.access] at hr
    split at hr
    · cases hr
    · next hnew =>
      obtain rfl := Option.some.inj hr
      obtain ⟨hL', hp⟩ := hL.alloc hnew v
      refine ⟨⟨rfl, chain, k, hL', hp⟩, fun _ => ?_⟩
      dsimp only [Pc.rank]
      rw [hL.lag_eq, hL'.lag_eq]
      omega
  | pushInit v node =>
    obtain ⟨rfl, chain, k, hL, hp⟩ := hP
    obtain rfl := Option.some.inj hr
    have hL' : Line { m with next := Function.update m.next node ⟨none, 0⟩ } chain k contents :=
      hL.congr rfl rfl subset_rfl
        (fun a ha => Function.update_of_ne (fun heq : a = node => hp.not_linked (heq ▸ ha)) _ _)
        fun _ _ => rfl
    refine ⟨⟨rfl, chain, k, hL', hp.allocated, hp.not_linked, hp.data, Function.update_self _ _ _⟩,
      fun _ => ?_⟩
    dsimp only [Pc.rank]
    rw [hL.lag_eq, hL'.lag_eq]
    omega
  | pushLoadTail v node =>
    obtain ⟨rfl, chain, k, hL, hp⟩ := hP
    obtain rfl := Option.some.inj hr
    refine ⟨⟨rfl, chain, k, hL, hp, rfl⟩, fun _ => ?_⟩
    dsimp only [Pc.rank]
    omega
  | pushLoadNext v node tail =>
    obtain ⟨rfl, chain, k, hL, hp, rfl⟩ := hP
    obtain ⟨a, ha, hk⟩ := hL.tail_ptr
    rw [Mem.access, ha] at hr
    obtain rfl := Option.some.inj hr
    refine ⟨⟨rfl, chain, k, hL, hp, rfl, hL.next k a hk⟩, fun _ => ?_⟩
    dsimp only [Pc.rank]
    omega
  | pushCheck v node tail next =>
    obtain ⟨rfl, chain, k, hL, hp, rfl, rfl⟩ := hP
    rw [Mem.access, if_pos rfl] at hr
    by_cases hlt : k + 1 < chain.length
    · rw [link_of_lt hlt] at hr
      obtain rfl := Option.some.inj hr
      refine ⟨⟨rfl, chain, k, hL, hp, rfl, (List.getElem?_eq_getElem hlt).symm, hlt⟩, fun _ => ?_⟩
      dsimp only [Pc.rank]
      omega
    · rw [link_of_le (not_lt.mp hlt)] at hr
      obtain rfl := Option.some.inj hr
      have hlt' := hL.tail_lt
      refine ⟨⟨rfl, chain, k, hL, hp, rfl, rfl, by omega⟩, fun _ => ?_⟩
      dsimp only [Pc.rank]
      omega
  | pushLink v node tail next =>
    obtain ⟨rfl, chain, k, hL, hp, rfl, rfl, hlast⟩ := hP
    obtain ⟨a, ha, hk⟩ := hL.tail_ptr
    have hnext : m.next a = ⟨none, 0⟩ := (hL.next k a hk).trans (link_of_le hlast.le)
    simp only [Mem.access, ha, Option.map_some, hnext, and_true] at hr
    cases hc : c.spurious with
    | false =>
      rw [hc, if_pos (by rfl)] at hr
      obtain rfl := Option.some.inj hr
      have hone : NodePtr.advance ⟨none, 0⟩ (some node) = ⟨some node, 1⟩ := by
        rw [NodePtr.advance, addSizeT_of_lt (by rw [sizeT_eq]; norm_num)]
      rw [hone]
      refine ⟨⟨chain ++ [node], k, hL.append hlast hk hp, rfl, ?_⟩, fun _ => ?_⟩
      · rw [← hlast, List.getElem?_concat_length]
      · dsimp only [Pc.rank]
        omega
    | true =>
      rw [hc, if_neg (by simp)] at hr
      obtain rfl := Option.some.inj hr
      exact ⟨⟨rfl, chain, k, hL, hp⟩, fun hfalse => absurd hfalse (by simp)⟩
  | pushHelp v node tail next =>
    obtain ⟨rfl, chain, k, hL, hp, rfl, hnext, hlt⟩ := hP
    simp only [Mem.access, and_true] at hr
    cases hc : c.spurious with
    | false =>
      rw [hc, if_pos (by rfl), hnext] at hr
      obtain rfl := Option.some.inj hr
      have hL' := hL.swing hlt
      refine ⟨⟨rfl, chain, k + 1, hL', hp.allocated, hp.not_linked, hp.data, hp.next⟩, fun _ => ?_⟩
      have hlast := hL.last
      dsimp only [Pc.rank]
      rw [hL.lag_eq, hL'.lag_eq, if_pos hlt, if_neg (by omega)]
      omega
    | true =>
      rw [hc, if_neg (by simp)] at hr
      obtain rfl := Option.some.inj hr
      exact ⟨⟨rfl, chain, k, hL, hp⟩, fun hfalse => absurd hfalse (by simp)⟩
  | pushSwing node tail =>
    obtain ⟨chain, k, hL, rfl, hnode⟩ := hP
    simp only [Mem.access, and_true] at hr
    cases hc : c.spurious with
    | false =>
      rw [hc, if_pos (by rfl), ← hnode] at hr
      obtain rfl := Option.some.inj hr
      exact ⟨⟨chain, k + 1, hL.swing (List.getElem?_eq_some_iff.mp hnode).1⟩,
        fun _ => Nat.lt_succ_self 1⟩
    | true =>
      rw [hc, if_neg (by simp)] at hr
      obtain rfl := Option.some.inj hr
      exact ⟨⟨chain, k, hL⟩, fun _ => Nat.lt_succ_self 1⟩
  | pushDone => cases hr
  | _ => exact hP.elim

/-- **A pop of a single thread**, one access at a time. -/
theorem PopAt.access {pc : Pc α} {c : Choice} {r : Mem α × Pc α} (hP : PopAt m contents pc)
    (hr : m.access c pc = some r) :
    PopAt r.1 contents r.2 ∧ (c.spurious = false → r.2.rank r.1 < pc.rank m) := by
  cases pc with
  | popLoadHead =>
    obtain rfl := Option.some.inj hr
    exact ⟨⟨hP, rfl⟩, fun _ => by dsimp only [Pc.rank]; omega⟩
  | popLoadTail head =>
    obtain ⟨hP, rfl⟩ := hP
    obtain rfl := Option.some.inj hr
    exact ⟨⟨hP, rfl, rfl⟩, fun _ => by dsimp only [Pc.rank]; omega⟩
  | popLoadNext head tail =>
    obtain ⟨⟨chain, k, hL⟩, rfl, rfl⟩ := hP
    obtain ⟨a, ha, hk⟩ := hL.head_ptr
    rw [Mem.access, ha] at hr
    obtain rfl := Option.some.inj hr
    exact ⟨⟨chain, k, hL, rfl, rfl, hL.next 0 a hk⟩, fun _ => by dsimp only [Pc.rank]; omega⟩
  | popCheck head tail next =>
    obtain ⟨chain, k, hL, rfl, rfl, rfl⟩ := hP
    have hlt := hL.tail_lt
    have hlast := hL.last
    rw [Mem.access, if_pos rfl] at hr
    by_cases hk : k = 0
    · subst hk
      -- `tail_` is at the dummy
      have heq : m.head_ = m.tail_ := by
        obtain ⟨a, ha, h0⟩ := hL.head_ptr
        rw [hL.tail, h0, ← ha, Nat.add_zero, Nat.mod_eq_of_lt hL.head_lt]
      rw [if_pos heq] at hr
      by_cases hone : 1 < chain.length
      · rw [link_of_lt hone] at hr
        obtain rfl := Option.some.inj hr
        refine ⟨⟨chain, hL, rfl, (List.getElem?_eq_getElem hone).symm, hone⟩, fun _ => ?_⟩
        dsimp only [Pc.rank]
        omega
      · rw [link_of_le (by omega)] at hr
        obtain rfl := Option.some.inj hr
        refine ⟨⟨List.length_eq_zero_iff.mp (by have := hL.length_eq; omega), chain, 0, hL⟩,
          fun _ => ?_⟩
        dsimp only [Pc.rank]
        omega
    · -- the nodes of `head_` and `tail_` differ
      have hne : m.head_ ≠ m.tail_ := by
        intro heq
        have hptr := congrArg NodePtr.ptr heq
        rw [hL.head, hL.tail] at hptr
        exact hk ((List.getElem?_inj (by omega) hL.nodup).mp hptr).symm
      obtain ⟨j, rfl⟩ := Nat.exists_eq_succ_of_ne_zero hk
      rw [if_neg hne] at hr
      obtain rfl := Option.some.inj hr
      exact ⟨⟨chain, j, hL, rfl, rfl⟩, fun _ => by dsimp only [Pc.rank]; omega⟩
  | popHelp tail next =>
    obtain ⟨chain, hL, rfl, hnext, hlt⟩ := hP
    simp only [Mem.access, and_true] at hr
    cases hc : c.spurious with
    | false =>
      rw [hc, if_pos (by rfl), hnext] at hr
      obtain rfl := Option.some.inj hr
      have hL' := hL.swing hlt
      refine ⟨⟨chain, 1, hL'⟩, fun _ => ?_⟩
      have hlast := hL.last
      dsimp only [Pc.rank]
      rw [hL.lag_eq, hL'.lag_eq, if_pos hlt, if_neg (by omega)]
      omega
    | true =>
      rw [hc, if_neg (by simp)] at hr
      obtain rfl := Option.some.inj hr
      exact ⟨⟨chain, 0, hL⟩, fun hfalse => absurd hfalse (by simp)⟩
  | popRead head next =>
    obtain ⟨chain, k, hL, rfl, hnext⟩ := hP
    have hone : 1 < chain.length := by
      have := hL.tail_lt
      omega
    rw [Mem.access, hnext, List.getElem?_eq_getElem hone] at hr
    obtain rfl := Option.some.inj hr
    refine ⟨⟨chain, k, hL, rfl, hnext, ?_⟩, fun _ => Nat.lt_succ_self 5⟩
    rw [← hL.data, List.head?_map, List.head?_tail, List.getElem?_eq_getElem hone]
    rfl
  | popCas head next result =>
    obtain ⟨chain, k, hL, rfl, hnext, hfirst⟩ := hP
    simp only [Mem.access, and_true] at hr
    cases hc : c.spurious with
    | false =>
      rw [hc, if_pos (by rfl), hnext] at hr
      obtain rfl := Option.some.inj hr
      obtain ⟨d, hd, h0⟩ := hL.head_ptr
      obtain ⟨rest, rfl⟩ := List.head?_eq_some_iff.mp ((List.head?_eq_getElem?).trans h0)
      refine ⟨⟨hfirst, rest, k, d, hL.pop, hd, (List.nodup_cons.mp hL.nodup).1⟩,
        fun _ => Nat.lt_succ_self 4⟩
    | true =>
      rw [hc, if_neg (by simp)] at hr
      obtain rfl := Option.some.inj hr
      exact ⟨⟨chain, k + 1, hL⟩, fun hfalse => absurd hfalse (by simp)⟩
  | releaseLoad node result =>
    obtain ⟨hfirst, chain, k, d, hL, hd, hmem⟩ := hP
    obtain rfl := Option.some.inj hr
    exact ⟨⟨hfirst, chain, k, d, hL, hd, hmem, rfl⟩, fun _ => Nat.lt_succ_self 3⟩
  | releaseStore node free result =>
    obtain ⟨hfirst, chain, k, d, hL, rfl, hmem, rfl⟩ := hP
    obtain rfl := Option.some.inj hr
    refine ⟨⟨hfirst, chain, k, d, ?_, rfl, hmem, rfl⟩, fun _ => Nat.lt_succ_self 2⟩
    exact hL.congr rfl rfl subset_rfl
      (fun a ha => Function.update_of_ne (fun heq : a = d => hmem (heq ▸ ha)) _ _) fun _ _ => rfl
  | releaseCas node free result =>
    obtain ⟨hfirst, chain, k, d, hL, hd, hmem, rfl⟩ := hP
    simp only [Mem.access, and_true] at hr
    cases hc : c.spurious with
    | false =>
      rw [hc, if_pos (by rfl)] at hr
      obtain rfl := Option.some.inj hr
      exact ⟨⟨hfirst, chain, k, hL.congr rfl rfl subset_rfl (fun _ _ => rfl) fun _ _ => rfl⟩,
        fun _ => Nat.lt_succ_self 1⟩
    | true =>
      rw [hc, if_neg (by simp)] at hr
      obtain rfl := Option.some.inj hr
      exact ⟨⟨hfirst, chain, k, d, hL, hd, hmem⟩, fun hfalse => absurd hfalse (by simp)⟩
  | popTrue | popFalse => cases hr
  | _ => exact hP.elim

/-- A push that has not come to its return makes an access. -/
theorem PushAt.access_isSome {value : α} {pc : Pc α} (hP : PushAt m contents value pc) {c : Choice}
    (hfresh : c.fresh ∉ m.allocated) (hpc : 1 < pc.rank m) : (m.access c pc).isSome := by
  cases pc with
  | pushNew v => simp [Mem.access, hfresh]
  | pushLoadNext v node tail =>
    obtain ⟨-, chain, k, hL, -, rfl⟩ := hP
    obtain ⟨a, ha, -⟩ := hL.tail_ptr
    simp [Mem.access, ha]
  | pushCheck v node tail next =>
    obtain ⟨-, chain, k, hL, -, rfl, rfl⟩ := hP
    rw [Mem.access, if_pos rfl]
    split <;> rfl
  | pushLink v node tail next =>
    obtain ⟨-, chain, k, hL, -, rfl, -⟩ := hP
    obtain ⟨a, ha, -⟩ := hL.tail_ptr
    simp [Mem.access, ha]
  | pushInit | pushLoadTail => rfl
  | pushHelp | pushSwing =>
    rw [Mem.access]
    split <;> rfl
  | pushDone => exact absurd hpc (lt_irrefl 1)
  | _ => exact hP.elim

/-- A pop that has not come to its return makes an access. -/
theorem PopAt.access_isSome {pc : Pc α} (hP : PopAt m contents pc) (c : Choice)
    (hpc : 1 < pc.rank m) : (m.access c pc).isSome := by
  cases pc with
  | popLoadHead | popLoadTail | releaseLoad => rfl
  | popLoadNext head tail =>
    obtain ⟨⟨chain, k, hL⟩, rfl, -⟩ := hP
    obtain ⟨a, ha, -⟩ := hL.head_ptr
    simp [Mem.access, ha]
  | popCheck head tail next =>
    obtain ⟨chain, k, hL, rfl, -⟩ := hP
    rw [Mem.access, if_pos rfl]
    split
    · split <;> rfl
    · rfl
  | popRead head next =>
    obtain ⟨chain, k, hL, -, hnext⟩ := hP
    have hone : 1 < chain.length := by
      have := hL.tail_lt
      omega
    simp [Mem.access, hnext, List.getElem?_eq_getElem hone]
  | releaseStore node free result =>
    obtain ⟨-, chain, k, d, -, rfl, -⟩ := hP
    rfl
  | popHelp | popCas | releaseCas =>
    rw [Mem.access]
    split <;> rfl
  | popTrue | popFalse => exact absurd hpc (lt_irrefl 1)
  | _ => exact hP.elim

/-! ## The steps of a call -/

section Steps

variable {ι : Type*} [DecidableEq ι] {s t : State ι α} {i : ι}

theorem eq_of_push {value : α} (h : step s (.push i value) = some t) :
    t = { s with pc := Function.update s.pc i (.pushNew value), calls := s.calls + 1 } := by
  rw [step] at h
  split at h
  · exact (Option.some.inj h).symm
  · cases h

theorem eq_of_pop (h : step s (.pop i) = some t) :
    t = { s with pc := Function.update s.pc i .popLoadHead, calls := s.calls + 1 } := by
  rw [step] at h
  split at h
  · exact (Option.some.inj h).symm
  · cases h

theorem eq_of_access {c : Choice} (h : step s (.access i c) = some t) :
    ∃ r, s.mem.access c (s.pc i) = some r ∧
      t = { mem := r.1, pc := Function.update s.pc i r.2, calls := s.calls } := by
  obtain ⟨r, hr, rfl⟩ := Option.map_eq_some_iff.mp h
  exact ⟨r, hr, rfl⟩

theorem eq_of_ret (h : step s (.ret i) = some t) :
    (s.pc i = .pushDone ∨ (∃ result, s.pc i = .popTrue result) ∨ s.pc i = .popFalse) ∧
      t = { s with pc := Function.update s.pc i .idle } := by
  rw [step] at h
  split at h
  · next hpc => exact ⟨Or.inl hpc, (Option.some.inj h).symm⟩
  · next result hpc => exact ⟨Or.inr (Or.inl ⟨result, hpc⟩), (Option.some.inj h).symm⟩
  · next hpc => exact ⟨Or.inr (Or.inr hpc), (Option.some.inj h).symm⟩
  · cases h

end Steps

end LockFreeQueue
end ThreadUtils
