import ThreadUtils.DataStructures.LockFreeQueue.Refinement
import ThreadUtils.Transition.LinkedList

/-!
# Who owns a node of the lock-free queue

A node is allocated by a push, linked into the queue, left behind by a pop and put on the list of
free nodes by `release_node`.  One field, `next`, links it in the queue and later in the free list,
and threads with old pointers read that field all along.  What makes this safe is that every node
has one owner: the queue, the pool of free nodes, or one call in flight (`Owner`).

## The invariant

`Owners` says that the owners are a function of the address, so a node cannot have two, and that
the nodes of the queue and of the pool are the two lists met from `head_` and from `free_`.  Four
accesses hand a node over, one each: `new` gives it to the push, the exchange of `next` gives it to
the queue, the exchange of `head_` gives the old dummy to the pop, and the exchange of `free_` gives
it to the pool.  Every other access keeps the owners, so `Owners.update` asks of a step only for the
one node whose owner it changes and for the `next` fields it stores.

## Where a store of `next` can go

A store to a node in the middle of a list would cut the list.  There are three stores.  A push
initializes the `next` of its own node, and a pop writes the `next` of the node it releases, which
is its own as well.  The third is the exchange that links a node, and it asks for `{nullptr, 0}`.
That only the last node of the queue has this field is what `Chain` says, so `Owners` takes it from
there (`Owners.last_of_next`) and does not prove it again.

A thread that is about to exchange `free_` has stored the pointer it saw into its node
(`Pc.Pooled`).  The exchange compares that pointer with `free_`, so the list behind the node is
the free list whatever happened in between; the version number is not needed for this.

## The result

`partitioned` says that the two lists and the calls in flight partition the allocated nodes, and
that `tail_` is where the version numbers say.  The destructor walks the two lists from `head_` and
from `free_` and deletes each node that it meets.  Since the lists are apart and have no node twice,
it deletes every one of them once, and what is left is what the calls in flight own.
-/

namespace ThreadUtils
namespace LockFreeQueue

open TransitionSystem

variable {ι : Type*} {α : Type*}

/-! ## The destructor -/

/-- One loop of the destructor: it reads `next`, deletes the node and goes on.  Deleting a node
that is not allocated has no result. -/
def Mem.deleteFrom : ℕ → Option ℕ → Mem α → Option (Mem α)
  | _, none, m => some m
  | 0, some _, _ => none
  | n + 1, some a, m =>
      if a ∈ m.allocated then
        deleteFrom n (m.next a).ptr { m with allocated := m.allocated.erase a }
      else none

/-- `~TU_LockFreeQueue()`: the loops from `head_` and from `free_`.  Each round deletes a node, so
there are no more rounds than nodes. -/
def Mem.destroy (m : Mem α) : Option (Mem α) :=
  (m.deleteFrom m.allocated.card m.head_.ptr).bind fun m' =>
    m'.deleteFrom m.allocated.card m.free_.ptr

/-! ## The owner of a node -/

/-- The node behind a node. -/
def Mem.successor (m : Mem α) (a : ℕ) : Option ℕ := (m.next a).ptr

/-- The nodes met from `head_`. -/
def Mem.live (m : Mem α) : List ℕ := ThreadUtils.follow m.successor m.allocated.card m.head_.ptr

/-- The nodes met from `free_`. -/
def Mem.pool (m : Mem α) : List ℕ := ThreadUtils.follow m.successor m.allocated.card m.free_.ptr

/-- What a node can belong to. -/
inductive Owner (ι : Type*) where
  | queue
  | pool
  | call (i : ι)

/-- The node a call in flight has for itself: a push one it has not linked, a pop one it has taken
out of the queue and not put on the free list. -/
def Pc.node : Pc α → Option ℕ
  | .pushInit _ node | .pushLoadTail _ node | .pushLoadNext _ node _ | .pushCheck _ node _ _
  | .pushLink _ node _ _ | .pushHelp _ node _ _ => some node
  | .releaseLoad node _ | .releaseStore node _ _ | .releaseCas node _ _ => node
  | _ => none

/-- The node `a` belongs to the owner. -/
def State.Owns (s : State ι α) (a : ℕ) : Owner ι → Prop
  | .queue => a ∈ s.mem.live
  | .pool => a ∈ s.mem.pool
  | .call i => (s.pc i).node = some a

/-- The node that is about to be put on the free list points to the free list that was seen. -/
def Pc.Pooled (m : Mem α) : Pc α → Prop
  | .releaseCas node free _ => ∀ a ∈ node, m.successor a = free.ptr
  | _ => True

/-- The invariant: every node has one owner, and the nodes of the queue and of the pool are the
lists `live` and `free`. -/
structure Owners (s : State ι α) (owner : ℕ → Option (Owner ι)) (live free : List ℕ) : Prop where
  live_links : LinksTo s.mem.successor s.mem.head_.ptr live
  live_nodup : live.Nodup
  free_links : LinksTo s.mem.successor s.mem.free_.ptr free
  free_nodup : free.Nodup
  live_iff : ∀ a, a ∈ live ↔ owner a = some .queue
  free_iff : ∀ a, a ∈ free ↔ owner a = some .pool
  call_iff : ∀ i a, (s.pc i).node = some a ↔ owner a = some (.call i)
  allocated_iff : ∀ a, a ∈ s.mem.allocated ↔ (owner a).isSome
  pooled : ∀ i, (s.pc i).Pooled s.mem

namespace Owners

variable {s : State ι α} {owner : ℕ → Option (Owner ι)} {live free : List ℕ}

theorem allocated_of_owner (h : Owners s owner live free) {a : ℕ} {o : Owner ι}
    (ho : owner a = some o) : a ∈ s.mem.allocated := by
  rw [h.allocated_iff, ho]
  rfl

theorem allocated_of_mem_live (h : Owners s owner live free) : ∀ a ∈ live, a ∈ s.mem.allocated :=
  fun a ha => h.allocated_of_owner ((h.live_iff a).mp ha)

theorem allocated_of_mem_free (h : Owners s owner live free) : ∀ a ∈ free, a ∈ s.mem.allocated :=
  fun a ha => h.allocated_of_owner ((h.free_iff a).mp ha)

theorem live_eq (h : Owners s owner live free) : s.mem.live = live :=
  h.live_links.follow_card_eq h.live_nodup h.allocated_of_mem_live

theorem pool_eq (h : Owners s owner live free) : s.mem.pool = free :=
  h.free_links.follow_card_eq h.free_nodup h.allocated_of_mem_free

/-- The function `owner` is what the state says. -/
theorem owns_iff (h : Owners s owner live free) (a : ℕ) (o : Owner ι) :
    s.Owns a o ↔ owner a = some o := by
  cases o with
  | queue =>
    rw [State.Owns, h.live_eq]
    exact h.live_iff a
  | pool =>
    rw [State.Owns, h.pool_eq]
    exact h.free_iff a
  | call i => exact h.call_iff i a

end Owners

/-- A constructed queue: the dummy belongs to the queue. -/
theorem owners_init {s : State ι α} (h : IsInitial s) :
    ∃ owner live free, Owners s owner live free := by
  classical
  obtain ⟨dummy, halloc, hnext, hhead, -, hfree, hpc, -⟩ := h
  refine ⟨Function.update (fun _ => none) dummy (some .queue), [dummy], [], ?_⟩
  have howner : ∀ a (o : Owner ι), Function.update (fun _ => none) dummy (some Owner.queue) a =
      some o ↔ a = dummy ∧ o = .queue := by
    intro a o
    by_cases ha : a = dummy
    · subst ha
      rw [Function.update_self, Option.some.injEq, eq_comm]
      exact (and_iff_right rfl).symm
    · rw [Function.update_of_ne ha]
      exact ⟨(fun h => nomatch h), fun h => absurd h.1 ha⟩
  constructor
  case live_links =>
    rw [hhead]
    refine .cons ?_
    rw [Mem.successor, hnext]
    exact .nil
  case free_links =>
    rw [hfree]
    exact .nil
  case live_nodup => exact List.nodup_singleton dummy
  case free_nodup => exact List.nodup_nil
  case live_iff =>
    intro a
    rw [howner, List.mem_singleton]
    exact (and_iff_left rfl).symm
  case free_iff =>
    intro a
    rw [howner]
    exact ⟨fun h => absurd h List.not_mem_nil, fun h => nomatch h.2⟩
  case call_iff =>
    intro i a
    rw [howner, hpc]
    exact ⟨(fun h => nomatch h), fun h => nomatch h.2⟩
  case allocated_iff =>
    intro a
    rw [halloc, Finset.mem_singleton, Option.isSome_iff_exists]
    simp only [howner]
    exact ⟨fun h => ⟨.queue, h, rfl⟩, fun ⟨_, h, _⟩ => h⟩
  case pooled =>
    intro i
    rw [hpc]
    trivial

/-! ## The steps -/

/-- Handing one node over to the owner `o`. -/
theorem update_eq_some_iff {owner : ℕ → Option (Owner ι)} {a b : ℕ} {o x : Owner ι} :
    Function.update owner a (some o) b = some x ↔ b = a ∧ o = x ∨ b ≠ a ∧ owner b = some x := by
  by_cases h : b = a
  · subst h
    rw [Function.update_self, Option.some.injEq]
    exact ⟨fun hx => .inl ⟨rfl, hx⟩, fun hx => hx.elim And.right fun hne => absurd rfl hne.1⟩
  · rw [Function.update_of_ne h]
    exact ⟨fun hx => .inr ⟨h, hx⟩, fun hx => hx.elim (fun heq => absurd heq.1 h) And.right⟩

/-- Handing the node of a call over to the queue or the pool, or the other way round, leaves the
nodes of the third and of the other calls alone. -/
theorem update_iff_of_ne {owner : ℕ → Option (Owner ι)} {a b : ℕ} {o y x : Owner ι}
    (ho : owner a = some o) (hx : x ≠ o) (hx' : x ≠ y) :
    Function.update owner a (some y) b = some x ↔ owner b = some x := by
  rw [update_eq_some_iff]
  constructor
  · rintro (⟨-, heq⟩ | ⟨-, hb⟩)
    · exact absurd heq.symm hx'
    · exact hb
  · intro hb
    refine .inr ⟨?_, hb⟩
    rintro rfl
    exact hx (Option.some.inj (hb.symm.trans ho))

/-- The nodes of the owner that gives one away. -/
theorem update_iff_of_giver {owner : ℕ → Option (Owner ι)} {a b : ℕ} {o y : Owner ι}
    (hne : y ≠ o) :
    Function.update owner a (some y) b = some o ↔ b ≠ a ∧ owner b = some o := by
  rw [update_eq_some_iff]
  exact or_iff_right fun heq => hne heq.2

/-- The nodes of the owner that receives one. -/
theorem update_iff_of_receiver {owner : ℕ → Option (Owner ι)} {a b : ℕ} {y : Owner ι} :
    Function.update owner a (some y) b = some y ↔ b = a ∨ owner b = some y := by
  rw [update_eq_some_iff]
  by_cases hb : b = a
  · exact ⟨fun _ => .inl hb, fun _ => .inl ⟨hb, rfl⟩⟩
  · exact ⟨fun hx => .inr (hx.elim (fun heq => absurd heq.1 hb) And.right),
      fun hx => .inr ⟨hb, hx.resolve_left hb⟩⟩

namespace Owners

variable {s : State ι α} {owner : ℕ → Option (Owner ι)} {live free : List ℕ}

/-- A node that changes hands stays allocated. -/
theorem allocated_iff_update (h : Owners s owner live free) {a : ℕ} {o y : Owner ι}
    (ho : owner a = some o) (b : ℕ) :
    b ∈ s.mem.allocated ↔ (Function.update owner a (some y) b).isSome := by
  by_cases hb : b = a
  · subst hb
    rw [Function.update_self]
    exact ⟨fun _ => rfl, fun _ => h.allocated_of_owner ho⟩
  · rw [Function.update_of_ne hb]
    exact h.allocated_iff b

/-- A call that has handed its only node over has none. -/
theorem call_iff_update (h : Owners s owner live free) {i : ι} {a : ℕ} {y : Owner ι}
    (ho : owner a = some (.call i)) (hne : y ≠ .call i) (b : ℕ) :
    (none : Option ℕ) = some b ↔ Function.update owner a (some y) b = some (.call i) := by
  rw [update_iff_of_giver hne]
  refine ⟨(fun hb => nomatch hb), fun ⟨hb, hcall⟩ => absurd ?_ hb⟩
  rw [← h.call_iff] at ho hcall
  exact Option.some.inj (hcall.symm.trans ho)

variable [DecidableEq ι]

/-- A step of the thread `i`, from what it does to the two lists and to its own node.  The nodes of
the other calls stay theirs and are not stored to. -/
theorem update (h : Owners s owner live free) (i : ι) {m : Mem α} {pc : Pc α} {calls : ℕ}
    {owner' : ℕ → Option (Owner ι)} {live' free' : List ℕ}
    (hlive : LinksTo m.successor m.head_.ptr live') (hlive_nodup : live'.Nodup)
    (hfree : LinksTo m.successor m.free_.ptr free') (hfree_nodup : free'.Nodup)
    (hlive_iff : ∀ a, a ∈ live' ↔ owner' a = some .queue)
    (hfree_iff : ∀ a, a ∈ free' ↔ owner' a = some .pool)
    (hnode : ∀ a, pc.node = some a ↔ owner' a = some (.call i))
    (hothers : ∀ j, j ≠ i → ∀ a, owner' a = some (.call j) ↔ owner a = some (.call j))
    (hallocated : ∀ a, a ∈ m.allocated ↔ (owner' a).isSome)
    (hnext : ∀ j, j ≠ i → ∀ a, owner a = some (.call j) → m.next a = s.mem.next a)
    (hpooled : pc.Pooled m) :
    Owners ⟨m, Function.update s.pc i pc, calls⟩ owner' live' free' := by
  constructor
  case live_links => exact hlive
  case live_nodup => exact hlive_nodup
  case free_links => exact hfree
  case free_nodup => exact hfree_nodup
  case live_iff => exact hlive_iff
  case free_iff => exact hfree_iff
  case allocated_iff => exact hallocated
  case call_iff =>
    intro j a
    show (Function.update s.pc i pc j).node = some a ↔ _
    by_cases hj : j = i
    · rw [hj, Function.update_self]
      exact hnode a
    · rw [Function.update_of_ne hj, hothers j hj a]
      exact h.call_iff j a
  case pooled =>
    intro j
    show (Function.update s.pc i pc j).Pooled m
    by_cases hj : j = i
    · rw [hj, Function.update_self]
      exact hpooled
    · rw [Function.update_of_ne hj]
      have hold := h.pooled j
      cases hpc : s.pc j with
      | releaseCas node seen result =>
        rw [hpc] at hold
        intro a ha
        -- the node is that of the other call, so this step does not store to it
        have howner : owner a = some (.call j) := by
          rw [← h.call_iff, hpc]
          exact ha
        rw [Mem.successor, hnext j hj a howner]
        exact hold a ha
      | _ => trivial

/-- A step that changes no owner and stores at most to the node of its own thread. -/
theorem keep (h : Owners s owner live free) {i : ι} {m : Mem α} {pc : Pc α} {calls : ℕ}
    (hhead : m.head_ = s.mem.head_) (hfree : m.free_ = s.mem.free_)
    (hallocated : m.allocated = s.mem.allocated) (hnode : pc.node = (s.pc i).node)
    (hnext : ∀ a, (s.pc i).node ≠ some a → m.next a = s.mem.next a) (hpooled : pc.Pooled m) :
    Owners ⟨m, Function.update s.pc i pc, calls⟩ owner live free := by
  have hframe : ∀ a o, owner a = some o → o ≠ .call i → m.next a = s.mem.next a := by
    intro a o ho hne
    refine hnext a fun hmine => hne ?_
    rw [h.call_iff, ho] at hmine
    exact Option.some.inj hmine
  refine h.update i ?_ h.live_nodup ?_ h.free_nodup h.live_iff h.free_iff ?_
    (fun _ _ _ => Iff.rfl) ?_ ?_ hpooled
  · rw [hhead]
    refine h.live_links.congr fun a ha => ?_
    rw [Mem.successor, hframe a .queue ((h.live_iff a).mp ha) nofun, Mem.successor]
  · rw [hfree]
    refine h.free_links.congr fun a ha => ?_
    rw [Mem.successor, hframe a .pool ((h.free_iff a).mp ha) nofun, Mem.successor]
  · intro a
    rw [hnode]
    exact h.call_iff i a
  · rw [hallocated]
    exact h.allocated_iff
  · intro j hj a ho
    refine hframe a _ ho fun heq => hj ?_
    exact Owner.call.inj heq

/-- An access that leaves the lists and the `next` fields as they are. -/
theorem read (h : Owners s owner live free) {i : ι} {m : Mem α} {q pc : Pc α} {calls : ℕ}
    (hpc : s.pc i = q) (hhead : m.head_ = s.mem.head_) (hfree : m.free_ = s.mem.free_)
    (hallocated : m.allocated = s.mem.allocated) (hnext : m.next = s.mem.next)
    (hnode : pc.node = q.node) (hpooled : pc.Pooled m) :
    Owners ⟨m, Function.update s.pc i pc, calls⟩ owner live free :=
  h.keep hhead hfree hallocated (by rw [hpc, hnode]) (fun a _ => by rw [hnext]) hpooled

/-- `new TU_LockFreeQueueNode<T>()`: the node belongs to the push. -/
theorem new (h : Owners s owner live free) {i : ι} {value : α} {fresh : ℕ}
    (hpc : s.pc i = .pushNew value) (hfresh : fresh ∉ s.mem.allocated) :
    Owners
      ⟨{ s.mem with
          allocated := insert fresh s.mem.allocated
          data := Function.update s.mem.data fresh value
          next := Function.update s.mem.next fresh ⟨none, 0⟩ },
        Function.update s.pc i (.pushInit value fresh), s.calls⟩
      (Function.update owner fresh (some (.call i))) live free := by
  have hnone : owner fresh = none := by
    rw [h.allocated_iff, Option.not_isSome_iff_eq_none] at hfresh
    exact hfresh
  have hne : ∀ {a o}, owner a = some o → a ≠ fresh := by
    rintro a o ho rfl
    rw [hnone] at ho
    cases ho
  have hsuccessor : ∀ {a o}, owner a = some o →
      Function.update s.mem.next fresh ⟨none, 0⟩ a = s.mem.next a :=
    fun ho => Function.update_of_ne (hne ho) _ _
  -- an owner other than this call has the nodes it had
  have hkeep : ∀ {a o}, o ≠ .call i →
      (Function.update owner fresh (some (.call i)) a = some o ↔ owner a = some o) := by
    intro a o ho
    rw [update_eq_some_iff]
    exact ⟨fun hx => hx.elim (fun heq => absurd heq.2.symm ho) And.right,
      fun hx => .inr ⟨hne hx, hx⟩⟩
  refine h.update i ?_ h.live_nodup ?_ h.free_nodup ?_ ?_ ?_ ?_ ?_ ?_ trivial
  · refine h.live_links.congr fun a ha => ?_
    exact congrArg NodePtr.ptr (hsuccessor ((h.live_iff a).mp ha))
  · refine h.free_links.congr fun a ha => ?_
    exact congrArg NodePtr.ptr (hsuccessor ((h.free_iff a).mp ha))
  · intro a
    rw [hkeep (o := .queue) nofun]
    exact h.live_iff a
  · intro a
    rw [hkeep (o := .pool) nofun]
    exact h.free_iff a
  · intro a
    rw [update_eq_some_iff, ← h.call_iff, hpc]
    show some fresh = some a ↔ _
    rw [Option.some.injEq]
    exact ⟨fun heq => .inl ⟨heq.symm, rfl⟩, fun hx => hx.elim (fun heq => heq.1.symm) nofun⟩
  · exact fun j hj a => hkeep fun heq => hj (Owner.call.inj heq)
  · intro a
    show a ∈ insert fresh s.mem.allocated ↔ _
    rw [Finset.mem_insert]
    by_cases ha : a = fresh
    · rw [ha, Function.update_self]
      exact ⟨fun _ => rfl, fun _ => .inl rfl⟩
    · rw [Function.update_of_ne ha, ← h.allocated_iff]
      exact or_iff_right ha
  · exact fun j _ a ho => hsuccessor ho

/-- The exchange of `next` in `push` hands the node over to the queue. -/
theorem link (h : Owners s owner live free) {i : ι} {value : α} {node a : ℕ} {tail : NodePtr}
    {before : List ℕ} {v : NodePtr} (hpc : s.pc i = .pushLink value node tail ⟨none, 0⟩)
    (hlive : live = before ++ [a]) (hend : s.mem.successor node = none) (hv : v.ptr = some node) :
    Owners
      ⟨{ s.mem with next := Function.update s.mem.next a v },
        Function.update s.pc i (.pushSwing node tail), s.calls⟩
      (Function.update owner node (some .queue)) (before ++ [a, node]) free := by
  subst hlive
  have hnode : owner node = some (.call i) := by
    rw [← h.call_iff, hpc]
    rfl
  have ha : owner a = some .queue :=
    (h.live_iff a).mp (List.mem_append_right _ (List.mem_singleton_self a))
  have hnew : node ∉ before ++ [a] := by
    intro hmem
    rw [h.live_iff, hnode] at hmem
    cases hmem
  have hsuccessor : Mem.successor { s.mem with next := Function.update s.mem.next a v } =
      Function.update s.mem.successor a (some node) := by
    funext b
    show (Function.update s.mem.next a v b).ptr = _
    by_cases hb : b = a
    · rw [hb, Function.update_self, Function.update_self, hv]
    · rw [Function.update_of_ne hb, Function.update_of_ne hb, Mem.successor]
  -- only the last node of the queue is stored to
  have hframe : ∀ b o, owner b = some o → o ≠ .queue → b ≠ a := by
    rintro b o ho hne rfl
    exact hne (Option.some.inj (ho.symm.trans ha))
  refine h.update i ?_ ?_ ?_ h.free_nodup ?_ ?_ ?_ ?_ ?_ ?_ trivial
  · rw [hsuccessor]
    exact h.live_links.concat h.live_nodup hnew hend
  · rw [List.append_cons, ← List.concat_eq_append]
    exact List.Nodup.concat hnew h.live_nodup
  · rw [hsuccessor]
    refine h.free_links.congr fun b hb => ?_
    exact Function.update_of_ne (hframe b .pool ((h.free_iff b).mp hb) nofun) _ _
  · intro b
    rw [update_iff_of_receiver, ← h.live_iff, List.append_cons, List.mem_append,
      List.mem_singleton, or_comm]
  · intro b
    rw [update_iff_of_ne (x := .pool) (y := .queue) hnode nofun nofun]
    exact h.free_iff b
  · exact h.call_iff_update hnode nofun
  · exact fun j hj b => update_iff_of_ne hnode (fun heq => hj (Owner.call.inj heq)) nofun
  · exact h.allocated_iff_update hnode
  · intro j _ b ho
    exact Function.update_of_ne (hframe b _ ho nofun) _ _

/-- The exchange of `head_` in `pop` hands the old dummy over to the pop. -/
theorem unlink (h : Owners s owner live free) {i : ι} {a : ℕ} {head : NodePtr} {result : α}
    (hnode : (s.pc i).node = none) (ha : s.mem.head_.ptr = some a)
    (hhead : head.ptr = s.mem.successor a) :
    Owners
      ⟨{ s.mem with head_ := head }, Function.update s.pc i (.releaseLoad (some a) result),
        s.calls⟩
      (Function.update owner a (some (.call i))) live.tail free := by
  have hlinks := h.live_links
  rw [ha] at hlinks
  obtain ⟨rest, rfl, hrest⟩ := hlinks.behind
  have howner : owner a = some .queue := (h.live_iff a).mp List.mem_cons_self
  obtain ⟨hnotin, hnodup⟩ := List.nodup_cons.mp h.live_nodup
  refine h.update i ?_ hnodup h.free_links h.free_nodup ?_ ?_ ?_ ?_ ?_ (fun _ _ _ _ => rfl)
    trivial
  · show LinksTo s.mem.successor head.ptr rest
    rw [hhead]
    exact hrest
  · intro b
    rw [update_iff_of_giver (o := .queue) (y := .call i) nofun, ← h.live_iff, List.mem_cons,
      List.tail_cons]
    constructor
    · intro hb
      refine ⟨?_, .inr hb⟩
      rintro rfl
      exact hnotin hb
    · exact fun hb => hb.2.resolve_left hb.1
  · intro b
    rw [update_iff_of_ne (x := .pool) (y := .call i) howner nofun nofun]
    exact h.free_iff b
  · intro b
    rw [update_iff_of_receiver, ← h.call_iff, hnode]
    show some a = some b ↔ _
    rw [Option.some.injEq]
    exact ⟨fun heq => .inl heq.symm, fun hb => hb.elim Eq.symm nofun⟩
  · exact fun j hj b => update_iff_of_ne howner nofun fun heq => hj (Owner.call.inj heq)
  · exact h.allocated_iff_update howner

/-- The exchange of `free_` in `release_node` hands the node over to the pool. -/
theorem release (h : Owners s owner live free) {i : ι} {a : ℕ} {free' seen : NodePtr} {result : α}
    (hpc : s.pc i = .releaseCas (some a) seen result) (hseen : s.mem.free_ = seen)
    (hptr : free'.ptr = some a) :
    Owners
      ⟨{ s.mem with free_ := free' }, Function.update s.pc i (.popTrue result), s.calls⟩
      (Function.update owner a (some .pool)) live (a :: free) := by
  have hnode : owner a = some (.call i) := by
    rw [← h.call_iff, hpc]
    rfl
  have hlink : s.mem.successor a = s.mem.free_.ptr := by
    have hpooled := h.pooled i
    rw [hpc] at hpooled
    rw [hseen]
    exact hpooled a rfl
  have hnew : a ∉ free := by
    intro hmem
    rw [h.free_iff, hnode] at hmem
    cases hmem
  refine h.update i h.live_links h.live_nodup ?_ (List.nodup_cons.mpr ⟨hnew, h.free_nodup⟩) ?_ ?_
    ?_ ?_ ?_ (fun _ _ _ _ => rfl) trivial
  · show LinksTo s.mem.successor free'.ptr (a :: free)
    rw [hptr]
    refine .cons ?_
    rw [hlink]
    exact h.free_links
  · intro b
    rw [update_iff_of_ne (x := .queue) (y := .pool) hnode nofun nofun]
    exact h.live_iff b
  · intro b
    rw [update_iff_of_receiver, ← h.free_iff, List.mem_cons]
  · exact h.call_iff_update hnode nofun
  · exact fun j hj b => update_iff_of_ne hnode (fun heq => hj (Owner.call.inj heq)) nofun
  · exact h.allocated_iff_update hnode

end Owners

/-! ## What the chain says about the two lists -/

section Chain

variable {m : Mem α} {chain : List ℕ}

/-- The nodes met from a node behind `head_` are the rest of the chain. -/
theorem Chain.linksTo (hC : Chain m chain) :
    ∀ (n k : ℕ), m.head_.count ≤ k → chain.length ≤ k + n →
      LinksTo m.successor chain[k]? (chain.drop k)
  | 0, k, _, hn => by
    have hle : chain.length ≤ k := hn
    rw [List.getElem?_eq_none hle, List.drop_eq_nil_of_le hle]
    exact .nil
  | n + 1, k, hk, hn => by
    rcases Nat.lt_or_ge k chain.length with hlt | hge
    · rw [List.getElem?_eq_getElem hlt, List.drop_eq_getElem_cons hlt]
      refine .cons ?_
      rw [Mem.successor, hC.next k chain[k] hk (List.getElem?_eq_getElem hlt)]
      exact hC.linksTo n (k + 1) (by omega) (by omega)
    · rw [List.getElem?_eq_none hge, List.drop_eq_nil_of_le hge]
      exact .nil

variable {s : State ι α} {owner : ℕ → Option (Owner ι)} {live free : List ℕ}

/-- The nodes of the queue are the chain without the nodes that were popped. -/
theorem Owners.live_eq_drop (h : Owners s owner live free) (hC : Chain s.mem chain) :
    live = chain.drop s.mem.head_.count := by
  refine h.live_links.unique ?_
  rw [hC.head]
  exact hC.linksTo chain.length _ le_rfl (Nat.le_add_left _ _)

/-- The node that a push finds without a successor is the last one of the queue. -/
theorem Owners.last_of_next (h : Owners s owner live free) (hC : Chain s.mem chain)
    {tail : NodePtr} {a : ℕ} (hseen : Seen chain s.mem.tail_.count tail) (ha : tail.ptr = some a)
    (hnext : s.mem.next a = ⟨none, 0⟩) : ∃ before, live = before ++ [a] := by
  have hpos : chain[tail.count]? = some a := hseen.1.symm.trans ha
  have hend := hC.length_le_of_next hpos hnext
  have htail := hC.tail_lt
  have hhead := hC.head_le_tail
  have hlast := (List.getElem?_eq_some_iff.mp hpos).1
  refine ⟨(chain.drop s.mem.head_.count).take (tail.count - s.mem.head_.count), ?_⟩
  have hdrop : (chain.drop s.mem.head_.count).drop (tail.count - s.mem.head_.count) = [a] := by
    rw [List.drop_drop, Nat.add_sub_cancel' (by omega), List.drop_eq_getElem_cons hlast,
      List.drop_eq_nil_of_le hend, (List.getElem?_eq_some_iff.mp hpos).2]
  rw [h.live_eq_drop hC, ← hdrop, List.take_append_drop]

end Chain

/-- A node that is being released is some node. -/
theorem Retired.exists_eq {m : Mem α} {chain : List ℕ} {node : Option ℕ} (hC : Chain m chain)
    (h : Retired m chain node) : ∃ a, node = some a := by
  obtain ⟨k, hk, rfl⟩ := h
  have hlt : k < chain.length := hk.trans (hC.head_le_tail.trans_lt hC.tail_lt)
  exact ⟨_, List.getElem?_eq_getElem hlt⟩

section Runs

variable [Fintype ι] [DecidableEq ι] {s s' : State ι α} {chain : List ℕ}
  {owner : ℕ → Option (Owner ι)} {live free : List ℕ}

/-- **The step lemma.**  An access hands over at most one node. -/
theorem Owners.access (h : Owners s owner live free) (hI : Inv s chain) {i : ι} {c : Choice}
    {r : Mem α × Pc α} (hr : s.mem.access c (s.pc i) = some r) :
    ∃ owner' live' free',
      Owners ⟨r.1, Function.update s.pc i r.2, s.calls⟩ owner' live' free' := by
  have hC := hI.shape
  have hok := hI.threads i
  cases hpc : s.pc i with
  | idle | pushDone | popTrue _ | popFalse =>
    rw [hpc] at hr
    cases hr
  | pushNew value =>
    rw [hpc, Mem.access] at hr
    split at hr
    · cases hr
    · next hfresh =>
      cases hr
      exact ⟨_, _, _, h.new hpc hfresh⟩
  | pushInit value node =>
    rw [hpc, Mem.access] at hr
    cases hr
    refine ⟨_, _, _, h.keep rfl rfl rfl (by rw [hpc]; rfl) (fun a ha => ?_) trivial⟩
    rw [hpc] at ha
    exact Function.update_of_ne (fun heq => ha (congrArg some heq.symm)) _ _
  | pushLoadTail value node =>
    rw [hpc, Mem.access] at hr
    cases hr
    exact ⟨_, _, _, h.read hpc rfl rfl rfl rfl rfl trivial⟩
  | pushLoadNext value node tail =>
    rw [hpc, Mem.access] at hr
    obtain ⟨a, -, rfl⟩ := Option.map_eq_some_iff.mp hr
    exact ⟨_, _, _, h.read hpc rfl rfl rfl rfl rfl trivial⟩
  | pushCheck value node tail next =>
    rw [hpc, Mem.access] at hr
    split at hr
    · split at hr <;> cases hr <;>
        exact ⟨_, _, _, h.read hpc rfl rfl rfl rfl rfl trivial⟩
    · cases hr
      exact ⟨_, _, _, h.read hpc rfl rfl rfl rfl rfl trivial⟩
  | pushLink value node tail next =>
    rw [hpc] at hok
    obtain ⟨hseen, rfl⟩ := hok
    rw [hpc, Mem.access] at hr
    obtain ⟨a, ha, hr⟩ := Option.map_eq_some_iff.mp hr
    split at hr
    · next hcas =>
      cases hr
      obtain ⟨before, hlive⟩ := h.last_of_next hC hseen ha hcas.2
      have hprivate := hI.owned i node value (by rw [hpc]; rfl)
      refine ⟨_, _, _, h.link hpc hlive ?_ rfl⟩
      rw [Mem.successor, hprivate.next]
    · cases hr
      exact ⟨_, _, _, h.read hpc rfl rfl rfl rfl rfl trivial⟩
  | pushHelp value node tail next =>
    rw [hpc, Mem.access] at hr
    split at hr <;> cases hr <;> exact ⟨_, _, _, h.read hpc rfl rfl rfl rfl rfl trivial⟩
  | pushSwing node tail =>
    rw [hpc, Mem.access] at hr
    split at hr <;> cases hr <;> exact ⟨_, _, _, h.read hpc rfl rfl rfl rfl rfl trivial⟩
  | popLoadHead =>
    rw [hpc, Mem.access] at hr
    cases hr
    exact ⟨_, _, _, h.read hpc rfl rfl rfl rfl rfl trivial⟩
  | popLoadTail head =>
    rw [hpc, Mem.access] at hr
    cases hr
    exact ⟨_, _, _, h.read hpc rfl rfl rfl rfl rfl trivial⟩
  | popLoadNext head tail =>
    rw [hpc, Mem.access] at hr
    obtain ⟨a, -, rfl⟩ := Option.map_eq_some_iff.mp hr
    exact ⟨_, _, _, h.read hpc rfl rfl rfl rfl rfl trivial⟩
  | popCheck head tail next =>
    rw [hpc, Mem.access] at hr
    split at hr
    · split at hr
      · split at hr <;> cases hr <;>
          exact ⟨_, _, _, h.read hpc rfl rfl rfl rfl rfl trivial⟩
      · cases hr
        exact ⟨_, _, _, h.read hpc rfl rfl rfl rfl rfl trivial⟩
    · cases hr
      exact ⟨_, _, _, h.read hpc rfl rfl rfl rfl rfl trivial⟩
  | popHelp tail next =>
    rw [hpc, Mem.access] at hr
    split at hr <;> cases hr <;> exact ⟨_, _, _, h.read hpc rfl rfl rfl rfl rfl trivial⟩
  | popRead head next =>
    rw [hpc, Mem.access] at hr
    obtain ⟨a, -, rfl⟩ := Option.map_eq_some_iff.mp hr
    exact ⟨_, _, _, h.read hpc rfl rfl rfl rfl rfl trivial⟩
  | popCas head next result =>
    rw [hpc] at hok
    obtain ⟨-, -, hnext, -⟩ := hok
    rw [hpc, Mem.access] at hr
    split at hr
    · next hcas =>
      cases hr
      obtain rfl := hcas.2
      have hlt := hI.head_lt_length
      have hptr : s.mem.head_.ptr = some chain[s.mem.head_.count] := by
        rw [hC.head, List.getElem?_eq_getElem hlt]
      rw [hptr]
      refine ⟨_, _, _, h.unlink (by rw [hpc]; rfl) hptr ?_⟩
      -- the second node was read before the exchange and has not changed
      rw [Mem.successor, hC.next _ _ le_rfl (List.getElem?_eq_getElem hlt)]
      exact hnext
    · cases hr
      exact ⟨_, _, _, h.read hpc rfl rfl rfl rfl rfl trivial⟩
  | releaseLoad node result =>
    rw [hpc, Mem.access] at hr
    cases hr
    exact ⟨_, _, _, h.read hpc rfl rfl rfl rfl rfl trivial⟩
  | releaseStore node seen result =>
    rw [hpc, Mem.access] at hr
    obtain ⟨a, rfl, rfl⟩ := Option.map_eq_some_iff.mp hr
    refine ⟨_, _, _, h.keep rfl rfl rfl (by rw [hpc]; rfl) (fun b hb => ?_) ?_⟩
    · rw [hpc] at hb
      exact Function.update_of_ne (fun heq => hb (congrArg some heq.symm)) _ _
    · rintro b hb
      obtain rfl := Option.some.inj hb
      show (Function.update s.mem.next a _ a).ptr = _
      rw [Function.update_self]
      rfl
  | releaseCas node seen result =>
    rw [hpc] at hok
    obtain ⟨a, rfl⟩ := Retired.exists_eq hC hok.1
    rw [hpc, Mem.access] at hr
    split at hr
    · next hcas =>
      cases hr
      exact ⟨_, _, _, h.release hpc hcas.2 rfl⟩
    · cases hr
      exact ⟨_, _, _, h.read hpc rfl rfl rfl rfl rfl trivial⟩

theorem Owners.of_step (h : Owners s owner live free) (hI : Inv s chain) {a : Action ι α}
    (hstep : step s a = some s') : ∃ owner' live' free', Owners s' owner' live' free' := by
  cases a with
  | push i value =>
    simp only [step] at hstep
    split at hstep
    · next hpc =>
      cases hstep
      exact ⟨_, _, _, h.read hpc rfl rfl rfl rfl rfl trivial⟩
    · cases hstep
  | pop i =>
    simp only [step] at hstep
    split at hstep
    · next hpc =>
      cases hstep
      exact ⟨_, _, _, h.read hpc rfl rfl rfl rfl rfl trivial⟩
    · cases hstep
  | access i c =>
    obtain ⟨r, hr, rfl⟩ := Option.map_eq_some_iff.mp hstep
    exact h.access hI hr
  | ret i =>
    simp only [step] at hstep
    split at hstep
    · next hpc =>
      cases hstep
      exact ⟨_, _, _, h.read hpc rfl rfl rfl rfl rfl trivial⟩
    · next hpc =>
      cases hstep
      exact ⟨_, _, _, h.read hpc rfl rfl rfl rfl rfl trivial⟩
    · next hpc =>
      cases hstep
      exact ⟨_, _, _, h.read hpc rfl rfl rfl rfl rfl trivial⟩
    · cases hstep

/-- Every node has one owner while fewer than `2 ^ 64` calls were made. -/
theorem owners_of_reachable (hs : (system ι α).Reachable s) (hb : s.calls < sizeT) :
    ∃ chain owner live free, Inv s chain ∧ Owners s owner live free := by
  refine Reaches.invariant_within
    (I := fun s => ∃ chain owner live free, Inv s chain ∧ Owners s owner live free)
    (B := fun s => s.calls < sizeT) ?_ ?_ ?_ hs hb
  · exact fun _ _ _ hstep hb' => lt_of_le_of_lt (calls_le_of_step hstep) hb'
  · intro s h₀
    obtain ⟨chain, hI⟩ := inv_init h₀
    obtain ⟨owner, live, free, h⟩ := owners_init h₀
    exact ⟨chain, owner, live, free, hI, h⟩
  · rintro s a s' ⟨chain, owner, live, free, hI, h⟩ hb' hstep
    obtain ⟨chain', hI', -⟩ := hI.of_step hb' hstep
    obtain ⟨owner', live', free', h'⟩ := h.of_step hI hstep
    exact ⟨chain', owner', live', free', hI', h'⟩

end Runs

/-! ## The partition -/

/-- Deleting along a list of allocated nodes deletes the list. -/
theorem deleteFrom_eq {nodes : List ℕ} :
    ∀ {n : ℕ} {p : Option ℕ} {m : Mem α}, LinksTo m.successor p nodes → nodes.Nodup →
      (∀ a ∈ nodes, a ∈ m.allocated) → nodes.length ≤ n →
      m.deleteFrom n p = some { m with allocated := m.allocated \ nodes.toFinset } := by
  induction nodes with
  | nil =>
    intro n p m hlinks _ _ _
    cases hlinks
    rw [Mem.deleteFrom, List.toFinset_nil, Finset.sdiff_empty]
  | cons a nodes ih =>
    intro n p m hlinks hnodup hmem hn
    cases hlinks with
    | cons hrest =>
      obtain ⟨n, rfl⟩ : ∃ k, n = k + 1 := ⟨n - 1, by rw [List.length_cons] at hn; omega⟩
      obtain ⟨hnotin, hnodup⟩ := List.nodup_cons.mp hnodup
      rw [Mem.deleteFrom, if_pos (hmem a List.mem_cons_self)]
      have hih := ih (n := n) (m := { m with allocated := m.allocated.erase a }) hrest hnodup ?_
        (Nat.le_of_succ_le_succ hn)
      · rw [List.toFinset_cons, Finset.sdiff_insert, ← Finset.erase_sdiff_comm]
        exact hih
      · intro b hb
        refine Finset.mem_erase.mpr ⟨?_, hmem b (List.mem_cons_of_mem _ hb)⟩
        rintro rfl
        exact hnotin hb

/-- The live, the free and the in-flight nodes of a queue. -/
structure Partitioned (s : State ι α) : Prop where
  /-- `tail_.ptr` is met from `head_.ptr` after `tail_.count - head_.count` steps, not before, and
  the last node is the one there or the next one. -/
  head_le_tail : s.mem.head_.count ≤ s.mem.tail_.count
  live : LinksTo s.mem.successor s.mem.head_.ptr s.mem.live
  live_nodup : s.mem.live.Nodup
  tail : ∃ a, s.mem.tail_.ptr = some a ∧
    s.mem.live[s.mem.tail_.count - s.mem.head_.count]? = some a
  last : s.mem.live.length ≤ s.mem.tail_.count - s.mem.head_.count + 2
  ptr_eq_iff : s.mem.head_.ptr = s.mem.tail_.ptr ↔ s.mem.head_.count = s.mem.tail_.count
  /-- A pop reads an element only through a pointer to a node. -/
  read : ∀ i head next, s.pc i = .popRead head next → next.ptr ≠ none
  free : LinksTo s.mem.successor s.mem.free_.ptr s.mem.pool
  free_nodup : s.mem.pool.Nodup
  /-- A node is allocated exactly when something owns it, and then only one thing does. -/
  owned : ∀ a, a ∈ s.mem.allocated ↔ ∃ o : Owner ι, s.Owns a o
  unique : ∀ a (o o' : Owner ι), s.Owns a o → s.Owns a o' → o = o'
  /-- The destructor deletes no node twice and leaves the nodes of the calls in flight. -/
  destroy : ∃ m, s.mem.destroy = some m ∧
    ∀ a, a ∈ m.allocated ↔ ∃ i, (s.pc i).node = some a

theorem Owners.destroy {s : State ι α} {owner : ℕ → Option (Owner ι)} {live free : List ℕ}
    (h : Owners s owner live free) :
    ∃ m, s.mem.destroy = some m ∧ ∀ a, a ∈ m.allocated ↔ ∃ i, (s.pc i).node = some a := by
  have hlive := h.allocated_of_mem_live
  have hfree := h.allocated_of_mem_free
  have hcard : ∀ {nodes : List ℕ}, nodes.Nodup → (∀ a ∈ nodes, a ∈ s.mem.allocated) →
      nodes.length ≤ s.mem.allocated.card := by
    intro nodes hnodup hmem
    rw [← List.toFinset_card_of_nodup hnodup]
    exact Finset.card_le_card fun a ha => hmem a (List.mem_toFinset.mp ha)
  have happart : ∀ a ∈ free, a ∉ live := by
    intro a ha hmem
    rw [h.free_iff] at ha
    rw [h.live_iff, ha] at hmem
    cases hmem
  have hfirst := deleteFrom_eq h.live_links h.live_nodup hlive (hcard h.live_nodup hlive)
  have hsecond := deleteFrom_eq
    (m := { s.mem with allocated := s.mem.allocated \ live.toFinset }) h.free_links h.free_nodup
    (fun a ha => Finset.mem_sdiff.mpr
      ⟨hfree a ha, fun hmem => happart a ha (List.mem_toFinset.mp hmem)⟩)
    (hcard h.free_nodup hfree)
  refine ⟨{ s.mem with allocated := (s.mem.allocated \ live.toFinset) \ free.toFinset }, ?_,
    fun a => ?_⟩
  · rw [Mem.destroy, hfirst, Option.bind_some]
    exact hsecond
  · show a ∈ (s.mem.allocated \ live.toFinset) \ free.toFinset ↔ _
    rw [Finset.mem_sdiff, Finset.mem_sdiff, List.mem_toFinset, List.mem_toFinset, h.live_iff,
      h.free_iff, h.allocated_iff]
    simp only [h.call_iff]
    constructor
    · rintro ⟨⟨hsome, hqueue⟩, hpool⟩
      obtain ⟨o, ho⟩ := Option.isSome_iff_exists.mp hsome
      cases o with
      | queue => exact absurd ho hqueue
      | pool => exact absurd ho hpool
      | call i => exact ⟨i, ho⟩
    · rintro ⟨i, ho⟩
      rw [ho]
      exact ⟨⟨rfl, nofun⟩, nofun⟩

/-- **Live, free and in-flight nodes are a partition of the allocated ones**, in every reachable
state after fewer than `2 ^ 64` calls. -/
theorem partitioned [Fintype ι] [DecidableEq ι] {s : State ι α} (hs : (system ι α).Reachable s)
    (hb : s.calls < 2 ^ 64) : Partitioned s := by
  obtain ⟨chain, owner, live, free, hI, h⟩ := owners_of_reachable hs hb
  have hC := hI.shape
  have hhead := hC.head_le_tail
  have htail := hC.tail_lt
  have hdrop := h.live_eq_drop hC
  constructor
  case head_le_tail => exact hhead
  case live =>
    rw [h.live_eq]
    exact h.live_links
  case live_nodup =>
    rw [h.live_eq]
    exact h.live_nodup
  case tail =>
    refine ⟨chain[s.mem.tail_.count], ?_, ?_⟩
    · rw [hC.tail, List.getElem?_eq_getElem htail]
    · rw [h.live_eq, hdrop, List.getElem?_drop, Nat.add_sub_cancel' hhead,
        List.getElem?_eq_getElem htail]
  case last =>
    have hlast := hC.last
    rw [h.live_eq, hdrop, List.length_drop]
    omega
  case ptr_eq_iff =>
    rw [hC.head, hC.tail]
    constructor
    · intro heq
      exact (List.getElem?_inj (hhead.trans_lt htail) hC.nodup).mp heq
    · intro heq
      rw [heq]
  case read =>
    intro i head next hpc
    have hok := hI.threads i
    rw [hpc] at hok
    obtain ⟨-, hlt, hnext⟩ := hok
    rw [hnext, List.getElem?_eq_getElem (hlt.trans_lt htail)]
    exact Option.some_ne_none _
  case free =>
    rw [h.pool_eq]
    exact h.free_links
  case free_nodup =>
    rw [h.pool_eq]
    exact h.free_nodup
  case owned =>
    intro a
    simp only [h.owns_iff, h.allocated_iff, Option.isSome_iff_exists]
  case unique =>
    intro a o o' ho ho'
    rw [h.owns_iff] at ho ho'
    exact Option.some.inj (ho.symm.trans ho')
  case destroy => exact h.destroy

/-- Two pushes and a pop of one thread; then a pop that has moved `head_` and not yet released the
old dummy, and a push that has not linked its node. -/
def oneEach : List (Action (Fin 2) ℕ) :=
  (.push 0 7 :: .access 0 ⟨false, 1⟩ :: List.replicate 6 (.access 0 ⟨false, 0⟩)) ++ [.ret 0] ++
  (.push 0 8 :: .access 0 ⟨false, 2⟩ :: List.replicate 6 (.access 0 ⟨false, 0⟩)) ++ [.ret 0] ++
  (.pop 0 :: List.replicate 9 (.access 0 ⟨false, 0⟩)) ++ [.ret 0] ++
  (.pop 1 :: List.replicate 6 (.access 1 ⟨false, 0⟩)) ++
  [.push 0 9, .access 0 ⟨false, 3⟩, .access 0 ⟨false, 0⟩]

theorem partitioned_oneEach :
    Partitioned ((system (Fin 2) ℕ).replay emptyOfTwo oneEach) := by
  have hinit : (system (Fin 2) ℕ).Reachable emptyOfTwo :=
    .start ⟨0, rfl, rfl, rfl, rfl, rfl, fun _ => rfl, rfl⟩
  exact partitioned (hinit.replay oneEach (by decide)) (by decide)

/-- One node is in the queue, one is free and the two calls in flight have one each. -/
example : ((system (Fin 2) ℕ).replay emptyOfTwo oneEach).mem.live = [2] ∧
    ((system (Fin 2) ℕ).replay emptyOfTwo oneEach).mem.pool = [0] ∧
    (((system (Fin 2) ℕ).replay emptyOfTwo oneEach).pc 1).node = some 1 ∧
    (((system (Fin 2) ℕ).replay emptyOfTwo oneEach).pc 0).node = some 3 := by
  decide

end LockFreeQueue
end ThreadUtils
