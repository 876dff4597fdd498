import ThreadUtils.DataStructures.LockFreeQueue.Model
import ThreadUtils.Transition.LinkedList

/-!
# The node pool of the lock-free queue

`allocate_node` takes the first node off the list of free nodes, `release_node` puts one in front
of it.  Here the two functions are used as a protocol of their own, by any number of threads: the
queue itself calls `allocate_node` in its constructor only.

## The version that is given back

`release_node` writes the version `free.count + 1` into the node and into `free_`, but
`allocate_node` writes `next.count + 1`, where `next` belongs to the node it takes: it gives `free_`
back the version it had when that node was released.  So the versions of `free_` go down as well
as up and a pair can come back while a thread holds it between its load and its exchange.  The
comment over `TU_LockFreeQueueNodePtr` relies on the count to make the comparison fail then.

## When the pool is safe

The exchange of `allocate_node` installs the `next` that was loaded before.  This is the node behind
the one it takes, unless the list has changed and come back in between.  `KeepsToFreeList` speaks of
the state before the exchange: the node that would be installed is behind the first one on the free
list.  Apart from this a thread releases only nodes that it was given, and nothing is assumed.

The invariant (`Inv`) keeps the free nodes and the nodes of each thread apart.  The exchange of
`release_node` needs no condition: it compares the pointer that it has stored into its own node, so
whatever list is there is linked behind the node (`Pc.Linked`).

* `abaSafe` --- in every run where no exchange installs a pointer that has left the free list,
  no node has two owners and none is returned while it is owned or free.
* `exists_not_abaSafe` --- a run where a pair comes back and one node is returned twice.
-/

namespace ThreadUtils
namespace LockFreeQueue
namespace NodePool

variable {ι : Type*}

/-- The variables of a queue that the pool uses. -/
structure Pool where
  free_ : NodePtr
  next : ℕ → NodePtr
  /-- The addresses of the nodes that `new` returned; the pool deletes none. -/
  allocated : Finset ℕ

/-- The next access of a thread and its live local variables. -/
inductive Pc where
  | idle
  /-- `free = this->free_.load()` in `allocate_node`. -/
  | allocLoad
  /-- `return new TU_LockFreeQueueNode<T>()`. -/
  | allocNew
  /-- `next = free.ptr->next.load()`. -/
  | allocLoadNext (free : NodePtr)
  /-- `this->free_.compare_exchange_weak(free, {next.ptr, next.count + 1})`. -/
  | allocCas (free next : NodePtr)
  /-- `return free.ptr`. -/
  | allocReturn (node : ℕ)
  /-- `free = this->free_.load()` in `release_node`. -/
  | releaseLoad (node : ℕ)
  /-- `node->next.store({free.ptr, free.count + 1})`. -/
  | releaseStore (node : ℕ) (free : NodePtr)
  /-- `this->free_.compare_exchange_weak(free, {node, free.count + 1})`. -/
  | releaseCas (node : ℕ) (free : NodePtr)
  /-- The return from `release_node`. -/
  | releaseReturn
  deriving DecidableEq

/-- One access of a thread: the pool and the program counter after it. -/
def Pool.access (p : Pool) (c : Choice) : Pc → Option (Pool × Pc)
  | .allocLoad =>
      match p.free_.ptr with
      | none => some (p, .allocNew)
      | some _ => some (p, .allocLoadNext p.free_)
  | .allocNew =>
      if c.fresh ∈ p.allocated then none
      else some
        ({ p with
            allocated := insert c.fresh p.allocated
            next := Function.update p.next c.fresh ⟨none, 0⟩ },
          .allocReturn c.fresh)
  | .allocLoadNext free => free.ptr.map fun a => (p, .allocCas free (p.next a))
  | .allocCas free next =>
      free.ptr.map fun a =>
        if !c.spurious ∧ p.free_ = free then
          ({ p with free_ := next.advance next.ptr }, .allocReturn a)
        else (p, .allocLoad)
  | .releaseLoad node => some (p, .releaseStore node p.free_)
  | .releaseStore node free =>
      some ({ p with next := Function.update p.next node (free.advance free.ptr) },
        .releaseCas node free)
  | .releaseCas node free =>
      if !c.spurious ∧ p.free_ = free then
        some ({ p with free_ := free.advance (some node) }, .releaseReturn)
      else some (p, .releaseLoad node)
  | .idle | .allocReturn _ | .releaseReturn => none

/-- The pool, the threads that use it with the nodes each of them was given and has not released,
and the number of calls so far.  No step reads that number. -/
structure State (ι : Type*) where
  pool : Pool
  pc : ι → Pc
  held : ι → List ℕ
  calls : ℕ

/-- What a thread may do next. -/
inductive Action (ι : Type*) where
  | allocate (i : ι)
  | release (i : ι) (node : ℕ)
  | access (i : ι) (c : Choice)
  | ret (i : ι)

variable [DecidableEq ι]

/-- One step of one thread.  A thread releases only nodes it was given. -/
def step (s : State ι) : Action ι → Option (State ι)
  | .allocate i =>
      match s.pc i with
      | .idle => some { s with
          pc := Function.update s.pc i .allocLoad, calls := s.calls + 1 }
      | _ => none
  | .release i node =>
      match s.pc i with
      | .idle =>
          if node ∈ s.held i then some { s with
            pc := Function.update s.pc i (.releaseLoad node)
            held := Function.update s.held i ((s.held i).erase node)
            calls := s.calls + 1 }
          else none
      | _ => none
  | .access i c =>
      (s.pool.access c (s.pc i)).map fun r =>
        { s with pool := r.1, pc := Function.update s.pc i r.2 }
  | .ret i =>
      match s.pc i with
      | .allocReturn node => some { s with
          pc := Function.update s.pc i .idle
          held := Function.update s.held i (node :: s.held i) }
      | .releaseReturn => some { s with pc := Function.update s.pc i .idle }
      | _ => none

/-- A constructed queue: no node is free and no thread has one. -/
def IsInitial (s : State ι) : Prop :=
  s.pool.free_ = ⟨none, 0⟩ ∧ (∀ i, s.pc i = .idle) ∧ (∀ i, s.held i = []) ∧ s.calls = 0

/-- The node pool used by the threads `ι`. -/
def system (ι : Type*) [DecidableEq ι] : TransitionSystem (State ι) (Action ι) where
  init := IsInitial
  step := step

/-! ## What the version numbers are for -/

/-- The free list. -/
def Pool.freeList (p : Pool) : List ℕ :=
  follow (fun a => (p.next a).ptr) p.allocated.card p.free_.ptr

/-- The node a call of `release_node` has not yet put on the free list. -/
def Pc.releasing : Pc → List ℕ
  | .releaseLoad node | .releaseStore node _ | .releaseCas node _ => [node]
  | _ => []

/-- The nodes a thread owns. -/
def State.owned (s : State ι) (i : ι) : List ℕ :=
  (s.pc i).releasing ++ s.held i

/-- No node has two owners, and `allocate_node` returns none that has an owner or is free. -/
structure AbaSafe (s : State ι) : Prop where
  returned : ∀ i node, s.pc i = .allocReturn node →
    node ∉ s.pool.freeList ∧ ∀ j, node ∉ s.owned j
  exclusive : ∀ i j node, node ∈ s.owned i → node ∈ s.owned j → i = j

/-- The exchange of `allocate_node`, where it succeeds, moves `free_` to a node behind the one it
takes on the free list, or to the end. -/
def KeepsToFreeList (s : State ι) : Action ι → Prop
  | .access i c =>
      match s.pc i with
      | .allocCas free next =>
          !c.spurious → s.pool.free_ = free → ∀ b ∈ next.ptr, b ∈ s.pool.freeList.tail
      | _ => True
  | _ => True

instance (s : State ι) (a : Action ι) : Decidable (KeepsToFreeList s a) := by
  unfold KeepsToFreeList
  split <;> first | infer_instance | (split <;> infer_instance)

/-! ## The invariant -/

/-- The nodes a thread owns or is about to be given. -/
def Pc.nodes : Pc → List ℕ
  | .allocReturn node => [node]
  | pc => pc.releasing

def State.nodes (s : State ι) (i : ι) : List ℕ :=
  (s.pc i).nodes ++ s.held i

/-- The node a thread releases is linked to the free list it saw. -/
def Pc.Linked (p : Pool) : Pc → Prop
  | .releaseCas node free => (p.next node).ptr = free.ptr
  | _ => True

/-- The free nodes and the nodes of each thread are apart. -/
structure Inv (s : State ι) (free : List ℕ) : Prop where
  links : LinksTo (fun a => (s.pool.next a).ptr) s.pool.free_.ptr free
  nodup : free.Nodup
  allocated : ∀ a ∈ free, a ∈ s.pool.allocated
  nodes_nodup : ∀ i, (s.nodes i).Nodup
  nodes_apart : ∀ i j a, a ∈ s.nodes i → a ∈ s.nodes j → i = j
  nodes_allocated : ∀ i, ∀ a ∈ s.nodes i, a ∈ s.pool.allocated
  not_free : ∀ i, ∀ a ∈ s.nodes i, a ∉ free
  linked : ∀ i, (s.pc i).Linked s.pool

theorem Pc.releasing_subset (pc : Pc) : pc.releasing ⊆ pc.nodes := by
  cases pc <;> simp [Pc.releasing, Pc.nodes]

omit [DecidableEq ι] in
theorem State.owned_subset (s : State ι) (i : ι) : s.owned i ⊆ s.nodes i :=
  List.append_subset.mpr ⟨fun _ ha => List.mem_append_left _ (Pc.releasing_subset _ ha),
    fun _ ha => List.mem_append_right _ ha⟩

namespace Inv

variable {s : State ι} {free : List ℕ}

omit [DecidableEq ι] in
theorem freeList_eq (h : Inv s free) : s.pool.freeList = free :=
  h.links.follow_card_eq h.nodup h.allocated

omit [DecidableEq ι] in
theorem safe (h : Inv s free) : AbaSafe s := by
  constructor
  · intro i node hpc
    have hmem : node ∈ (s.pc i).nodes := by
      rw [hpc]
      exact List.mem_singleton_self node
    constructor
    · rw [h.freeList_eq]
      exact h.not_free i node (List.mem_append_left _ hmem)
    · intro j hj
      obtain rfl := h.nodes_apart i j node (List.mem_append_left _ hmem) (s.owned_subset j hj)
      rw [State.owned, hpc] at hj
      -- the node in the return would be in the list of the thread twice
      exact List.disjoint_of_nodup_append (h.nodes_nodup i) hmem hj
  · intro i j node hi hj
    exact h.nodes_apart i j node (s.owned_subset i hi) (s.owned_subset j hj)

end Inv

omit [DecidableEq ι] in
theorem inv_init {s : State ι} (h : IsInitial s) : Inv s [] := by
  obtain ⟨hfree, hpc, hheld, -⟩ := h
  have hnodes : ∀ i, s.nodes i = [] := fun i => by rw [State.nodes, hpc, hheld]; rfl
  constructor
  case links =>
    rw [hfree]
    exact .nil
  case linked =>
    intro i
    rw [hpc]
    trivial
  all_goals simp [hnodes]

/-! ## The steps -/

namespace Inv

variable {s : State ι} {free : List ℕ}

/-- A step of one thread, from what it does to the free list and to the nodes of that thread. -/
theorem update (h : Inv s free) (i : ι) (p : Pool) (pc : Pc) (held free' : List ℕ) (calls : ℕ)
    (hlinks : LinksTo (fun a => (p.next a).ptr) p.free_.ptr free') (hnodup : free'.Nodup)
    (hfree : ∀ a ∈ free', a ∈ p.allocated) (hallocated : s.pool.allocated ⊆ p.allocated)
    (hnodes : (pc.nodes ++ held).Nodup)
    (hown : ∀ a ∈ pc.nodes ++ held,
      a ∈ p.allocated ∧ a ∉ free' ∧ ∀ j, j ≠ i → a ∉ s.nodes j)
    (hothers : ∀ j, j ≠ i → ∀ a ∈ s.nodes j, a ∉ free' ∧ p.next a = s.pool.next a)
    (hlinked : pc.Linked p) :
    Inv ⟨p, Function.update s.pc i pc, Function.update s.held i held, calls⟩ free' := by
  have hself : State.nodes ⟨p, Function.update s.pc i pc, Function.update s.held i held, calls⟩ i =
      pc.nodes ++ held := by
    show (Function.update s.pc i pc i).nodes ++ Function.update s.held i held i = _
    rw [Function.update_self, Function.update_self]
  have hother : ∀ j, j ≠ i →
      State.nodes ⟨p, Function.update s.pc i pc, Function.update s.held i held, calls⟩ j =
        s.nodes j := fun j hj => by
    show (Function.update s.pc i pc j).nodes ++ Function.update s.held i held j = _
    rw [Function.update_of_ne hj, Function.update_of_ne hj, State.nodes]
  constructor
  case links => exact hlinks
  case nodup => exact hnodup
  case allocated => exact hfree
  case nodes_nodup =>
    intro j
    by_cases hj : j = i
    · rw [hj, hself]
      exact hnodes
    · rw [hother j hj]
      exact h.nodes_nodup j
  case nodes_apart =>
    intro j k a haj hak
    by_cases hj : j = i <;> by_cases hk : k = i
    · rw [hj, hk]
    · rw [hj, hself] at haj
      rw [hother k hk] at hak
      exact absurd hak ((hown a haj).2.2 k hk)
    · rw [hk, hself] at hak
      rw [hother j hj] at haj
      exact absurd haj ((hown a hak).2.2 j hj)
    · rw [hother j hj] at haj
      rw [hother k hk] at hak
      exact h.nodes_apart j k a haj hak
  case nodes_allocated =>
    intro j a ha
    by_cases hj : j = i
    · rw [hj, hself] at ha
      exact (hown a ha).1
    · rw [hother j hj] at ha
      exact hallocated (h.nodes_allocated j a ha)
  case not_free =>
    intro j a ha
    by_cases hj : j = i
    · rw [hj, hself] at ha
      exact (hown a ha).2.1
    · rw [hother j hj] at ha
      exact (hothers j hj a ha).1
  case linked =>
    intro j
    by_cases hj : j = i
    · rw [hj]
      show (Function.update s.pc i pc i).Linked p
      rw [Function.update_self]
      exact hlinked
    · show (Function.update s.pc i pc j).Linked p
      rw [Function.update_of_ne hj]
      have hold := h.linked j
      cases hpc : s.pc j with
      | releaseCas node seen =>
        -- the node a thread releases is its own, so no other thread writes its link
        have hmem : node ∈ s.nodes j := by
          rw [State.nodes, hpc]
          exact List.mem_append_left _ (List.mem_singleton_self node)
        rw [hpc] at hold
        show (p.next node).ptr = seen.ptr
        rw [(hothers j hj node hmem).2]
        exact hold
      | _ => trivial

omit [DecidableEq ι] in
variable {i : ι}

omit [DecidableEq ι] in
/-- The nodes of another thread are not among the nodes of this one. -/
theorem not_mem_other (h : Inv s free) {a : ℕ} (ha : a ∈ s.nodes i) :
    ∀ j, j ≠ i → a ∉ s.nodes j :=
  fun j hj haj => hj (h.nodes_apart j i a haj ha)

/-- A step that leaves the pool alone and gives the thread no node. -/
theorem update_same (h : Inv s free) (i : ι) (pc : Pc) (held : List ℕ) (calls : ℕ)
    (hnodes : (pc.nodes ++ held).Perm (s.nodes i)) (hlinked : pc.Linked s.pool) :
    Inv ⟨s.pool, Function.update s.pc i pc, Function.update s.held i held, calls⟩ free := by
  refine h.update i s.pool pc held free calls h.links h.nodup h.allocated (Finset.Subset.refl _)
    (hnodes.nodup_iff.mpr (h.nodes_nodup i)) ?_ ?_ hlinked
  · intro a ha
    have hmem := hnodes.mem_iff.mp ha
    exact ⟨h.nodes_allocated i a hmem, h.not_free i a hmem, h.not_mem_other hmem⟩
  · intro j _ a ha
    exact ⟨h.not_free j a ha, rfl⟩

/-- An access that leaves the pool alone and keeps the node of the call. -/
theorem access_same (h : Inv s free) {pc : Pc} (hnodes : pc.nodes = (s.pc i).nodes)
    (hlinked : pc.Linked s.pool) :
    Inv { s with pc := Function.update s.pc i pc } free := by
  have hinv := h.update_same i pc (s.held i) s.calls (by rw [hnodes, State.nodes]) hlinked
  rwa [Function.update_eq_self] at hinv

/-- `new` returns a node that was never in the pool. -/
theorem access_new (h : Inv s free) (hpc : s.pc i = .allocNew) {a : ℕ}
    (hfresh : a ∉ s.pool.allocated) :
    Inv { s with
      pool := { s.pool with
        allocated := insert a s.pool.allocated
        next := Function.update s.pool.next a ⟨none, 0⟩ }
      pc := Function.update s.pc i (.allocReturn a) } free := by
  have hnodes : s.nodes i = s.held i := by rw [State.nodes, hpc]; rfl
  have hne : ∀ b ∈ s.pool.allocated, b ≠ a := fun b hb hba => hfresh (hba ▸ hb)
  have hinv := h.update i
    ⟨s.pool.free_, Function.update s.pool.next a ⟨none, 0⟩, insert a s.pool.allocated⟩
    (.allocReturn a) (s.held i) free s.calls
    (h.links.congr fun b hb => by
      dsimp only
      rw [Function.update_of_ne (hne b (h.allocated b hb))])
    h.nodup (fun b hb => Finset.mem_insert_of_mem (h.allocated b hb)) (Finset.subset_insert _ _)
    ?_ ?_ ?_ trivial
  · rwa [Function.update_eq_self] at hinv
  · refine List.nodup_cons.mpr ⟨fun ha => ?_, hnodes ▸ h.nodes_nodup i⟩
    exact hfresh (h.nodes_allocated i a (hnodes ▸ ha))
  · intro b hb
    rcases List.mem_cons.mp hb with rfl | hb
    · refine ⟨Finset.mem_insert_self _ _, fun hfree => hfresh (h.allocated _ hfree), ?_⟩
      exact fun j _ hbj => hfresh (h.nodes_allocated j _ hbj)
    · have hmem : b ∈ s.nodes i := hnodes ▸ hb
      exact ⟨Finset.mem_insert_of_mem (h.nodes_allocated i b hmem), h.not_free i b hmem,
        h.not_mem_other hmem⟩
  · intro j _ b hb
    refine ⟨h.not_free j b hb, ?_⟩
    exact Function.update_of_ne (hne b (h.nodes_allocated j b hb)) _ _

/-- The exchange of `allocate_node` takes the first free node; what it installs is behind it. -/
theorem access_alloc (h : Inv s free) {seen next : NodePtr} {a : ℕ}
    (hpc : s.pc i = .allocCas seen next) (hseen : s.pool.free_ = seen) (ha : seen.ptr = some a)
    (hkeep : ∀ b ∈ next.ptr, b ∈ s.pool.freeList.tail) :
    ∃ free', Inv { s with
      pool := { s.pool with free_ := next.advance next.ptr }
      pc := Function.update s.pc i (.allocReturn a) } free' := by
  have hlinks := h.links
  rw [hseen, ha] at hlinks
  obtain ⟨rest, rfl, hrest⟩ := hlinks.behind
  rw [h.freeList_eq, List.tail_cons] at hkeep
  have hnodes : s.nodes i = s.held i := by rw [State.nodes, hpc]; rfl
  obtain ⟨hnot, hnodup⟩ := List.nodup_cons.mp h.nodup
  -- the list that starts at the installed pointer is an end of the list behind the node
  obtain ⟨free', hsuffix, hlinks'⟩ : ∃ free', free' <:+ rest ∧
      LinksTo (fun b => (s.pool.next b).ptr) next.ptr free' := by
    cases hptr : next.ptr with
    | none => exact ⟨[], List.nil_suffix, .nil⟩
    | some b => exact hrest.from_mem (hkeep b hptr)
  have hsub : ∀ b ∈ free', b ∈ rest := fun b hb => hsuffix.subset hb
  refine ⟨free', ?_⟩
  have hinv := h.update i ⟨next.advance next.ptr, s.pool.next, s.pool.allocated⟩
    (.allocReturn a) (s.held i) free' s.calls hlinks'
    (hnodup.sublist hsuffix.sublist)
    (fun b hb => h.allocated b (List.mem_cons_of_mem _ (hsub b hb))) (Finset.Subset.refl _)
    ?_ ?_ ?_ trivial
  · rwa [Function.update_eq_self] at hinv
  · refine List.nodup_cons.mpr ⟨fun hheld => ?_, hnodes ▸ h.nodes_nodup i⟩
    exact h.not_free i a (hnodes ▸ hheld) List.mem_cons_self
  · intro b hb
    rcases List.mem_cons.mp hb with rfl | hb
    · refine ⟨h.allocated _ List.mem_cons_self, fun hfree => hnot (hsub _ hfree), ?_⟩
      exact fun j _ hbj => h.not_free j _ hbj List.mem_cons_self
    · have hmem : b ∈ s.nodes i := hnodes ▸ hb
      refine ⟨h.nodes_allocated i b hmem, fun hfree => ?_, h.not_mem_other hmem⟩
      exact h.not_free i b hmem (List.mem_cons_of_mem _ (hsub b hfree))
  · intro j _ b hb
    refine ⟨fun hfree => ?_, rfl⟩
    exact h.not_free j b hb (List.mem_cons_of_mem _ (hsub b hfree))

/-- A thread writes the link of the node it releases. -/
theorem access_store (h : Inv s free) {seen : NodePtr} {node : ℕ}
    (hpc : s.pc i = .releaseStore node seen) :
    Inv { s with
      pool := { s.pool with next := Function.update s.pool.next node (seen.advance seen.ptr) }
      pc := Function.update s.pc i (.releaseCas node seen) } free := by
  have hnodes : s.nodes i = node :: s.held i := by rw [State.nodes, hpc]; rfl
  have hnode : node ∈ s.nodes i := hnodes ▸ List.mem_cons_self
  have hinv := h.update i
    ⟨s.pool.free_, Function.update s.pool.next node (seen.advance seen.ptr), s.pool.allocated⟩
    (.releaseCas node seen) (s.held i) free s.calls
    (h.links.congr fun b hb => by
      dsimp only
      rw [Function.update_of_ne]
      rintro rfl
      exact h.not_free i _ hnode hb)
    h.nodup h.allocated (Finset.Subset.refl _) ?_ ?_ ?_ ?_
  · rwa [Function.update_eq_self] at hinv
  · show (node :: s.held i).Nodup
    rw [← hnodes]
    exact h.nodes_nodup i
  · intro b hb
    have hmem : b ∈ s.nodes i := by
      rw [hnodes]
      exact hb
    exact ⟨h.nodes_allocated i b hmem, h.not_free i b hmem, h.not_mem_other hmem⟩
  · intro j hj b hb
    refine ⟨h.not_free j b hb, Function.update_of_ne ?_ _ _⟩
    rintro rfl
    exact h.not_mem_other hnode j hj hb
  · show (Function.update s.pool.next node (seen.advance seen.ptr) node).ptr = seen.ptr
    rw [Function.update_self]
    rfl

/-- The exchange of `release_node` puts the node in front of the free list. -/
theorem access_release (h : Inv s free) {seen : NodePtr} {node : ℕ}
    (hpc : s.pc i = .releaseCas node seen) (hseen : s.pool.free_ = seen) :
    Inv { s with
      pool := { s.pool with free_ := seen.advance (some node) }
      pc := Function.update s.pc i .releaseReturn } (node :: free) := by
  have hnodes : s.nodes i = node :: s.held i := by rw [State.nodes, hpc]; rfl
  have hnode : node ∈ s.nodes i := hnodes ▸ List.mem_cons_self
  have hnodup : node ∉ s.held i ∧ (s.held i).Nodup :=
    List.nodup_cons.mp (hnodes ▸ h.nodes_nodup i)
  have hlink : (s.pool.next node).ptr = s.pool.free_.ptr := by
    have hlinked := h.linked i
    rw [hpc] at hlinked
    rw [hseen]
    exact hlinked
  have hinv := h.update i ⟨seen.advance (some node), s.pool.next, s.pool.allocated⟩
    .releaseReturn (s.held i) (node :: free) s.calls
    (.cons (by rw [hlink]; exact h.links))
    (List.nodup_cons.mpr ⟨h.not_free i node hnode, h.nodup⟩)
    ?_ (Finset.Subset.refl _) ?_ ?_ ?_ trivial
  · rwa [Function.update_eq_self] at hinv
  · intro b hb
    rcases List.mem_cons.mp hb with rfl | hb
    · exact h.nodes_allocated i _ hnode
    · exact h.allocated b hb
  · exact hnodup.2
  · intro b hb
    have hmem : b ∈ s.nodes i := hnodes ▸ List.mem_cons_of_mem _ hb
    refine ⟨h.nodes_allocated i b hmem, fun hfree => ?_, h.not_mem_other hmem⟩
    rcases List.mem_cons.mp hfree with rfl | hfree
    · exact hnodup.1 hb
    · exact h.not_free i b hmem hfree
  · intro j hj b hb
    refine ⟨fun hfree => ?_, rfl⟩
    rcases List.mem_cons.mp hfree with rfl | hfree
    · exact h.not_mem_other hnode j hj hb
    · exact h.not_free j b hb hfree

end Inv

/-- An access, by the next access of the thread. -/
theorem inv_access {s s' : State ι} {free : List ℕ} {i : ι} {c : Choice} (h : Inv s free)
    (hok : KeepsToFreeList s (.access i c)) (hstep : step s (.access i c) = some s') :
    ∃ free', Inv s' free' := by
  obtain ⟨⟨p, pc⟩, haccess, rfl⟩ := Option.map_eq_some_iff.mp hstep
  cases hpc : s.pc i with
  | allocLoad =>
    rw [hpc, Pool.access] at haccess
    split at haccess <;> cases haccess
    · exact ⟨free, h.access_same (by rw [hpc]; rfl) trivial⟩
    · exact ⟨free, h.access_same (by rw [hpc]; rfl) trivial⟩
  | allocNew =>
    rw [hpc, Pool.access] at haccess
    split at haccess
    · cases haccess
    · next hfresh =>
      cases haccess
      exact ⟨free, h.access_new hpc hfresh⟩
  | allocLoadNext seen =>
    rw [hpc, Pool.access] at haccess
    obtain ⟨a, -, heq⟩ := Option.map_eq_some_iff.mp haccess
    cases heq
    exact ⟨free, h.access_same (by rw [hpc]; rfl) trivial⟩
  | allocCas seen next =>
    rw [hpc, Pool.access] at haccess
    obtain ⟨a, ha, heq⟩ := Option.map_eq_some_iff.mp haccess
    split at heq
    · next hcas =>
      cases heq
      rw [KeepsToFreeList, hpc] at hok
      exact h.access_alloc hpc hcas.2 ha (hok hcas.1 hcas.2)
    · cases heq
      exact ⟨free, h.access_same (by rw [hpc]; rfl) trivial⟩
  | releaseLoad node =>
    rw [hpc, Pool.access] at haccess
    cases haccess
    exact ⟨free, h.access_same (by rw [hpc]; rfl) trivial⟩
  | releaseStore node seen =>
    rw [hpc, Pool.access] at haccess
    cases haccess
    exact ⟨free, h.access_store hpc⟩
  | releaseCas node seen =>
    rw [hpc, Pool.access] at haccess
    split at haccess <;> cases haccess
    · next hcas => exact ⟨node :: free, h.access_release hpc hcas.2⟩
    · exact ⟨free, h.access_same (by rw [hpc]; rfl) trivial⟩
  | idle | allocReturn _ | releaseReturn =>
    rw [hpc] at haccess
    cases haccess

/-- One step keeps the free nodes and the nodes of the threads apart. -/
theorem inv_step {s s' : State ι} {free : List ℕ} {a : Action ι} (h : Inv s free)
    (hok : KeepsToFreeList s a) (hstep : step s a = some s') : ∃ free', Inv s' free' := by
  cases a with
  | allocate i =>
    simp only [step] at hstep
    split at hstep
    · next hpc =>
      cases hstep
      have hinv := h.update_same i .allocLoad (s.held i) (s.calls + 1)
        (by rw [State.nodes, hpc]; exact .refl _) trivial
      rw [Function.update_eq_self] at hinv
      exact ⟨free, hinv⟩
    · cases hstep
  | release i node =>
    simp only [step] at hstep
    split at hstep
    · next hpc =>
      split at hstep
      · next hheld =>
        cases hstep
        have hperm : (node :: (s.held i).erase node).Perm (s.nodes i) := by
          rw [State.nodes, hpc]
          exact (List.perm_cons_erase hheld).symm
        exact ⟨free, h.update_same i (.releaseLoad node) _ _ hperm trivial⟩
      · cases hstep
    · cases hstep
  | access i c => exact inv_access h hok hstep
  | ret i =>
    simp only [step] at hstep
    split at hstep
    · next node hpc =>
      cases hstep
      refine ⟨free, h.update_same i .idle (node :: s.held i) s.calls ?_ trivial⟩
      rw [State.nodes, hpc]
      exact .refl _
    · next hpc =>
      cases hstep
      exact ⟨free, h.access_same (by rw [hpc]; rfl) trivial⟩
    · cases hstep

theorem inv_of_reaches {s : State ι} (hs : (system ι).Reaches KeepsToFreeList s) :
    ∃ free, Inv s free := by
  refine hs.invariant (I := fun s => ∃ free, Inv s free) ?_ ?_
  · intro s h₀
    exact ⟨[], inv_init h₀⟩
  · rintro s a s' - ⟨free, h⟩ hok hstep
    exact inv_step h hok hstep

/-- **The pool is safe while no pointer comes back.** -/
theorem abaSafe {s : State ι} (hs : (system ι).Reaches KeepsToFreeList s) : AbaSafe s :=
  let ⟨_, h⟩ := inv_of_reaches hs
  h.safe

/-! ## A version that comes back -/

/-- The constructed queue. -/
def initial : State ι :=
  ⟨⟨⟨none, 0⟩, fun _ => ⟨none, 0⟩, ∅⟩, fun _ => .idle, fun _ => [], 0⟩

omit [DecidableEq ι] in
theorem isInitial_initial : IsInitial (initial : State ι) :=
  ⟨rfl, fun _ => rfl, fun _ => rfl, rfl⟩

/-- A call of `allocate_node` that finds no free node. -/
def allocateNew (i : ι) (node : ℕ) : List (Action ι) :=
  [.allocate i, .access i ⟨false, node⟩, .access i ⟨false, node⟩, .ret i]

/-- A call of `allocate_node` that takes a free node. -/
def allocateFree (i : ι) : List (Action ι) :=
  .allocate i :: (List.replicate 3 (.access i ⟨false, 0⟩) ++ [.ret i])

/-- A call of `release_node` that nothing disturbs. -/
def releaseNode (i : ι) (node : ℕ) : List (Action ι) :=
  .release i node :: (List.replicate 3 (.access i ⟨false, 0⟩) ++ [.ret i])

/-- The second thread takes a node while the first one waits before its exchange. -/
def takeTwo : List (Action Bool) :=
  allocateNew false 0 ++ allocateNew false 1 ++ releaseNode false 0 ++ releaseNode false 1 ++
    allocateFree true ++ [.allocate false, .access false ⟨false, 0⟩, .access false ⟨false, 0⟩,
      .access false ⟨false, 0⟩]

theorem abaSafe_takeTwo :
    AbaSafe ((system Bool).replayWithin KeepsToFreeList initial takeTwo) :=
  abaSafe (.replayWithin (.start isInitial_initial) takeTwo (by decide))

/-- The first thread loads `free_` and the link of its node.  Meanwhile the second one takes the
three free nodes and releases the first of them, whose version is again that of `free_`. -/
def comesBack : List (Action Bool) :=
  allocateNew true 0 ++ allocateNew true 1 ++ allocateNew true 2 ++
    releaseNode true 0 ++ releaseNode true 1 ++ releaseNode true 2 ++
    [.allocate false, .access false ⟨false, 0⟩, .access false ⟨false, 0⟩] ++
    allocateFree true ++ allocateFree true ++ allocateFree true ++ releaseNode true 2 ++
    [.access false ⟨false, 0⟩, .ret false] ++
    [.allocate false, .access false ⟨false, 0⟩, .access false ⟨false, 0⟩, .access false ⟨false, 0⟩]

/-- **The pool is not ABA safe**: `allocate_node` returns a node that another thread owns. -/
theorem exists_not_abaSafe :
    ∃ s : State Bool, (system Bool).Reachable s ∧ s.calls < 2 ^ 64 ∧ ¬ AbaSafe s := by
  have hrun : ((system Bool).run initial comesBack).isSome := by decide
  refine ⟨(system Bool).replay initial comesBack,
    .replay (.start isInitial_initial) comesBack hrun, by decide, ?_⟩
  intro hsafe
  have hreturn : ((system Bool).replay initial comesBack).pc false = .allocReturn 1 := by decide
  exact (hsafe.returned false 1 hreturn).2 true (by decide)

end NodePool
end LockFreeQueue
end ThreadUtils
