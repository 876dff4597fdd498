import Mathlib.Data.Finset.Basic
import ThreadUtils.Transition.System

/-!
# The buffer pool of the communicator

`TU_CommBufferPool` hands out buffers from `cpu_free` and, with `track`, records in `cpu_used`
where each was allocated.  The addresses that `new` returns are part of the action; all that is
known of them is that they are not allocated at that moment.  The memory `allocated` and the
record `out` of what the callers hold are kept beside the pool, and the pool reads neither.

## The buffer that is not recorded

A call of `alloc_cpu` that finds no free buffer returns before the line that records it.  The pool
does not know that buffer, and refuses it when it comes back: to the pool it looks like one that is
released twice.

## Addresses

A buffer is known by its address, and addresses come back.  When `alloc_cpu` finds a buffer that is
too small it deletes the memory and asks for more, and `new` may return the address of a buffer
that was deleted before.  So the invariant has to say that the free buffers and those that are out
are allocated (`Inv`): then an address that `new` returns belongs to none of them, and a key of
`cpu_used` stands for one buffer only.

Once a buffer is out that is no key, no later call makes up for it, so the theorem is an equivalence
for runs: the pool is exact after every call if and only if every `alloc_cpu` has found a free
buffer.

* `exact_iff_finds_buffer` --- in a run the pool knows which buffers are out, after every call,
  if and only if every `alloc_cpu` has found a free buffer.
-/

namespace ThreadUtils

/-- `TU_CommBuffer`. -/
structure CommBuffer (A : Type*) where
  data : A
  size : ℕ
  cap : ℕ
  deriving DecidableEq

/-- `TU_CommBufferPool`.  The back of the vector is the end of the list. -/
structure CommBufferPool (A L : Type*) where
  track : Bool
  cpuFree : List (CommBuffer A)
  /-- The map `cpu_used`: the value of a key, if it is there. -/
  cpuUsed : A → Option L

namespace CommBufferPool

variable {A L : Type*}

/-- The constructor. -/
def create (track : Bool) : CommBufferPool A L where
  track := track
  cpuFree := []
  cpuUsed := fun _ => none

variable [DecidableEq A]

/-- `new char[size]`, when it returns `addr`. -/
def newChar (allocated : Finset A) (addr : A) : Option (Finset A) :=
  if addr ∈ allocated then none else some (insert addr allocated)

/-- `delete[]`. -/
def deleteChar (allocated : Finset A) (addr : A) : Finset A :=
  allocated.erase addr

/-- `if (this->track) { this->cpu_used[buffer.data] = loc; }`. -/
def recordUsed (pool : CommBufferPool A L) (data : A) (loc : L) : CommBufferPool A L :=
  if pool.track then { pool with cpuUsed := Function.update pool.cpuUsed data (some loc) } else pool

/-- `alloc_cpu`: the buffer, the pool and the memory after the call, where `addr` is what `new`
returns if it is called. -/
def allocCpu (pool : CommBufferPool A L) (allocated : Finset A) (size : ℕ) (loc : L) (addr : A) :
    Option (CommBuffer A × CommBufferPool A L × Finset A) :=
  match pool.cpuFree.getLast? with
  | none => (newChar allocated addr).map fun allocated =>
      ({ data := addr, size := size, cap := size }, pool, allocated)
  | some buffer =>
      let pool := { pool with cpuFree := pool.cpuFree.dropLast }
      if buffer.cap < size then
        (newChar (deleteChar allocated buffer.data) addr).map fun allocated =>
          ({ data := addr, size := size, cap := size }, pool.recordUsed addr loc, allocated)
      else
        some ({ buffer with size := size }, pool.recordUsed buffer.data loc, allocated)

/-- `release_cpu`. -/
def releaseCpu (pool : CommBufferPool A L) (buffer : CommBuffer A) : CommBufferPool A L :=
  if pool.track then
    if (pool.cpuUsed buffer.data).isSome then
      { pool with
        cpuUsed := Function.update pool.cpuUsed buffer.data none
        cpuFree := pool.cpuFree ++ [buffer] }
    else pool
  else { pool with cpuFree := pool.cpuFree ++ [buffer] }

/-- `fill_cpu`, where `addrs` is what the `count` calls of `new` return. -/
def fillCpu (pool : CommBufferPool A L) (allocated : Finset A) (size : ℕ) :
    List A → Option (CommBufferPool A L × Finset A)
  | [] => some (pool, allocated)
  | addr :: addrs => (newChar allocated addr).bind fun allocated =>
      fillCpu { pool with
        cpuFree := pool.cpuFree ++ [{ data := addr, size := size, cap := size }] } allocated
        size addrs

/-! ## The runs of a tracked pool -/

/-- A call, with the addresses that `new` returns to it. -/
inductive Call (A L : Type*) where
  | fillCpu (size : ℕ) (addrs : List A)
  | allocCpu (size : ℕ) (loc : L) (addr : A)
  | releaseCpu (buffer : CommBuffer A)

/-- A pool, the memory, and the addresses that `alloc_cpu` has returned and that were not
released since. -/
structure State (A L : Type*) where
  pool : CommBufferPool A L
  allocated : Finset A
  out : Finset A
  /-- What the last call returned, if it was `alloc_cpu`. -/
  returned : Option (CommBuffer A)

/-- A tracked pool in any memory. -/
def initial (allocated : Finset A) : State A L :=
  ⟨create true, allocated, ∅, none⟩

def step (s : State A L) : Call A L → Option (State A L)
  | .fillCpu size addrs => (s.pool.fillCpu s.allocated size addrs).map fun r =>
      { s with pool := r.1, allocated := r.2, returned := none }
  | .allocCpu size loc addr => (s.pool.allocCpu s.allocated size loc addr).map fun r =>
      { pool := r.2.1, allocated := r.2.2, out := insert r.1.data s.out, returned := some r.1 }
  | .releaseCpu buffer => some
      { s with pool := s.pool.releaseCpu buffer, out := s.out.erase buffer.data, returned := none }

def system (A L : Type*) [DecidableEq A] : TransitionSystem (State A L) (Call A L) where
  init s := ∃ allocated, s = initial allocated
  step := step

/-! ## What the pool should know -/

/-- The keys of `cpu_used` are the buffers that are out, and `cpu_free` holds other buffers, each
of them once. -/
structure KnowsOut (pool : CommBufferPool A L) (out : Finset A) : Prop where
  keys : ∀ a, (pool.cpuUsed a).isSome ↔ a ∈ out
  disjoint : ∀ b ∈ pool.cpuFree, pool.cpuUsed b.data = none
  nodup : (pool.cpuFree.map CommBuffer.data).Nodup

/-- What a call has to do: `alloc_cpu` returns a buffer of the size it was asked for, with room
for it, and `release_cpu` takes back what is out and nothing else. -/
def AnswersRight (s s' : State A L) : Call A L → Prop
  | .fillCpu _ _ => True
  | .allocCpu size _ _ => ∃ b, s'.returned = some b ∧ b.size = size ∧ b.size ≤ b.cap
  | .releaseCpu buffer =>
      (buffer.data ∈ s.out → s'.pool.cpuFree = s.pool.cpuFree ++ [buffer]) ∧
        (buffer.data ∉ s.out → s'.pool = s.pool)

/-- A call of a run, with what should hold after it. -/
def Exact (t : TransitionSystem.Transition (State A L) (Call A L)) : Prop :=
  KnowsOut t.target.pool t.target.out ∧ AnswersRight t.source t.target t.action

/-- A call of `alloc_cpu` finds a free buffer. -/
def FindsBuffer (s : State A L) : Call A L → Prop
  | .allocCpu _ _ _ => s.pool.cpuFree ≠ []
  | _ => True

/-! ## The calls -/

theorem newChar_eq_some {allocated allocated' : Finset A} {addr : A}
    (h : newChar allocated addr = some allocated') :
    addr ∉ allocated ∧ allocated' = insert addr allocated := by
  unfold newChar at h
  split at h
  · cases h
  · next hfresh => exact ⟨hfresh, (Option.some.inj h).symm⟩

/-- What the invariant says of the memory besides: the pool and the callers hold allocated
buffers. -/
structure Inv (pool : CommBufferPool A L) (allocated out : Finset A) : Prop
    extends KnowsOut pool out where
  track : pool.track = true
  free_allocated : ∀ b ∈ pool.cpuFree, b.data ∈ allocated
  out_allocated : ∀ a ∈ out, a ∈ allocated

omit [DecidableEq A] in
theorem inv_create (allocated : Finset A) :
    Inv (create true : CommBufferPool A L) allocated ∅ where
  keys a := iff_of_false (by simp [create]) (Finset.notMem_empty a)
  disjoint _ hb := absurd hb List.not_mem_nil
  nodup := List.nodup_nil
  track := rfl
  free_allocated _ hb := absurd hb List.not_mem_nil
  out_allocated a ha := absurd ha (Finset.notMem_empty a)

variable {pool pool' : CommBufferPool A L} {allocated allocated' out : Finset A}

omit [DecidableEq A] in
/-- A buffer that is in use is not free. -/
theorem KnowsOut.notMem_out (hI : KnowsOut pool out) {b : CommBuffer A} (hb : b ∈ pool.cpuFree) :
    b.data ∉ out := by
  rw [← hI.keys, hI.disjoint b hb]
  exact Bool.false_ne_true

omit [DecidableEq A] in
/-- What is not allocated is not a key. -/
theorem Inv.cpuUsed_eq_none (hI : Inv pool allocated out) {a : A} (ha : a ∉ allocated) :
    pool.cpuUsed a = none := by
  rw [← Option.not_isSome_iff_eq_none, hI.keys]
  exact fun hout => ha (hI.out_allocated a hout)

omit [DecidableEq A] in
/-- Another free buffer, at an address that is not free. -/
theorem KnowsOut.free_concat (hI : KnowsOut pool out) {b : CommBuffer A}
    (hfree : ∀ b' ∈ pool.cpuFree, b'.data ≠ b.data) :
    ((pool.cpuFree ++ [b]).map CommBuffer.data).Nodup := by
  rw [List.map_append, List.nodup_append]
  refine ⟨hI.nodup, List.nodup_singleton _, fun a ha a' ha' => ?_⟩
  obtain ⟨b', hb', rfl⟩ := List.mem_map.mp ha
  rw [List.mem_singleton.mp ha']
  exact hfree b' hb'

/-- `new` gives a buffer that the pool keeps. -/
theorem Inv.free_new (hI : Inv pool allocated out) {b : CommBuffer A}
    (hfresh : b.data ∉ allocated) :
    Inv { pool with cpuFree := pool.cpuFree ++ [b] } (insert b.data allocated) out where
  keys := hI.keys
  disjoint b' hb' := by
    rcases List.mem_append.mp hb' with hb' | hb'
    · exact hI.disjoint b' hb'
    · rw [List.mem_singleton.mp hb']
      exact hI.cpuUsed_eq_none hfresh
  nodup := hI.free_concat fun b' hb' heq => hfresh (by
    rw [← heq]
    exact hI.free_allocated b' hb')
  track := hI.track
  free_allocated b' hb' := by
    rcases List.mem_append.mp hb' with hb' | hb'
    · exact Finset.mem_insert_of_mem (hI.free_allocated b' hb')
    · rw [List.mem_singleton.mp hb']
      exact Finset.mem_insert_self _ _
  out_allocated a ha := Finset.mem_insert_of_mem (hI.out_allocated a ha)

/-- `fill_cpu` adds free buffers at new addresses. -/
theorem Inv.fillCpu {size : ℕ} {addrs : List A} (hI : Inv pool allocated out)
    (h : pool.fillCpu allocated size addrs = some (pool', allocated')) :
    Inv pool' allocated' out := by
  induction addrs generalizing pool allocated with
  | nil =>
    obtain ⟨rfl, rfl⟩ := Prod.mk.inj (Option.some.inj h)
    exact hI
  | cons addr addrs ih =>
    unfold CommBufferPool.fillCpu at h
    obtain ⟨al, hal, hrest⟩ := Option.bind_eq_some_iff.mp h
    obtain ⟨hfresh, rfl⟩ := newChar_eq_some hal
    exact ih (hI.free_new (b := ⟨addr, size, size⟩) hfresh) hrest

/-- A buffer that is out comes back. -/
theorem Inv.give_back (hI : Inv pool allocated out) {b : CommBuffer A} (hout : b.data ∈ out) :
    Inv { pool with
        cpuUsed := Function.update pool.cpuUsed b.data none
        cpuFree := pool.cpuFree ++ [b] } allocated (out.erase b.data) where
  keys a := by
    by_cases ha : a = b.data
    · rw [ha]
      simp
    · dsimp only
      rw [Function.update_of_ne ha, hI.keys, Finset.mem_erase]
      exact (and_iff_right ha).symm
  disjoint b' hb' := by
    dsimp only
    rcases List.mem_append.mp hb' with hb' | hb'
    · have hne : b'.data ≠ b.data := fun heq => hI.notMem_out hb' (heq ▸ hout)
      rw [Function.update_of_ne hne]
      exact hI.disjoint b' hb'
    · rw [List.mem_singleton.mp hb']
      exact Function.update_self _ _ _
  nodup := hI.free_concat fun b' hb' heq => hI.notMem_out hb' (heq ▸ hout)
  track := hI.track
  free_allocated b' hb' := by
    rcases List.mem_append.mp hb' with hb' | hb'
    · exact hI.free_allocated b' hb'
    · rw [List.mem_singleton.mp hb']
      exact hI.out_allocated _ hout
  out_allocated a ha := hI.out_allocated a (Finset.mem_of_mem_erase ha)

/-- `release_cpu` moves a buffer that is out to the free ones, and refuses every other. -/
theorem Inv.releaseCpu (hI : Inv pool allocated out) (b : CommBuffer A) :
    Inv (pool.releaseCpu b) allocated (out.erase b.data) ∧
      (b.data ∈ out → (pool.releaseCpu b).cpuFree = pool.cpuFree ++ [b]) ∧
      (b.data ∉ out → pool.releaseCpu b = pool) := by
  unfold CommBufferPool.releaseCpu
  rw [if_pos hI.track]
  by_cases hout : b.data ∈ out
  · rw [if_pos ((hI.keys _).mpr hout)]
    exact ⟨hI.give_back hout, fun _ => rfl, fun hnot => absurd hout hnot⟩
  · rw [if_neg fun h => hout ((hI.keys _).mp h), Finset.erase_eq_of_notMem hout]
    exact ⟨hI, fun h => absurd h hout, fun _ => rfl⟩

/-- What `alloc_cpu` does with a free buffer: the one it returns stands at the address of the
free one or at a new one, and is recorded. -/
theorem allocCpu_concat {size : ℕ} {loc : L} {addr : A} {b buffer : CommBuffer A}
    {rest : List (CommBuffer A)} (hfree : pool.cpuFree = rest ++ [buffer])
    (hmem : buffer.data ∈ allocated)
    (h : pool.allocCpu allocated size loc addr = some (b, pool', allocated')) :
    b.size = size ∧ b.size ≤ b.cap ∧ b.data ∉ allocated.erase buffer.data ∧
      allocated' = insert b.data (allocated.erase buffer.data) ∧
      pool' = recordUsed { pool with cpuFree := rest } b.data loc := by
  unfold allocCpu at h
  rw [hfree, List.getLast?_concat, List.dropLast_concat] at h
  dsimp only at h
  split at h
  · obtain ⟨al, hal, heq⟩ := Option.map_eq_some_iff.mp h
    obtain ⟨hfresh, rfl⟩ := newChar_eq_some hal
    simp only [Prod.mk.injEq] at heq
    obtain ⟨rfl, rfl, rfl⟩ := heq
    exact ⟨rfl, le_rfl, hfresh, rfl, rfl⟩
  · next hcap =>
    simp only [Option.some.injEq, Prod.mk.injEq] at h
    obtain ⟨rfl, rfl, rfl⟩ := h
    exact ⟨rfl, Nat.le_of_not_lt hcap, Finset.notMem_erase _ _,
      (Finset.insert_erase hmem).symm, rfl⟩

/-- The last free buffer is taken out, at its own address or at one that is new when it is
gone. -/
theorem Inv.take_out (hI : Inv pool allocated out) {buffer : CommBuffer A}
    {rest : List (CommBuffer A)} (hfree : pool.cpuFree = rest ++ [buffer]) {a : A}
    (ha : a ∉ allocated.erase buffer.data) (loc : L) :
    Inv (recordUsed { pool with cpuFree := rest } a loc) (insert a (allocated.erase buffer.data))
      (insert a out) := by
  have hlast : buffer ∈ pool.cpuFree := by
    rw [hfree]
    exact List.mem_append_right _ (List.mem_singleton.mpr rfl)
  have hnodup := hI.nodup
  rw [hfree, List.map_append, List.nodup_append] at hnodup
  -- the other free buffers stay allocated when the last one is deleted
  have hrest : ∀ b ∈ rest, b ∈ pool.cpuFree ∧ b.data ∈ allocated.erase buffer.data := by
    intro b hb
    have hmem : b ∈ pool.cpuFree := by
      rw [hfree]
      exact List.mem_append_left _ hb
    refine ⟨hmem, Finset.mem_erase.mpr ⟨?_, hI.free_allocated b hmem⟩⟩
    exact hnodup.2.2 _ (List.mem_map_of_mem hb) _ (List.mem_singleton.mpr rfl)
  unfold recordUsed
  rw [if_pos hI.track]
  refine ⟨⟨fun a' => ?_, fun b hb => ?_, hnodup.1⟩, hI.track, fun b hb => ?_, fun a' ha' => ?_⟩
  · by_cases heq : a' = a
    · rw [heq]
      simp
    · dsimp only
      rw [Function.update_of_ne heq, hI.keys, Finset.mem_insert]
      exact (or_iff_right heq).symm
  · obtain ⟨hmem, hal⟩ := hrest b hb
    dsimp only
    have hne : b.data ≠ a := fun heq => ha (heq ▸ hal)
    rw [Function.update_of_ne hne]
    exact hI.disjoint b hmem
  · exact Finset.mem_insert_of_mem (hrest b hb).2
  · rcases Finset.mem_insert.mp ha' with rfl | ha'
    · exact Finset.mem_insert_self _ _
    · refine Finset.mem_insert_of_mem (Finset.mem_erase.mpr ⟨?_, hI.out_allocated a' ha'⟩)
      rintro rfl
      exact hI.notMem_out hlast ha'

/-! ## The theorem -/

variable {s s' : State A L}

/-- A call keeps the invariant and does what it should, unless `alloc_cpu` finds no free buffer:
then one is out that the pool does not know. -/
theorem step_exact (hI : Inv s.pool s.allocated s.out) {c : Call A L} (h : step s c = some s') :
    (FindsBuffer s c ∧ Inv s'.pool s'.allocated s'.out ∧ AnswersRight s s' c) ∨
      (¬ FindsBuffer s c ∧ ¬ KnowsOut s'.pool s'.out) := by
  cases c with
  | fillCpu size addrs =>
    obtain ⟨⟨pool, allocated⟩, hfill, rfl⟩ := Option.map_eq_some_iff.mp h
    exact Or.inl ⟨trivial, hI.fillCpu hfill, trivial⟩
  | releaseCpu buffer =>
    obtain rfl := Option.some.inj h
    exact Or.inl ⟨trivial, hI.releaseCpu buffer⟩
  | allocCpu size loc addr =>
    obtain ⟨⟨b, pool, allocated⟩, halloc, rfl⟩ := Option.map_eq_some_iff.mp h
    rcases List.eq_nil_or_concat' s.pool.cpuFree with hnil | ⟨rest, buffer, hconcat⟩
    · refine Or.inr ⟨fun hne => hne hnil, fun hknows => ?_⟩
      unfold allocCpu at halloc
      rw [hnil] at halloc
      obtain ⟨al, hal, heq⟩ := Option.map_eq_some_iff.mp halloc
      simp only [Prod.mk.injEq] at heq
      obtain ⟨rfl, rfl, rfl⟩ := heq
      have hkey := (hknows.keys addr).mpr (Finset.mem_insert_self _ _)
      rw [hI.cpuUsed_eq_none (newChar_eq_some hal).1] at hkey
      exact absurd hkey Bool.false_ne_true
    · have hmem : buffer ∈ s.pool.cpuFree := by
        rw [hconcat]
        exact List.mem_append_right _ (List.mem_singleton.mpr rfl)
      obtain ⟨hsize, hcap, hfresh, rfl, rfl⟩ :=
        allocCpu_concat hconcat (hI.free_allocated buffer hmem) halloc
      exact Or.inl ⟨List.ne_nil_of_mem hmem, hI.take_out hconcat hfresh loc, b, rfl, hsize, hcap⟩

/-- **The pool knows what is out**, after every call of a run, if and only if every call of
`alloc_cpu` has found a free buffer. -/
theorem exact_iff_finds_buffer {allocated : Finset A} {s : State A L}
    {trace : List (TransitionSystem.Transition (State A L) (Call A L))}
    (p : (system A L).Path (fun _ _ => True) (initial allocated) trace s) :
    (∀ t ∈ trace, Exact t) ↔ ∀ t ∈ trace, FindsBuffer t.source t.action := by
  refine p.forall_iff_forall (I := fun s => Inv s.pool s.allocated s.out) (inv_create allocated) ?_
  intro u c u' hI _ hstep
  rcases step_exact hI hstep with ⟨hfinds, hI', hanswers⟩ | ⟨hnot, hknows⟩
  · exact Or.inl ⟨⟨hI'.toKnowsOut, hanswers⟩, hfinds, hI'⟩
  · exact Or.inr ⟨fun hexact => hknows hexact.1, hnot⟩

instance (s : State A L) (c : Call A L) : Decidable (FindsBuffer s c) := by
  cases c <;> unfold FindsBuffer <;> infer_instance

/-- Two buffers of four bytes.  The larger of two requests makes the pool replace one of them, and
what comes back first is handed out again. -/
def replaced : List (Call ℕ ℕ) :=
  [.fillCpu 4 [1, 2], .allocCpu 8 31 2, .allocCpu 3 32 5, .releaseCpu ⟨2, 8, 8⟩,
    .releaseCpu ⟨2, 8, 8⟩, .allocCpu 6 33 7]

theorem exact_replaced :
    let trace := (system ℕ ℕ).traceOf (initial ∅) replaced
    trace.length = replaced.length ∧ ∀ t ∈ trace, Exact t :=
  ⟨by decide,
    (exact_iff_finds_buffer (TransitionSystem.Path.replay replaced (by decide))).mpr (by decide)⟩

/-- **The pool loses a buffer**: it does not record the one that it allocates when it is empty,
and refuses it when it is released. -/
theorem not_exact_empty : ∃ trace s,
    (system ℕ ℕ).Path (fun _ _ => True) (initial ∅) trace s ∧ ¬ ∀ t ∈ trace, Exact t := by
  refine ⟨_, _, TransitionSystem.Path.replay [.allocCpu 4 31 1, .releaseCpu ⟨1, 4, 4⟩]
    (by decide), fun hexact => ?_⟩
  have hrelease := hexact ⟨_, .releaseCpu ⟨1, 4, 4⟩, _⟩ (List.mem_cons_of_mem _ List.mem_cons_self)
  exact absurd (hrelease.2.1 (by decide)) (by decide)

end CommBufferPool
end ThreadUtils
