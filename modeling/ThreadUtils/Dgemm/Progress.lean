import ThreadUtils.Dgemm.Count

/-!
# Every run ends with a result

## The potential

A tile goes through a number of stages, each step moves a tile or a product on by one, and an
addition has as many accesses as its tile has elements, twice.  So each datum has a number of steps
before it, what it gives rise to included, and their sum is the potential of the state.  A step
takes at least one away.  A tile that comes back to `sum_state` goes round again, which is paid for
by the product it goes out with; there are only so many products.

## The state at the end

When nothing can be done no datum is in a queue that somebody reads, so all tiles have been sent and
stored, all pairs were made and all products multiplied (`Quiet.count_multiplied`).  A product that
waits for its tile of `C` and a tile that waits exclude each other, so all products were added, and
then the counter has sent the result.

* `potential_lt` --- a step loses potential, so that no run is longer than the potential of the
  state it starts from.
* `Quiet.length_results` --- a run that cannot go on has sent the result.
-/

namespace ThreadUtils
namespace Dgemm

variable {R : Type*}

/-- The number of accesses that a worker of `sum_task` has still to make, and one. -/
def Summing.work (t : Summing R) : ℕ :=
  2 * ((t.tiles.c.rows - t.row) * t.tiles.c.cols - t.col) + (if t.loaded.isNone then 1 else 0) + 1

/-- A bound on the number of steps that a run has still to make. -/
def potential (d : Sizes) (s : State R) : ℕ :=
  2 * (s.splitA.length + s.splitB.length + s.splitC.length) + s.productTileA.length +
    s.productTileB.length + s.sumTileC.length + 2 * (d.total - s.multiplied.length) +
    s.sumTileP.length + (2 * (d.tileSize * d.tileSize) + 3) * (d.total - s.begun.length) +
    (s.summing.map Summing.work).sum + s.sumPcTiles.length

/-- The state has no next one. -/
def Quiet [CommRing R] (d : Sizes) (x : Matrices R) (s : State R) : Prop :=
  ∀ a, step d x s a = none

/-! ## The work of a worker -/

section

variable {t : Summing R}

theorem Summing.work_begin {t : SumTiles R} {size : ℕ} (hrows : t.c.rows ≤ size)
    (hcols : t.c.cols ≤ size) : (⟨t, 0, 0, none⟩ : Summing R).work < 2 * (size * size) + 3 := by
  have hle := Nat.mul_le_mul hrows hcols
  simp only [Summing.work, Nat.sub_zero, Option.isNone_none, if_true]
  omega

theorem Summing.work_load (h : t.loaded = none) (v : R) :
    { t with loaded := some v }.work + 1 = t.work := by
  simp [Summing.work, h]

theorem Summing.work_next {v : R} (h : t.loaded = some v) (hrow : t.row < t.tiles.c.rows)
    (hcol : t.col < t.tiles.c.cols) : t.next.work + 1 = t.work := by
  -- The row that the worker is in, and the rows after it.
  obtain ⟨k, hk⟩ : ∃ k, t.tiles.c.rows - t.row = k + 1 := ⟨t.tiles.c.rows - t.row - 1, by omega⟩
  have hnext : t.tiles.c.rows - (t.row + 1) = k := by omega
  have hwork : t.work = 2 * ((k + 1) * t.tiles.c.cols - t.col) + 1 := by
    rw [Summing.work, hk, h]
    rfl
  have hmul := Nat.add_one_mul k t.tiles.c.cols
  rw [hwork, Summing.next]
  split
  · simp only [Summing.work, hk, Option.isNone_none, if_true]
    omega
  · simp only [Summing.work, hnext, Option.isNone_none, if_true]
    omega

theorem Summing.two_le_work (h : t.loaded = none) : 2 ≤ t.work := by
  simp [Summing.work, h]

end

variable [CommRing R] {d : Sizes} {x : Matrices R} {s s' : State R}

omit [CommRing R] in
theorem potential_sumStateExecTileC (s : State R) (tile : Tile) :
    potential d (sumStateExecTileC d s tile) = potential d s := by
  rcases sumStateExecTileC_cases d s tile with ⟨p, rest, -, heq⟩ | ⟨-, heq⟩ <;> rw [heq] <;> rfl

/-- What a worker of `sum_task` is at, and what it has read. -/
structure Position (t : Summing R) : Prop where
  col_lt : t.col < t.tiles.c.cols
  row_lt : t.loaded ≠ none → t.row < t.tiles.c.rows

/-- **A step loses potential.** -/
theorem potential_lt (h : Invariant d x [] s) (hpos : ∀ t ∈ s.summing, Position t)
    (he : Effect d x s s') : potential d s' < potential d s := by
  have h' := h.effect he
  cases he with
  | splitA t rest hsplit =>
    simp only [potential, hsplit, List.length_cons, List.length_append, List.length_nil]
    omega
  | splitB t rest hsplit =>
    simp only [potential, hsplit, List.length_cons, List.length_append, List.length_nil]
    omega
  | splitC t rest hsplit =>
    simp only [potential, hsplit, List.length_cons, List.length_append, List.length_nil]
    omega
  | tileA n t ht =>
    have hlength := length_eraseIdx_of_getElem? ht
    simp only [potential, productStateExecTileA, State.check]
    omega
  | tileB n t ht =>
    have hlength := length_eraseIdx_of_getElem? ht
    simp only [potential, productStateExecTileB, State.check]
    omega
  | product n t ht =>
    have hle := length_le_total h'.count_multiplied_le
    simp only [potential, productTaskExec, State.check, List.length_append,
      List.length_singleton] at hle ⊢
    omega
  | tileC n t ht =>
    have hlength := length_eraseIdx_of_getElem? ht
    rw [potential_sumStateExecTileC]
    simp only [potential]
    omega
  | pairP n t c ht hc =>
    have hlength := length_eraseIdx_of_getElem? ht
    simp only [potential]
    omega
  | storeP n t ht hc =>
    have hlength := length_eraseIdx_of_getElem? ht
    simp only [potential]
    omega
  | result n t ht _ =>
    have hlength := length_eraseIdx_of_getElem? ht
    simp only [potential]
    omega
  | again n t ht _ =>
    have hlength := length_eraseIdx_of_getElem? ht
    rw [potential_sumStateExecTileC]
    simp only [potential]
    omega
  | beginSum n t ht =>
    have hle := length_le_total h'.count_begun_le
    have hmatched := h.products.of_sumTask t (List.mem_of_getElem? ht)
    have hwork : (⟨t, 0, 0, none⟩ : Summing R).work < 2 * (d.tileSize * d.tileSize) + 3 := by
      refine Summing.work_begin ?_ ?_ <;> rw [hmatched.tile]
      · exact Nat.min_le_right _ _
      · exact Nat.min_le_right _ _
    simp only [potential, State.beginSum, State.check, List.length_append, List.length_singleton,
      List.map_append, List.map_singleton, List.sum_append, List.sum_singleton] at hle ⊢
    obtain ⟨k, hk⟩ : ∃ k, d.total - s.begun.length = k + 1 :=
      ⟨d.total - s.begun.length - 1, by omega⟩
    have hnext : d.total - (s.begun.length + 1) = k := by omega
    rw [hk, hnext, Nat.mul_succ]
    omega
  | load n t ht hnone hrow =>
    have hsum := sum_map_eraseIdx ht Summing.work
    have hwork := Summing.work_load hnone (s.c t.address.1 t.address.2)
    simp only [potential, List.map_append, List.map_singleton, List.sum_append,
      List.sum_singleton]
    omega
  | store n t v ht hv =>
    obtain ⟨hcol, hrow⟩ := hpos t (List.mem_of_getElem? ht)
    have hsum := sum_map_eraseIdx ht Summing.work
    have hwork := Summing.work_next hv (hrow (by simp [hv])) hcol
    simp only [potential, List.map_append, List.map_singleton, List.sum_append,
      List.sum_singleton]
    omega
  | endSum n t ht hnone hrow =>
    have hsum := sum_map_eraseIdx ht Summing.work
    have hwork := Summing.two_le_work hnone
    simp only [potential, List.length_append, List.length_singleton]
    omega

/-! ## A run that cannot go on -/

namespace Quiet

/-- A list that no step takes an element of is empty. -/
theorem eq_nil {α β : Type*} {l : List α} {f : α → β} (h : l[0]?.map f = none) : l = [] := by
  rw [Option.map_eq_none_iff] at h
  exact List.length_eq_zero_iff.mp (Nat.le_zero.mp (List.getElem?_eq_none_iff.mp h))

/-- Nothing is under way. -/
theorem nil (h : Quiet d x s) : (s.splitA = [] ∧ s.splitB = [] ∧ s.splitC = []) ∧
    (s.productTileA = [] ∧ s.productTileB = [] ∧ s.productTask = []) ∧
    (s.sumTileC = [] ∧ s.sumTileP = [] ∧ s.sumPcTiles = []) ∧ s.sumTask = [] ∧ s.summing = [] := by
  have hA : step d x s .splitA = none := h .splitA
  have hB : step d x s .splitB = none := h .splitB
  have hC : step d x s .splitC = none := h .splitC
  simp only [step] at hA hB hC
  refine ⟨⟨?_, ?_, ?_⟩, ⟨eq_nil (h (.tileA 0)), eq_nil (h (.tileB 0)), eq_nil (h (.product 0))⟩,
    ⟨eq_nil (h (.tileC 0)), eq_nil (h (.tileP 0)), eq_nil (h (.pcTiles 0))⟩,
    eq_nil (h (.beginSum 0)), eq_nil (h (.sum 0))⟩
  · split at hA
    · assumption
    · cases hA
  · split at hB
    · assumption
    · cases hB
  · split at hC
    · assumption
    · cases hC

/-- Every product has been made. -/
theorem count_multiplied (h : Quiet d x s) (hinv : Invariant d x [] s) (τ : Triple) :
    s.multiplied.count τ = if d.HasProduct τ then 1 else 0 := by
  obtain ⟨⟨hsplitA, hsplitB, -⟩, ⟨htileA, htileB, htask⟩, -⟩ := h.nil
  have htilesA := hinv.tilesA
  have htilesB := hinv.tilesB
  have honce := hinv.pairs.once τ
  rw [hsplitA, htileA] at htilesA
  rw [hsplitB, htileB] at htilesB
  rw [htask, List.countP_nil, Nat.zero_add] at honce
  rw [honce]
  refine if_congr ⟨fun hcreated => hcreated.1, fun hrange => ?_⟩ rfl rfl
  exact ⟨hrange, htilesA.isSome hrange.1 hrange.2.1, htilesB.isSome hrange.2.1 hrange.2.2⟩

/-- When there is no result, every product has been added. -/
theorem count_added (h : Quiet d x s) (hinv : Invariant d x [] s) (hresults : s.results = [])
    (τ : Triple) : s.added.count τ = if d.HasProduct τ then 1 else 0 := by
  obtain ⟨⟨-, -, hsplitC⟩, -, ⟨htileC, htileP, hpc⟩, htask, hsumming⟩ := h.nil
  have htilesC := hinv.tilesC
  have hwaiting := hinv.products.waiting τ
  have hadding := hinv.products.adding τ
  rw [hsplitC, List.nil_append, State.away, htileC, htask, hsumming, hpc, hresults] at htilesC
  rw [htileP, htask, h.count_multiplied hinv] at hwaiting
  rw [hsumming] at hadding
  simp only [List.countP_nil] at hwaiting hadding
  by_cases hτ : d.HasProduct τ
  · have hqueue := hinv.idle _ (htilesC.isSome hτ.1 hτ.2.2)
    rw [queued, hqueue, List.countP_nil] at hwaiting
    omega
  · rw [if_neg hτ] at hwaiting ⊢
    omega

/-- **A run that cannot go on has sent the result.** -/
theorem length_results (h : Quiet d x s) (hinv : Invariant d x [] s)
    (hcounted : Counted d.total s) : s.results.length = 1 := by
  have hlength := hcounted.results
  split at hlength
  · exact hlength
  · next htotal =>
    obtain ⟨-, -, ⟨-, -, hpc⟩, -⟩ := h.nil
    have hadded := length_eq_total (h.count_added hinv (List.length_eq_zero_iff.mp hlength))
    rw [State.known, hpc, List.length_nil, Nat.sub_zero] at htotal
    exact absurd hadded htotal

end Quiet

end Dgemm
end ThreadUtils
