import Mathlib.Algebra.BigOperators.Intervals

/-!
# The tiles of a matrix

A matrix is cut into square tiles; those of the last row and of the last column are smaller when
the size of the matrix is no multiple of the size of the tiles.

* `tiles_eq` --- the loops of `split_task_exec` make one tile for each pair of indices.
* `sum_tiles` --- a sum over the columns of a matrix is the sum over its tiles.
-/

namespace ThreadUtils
namespace Dgemm

/-- `for (i = 0; i < n; i += size)`, from `i` on. -/
def loop (n size : ℕ) (hsize : 0 < size) (i : ℕ) : List ℕ :=
  if i < n then i :: loop n size hsize (i + size) else []
termination_by n - i

/-- `n / size + (n % size == 0 ? 0 : 1)`. -/
def tileCount (n size : ℕ) : ℕ :=
  n / size + if n % size = 0 then 0 else 1

/-- `MatrixTile`, of a matrix whose elements it does not own. -/
structure Tile where
  row : ℕ
  col : ℕ
  rows : ℕ
  cols : ℕ
  matrixRow : ℕ
  matrixCol : ℕ
  deriving DecidableEq

/-- The tiles that `split_task_exec` makes of a matrix. -/
def tiles (rows cols size : ℕ) (hsize : 0 < size) : List Tile :=
  (loop rows size hsize 0).flatMap fun i => (loop cols size hsize 0).map fun j =>
    { row := i / size
      col := j / size
      rows := min (rows - i) size
      cols := min (cols - j) size
      matrixRow := i
      matrixCol := j }

/-- The tile in the row `i` and the column `j` of the tiles. -/
def tileAt (rows cols size i j : ℕ) : Tile where
  row := i
  col := j
  rows := min (rows - i * size) size
  cols := min (cols - j * size) size
  matrixRow := i * size
  matrixCol := j * size

variable {n size : ℕ}

/-- The tile with the index `i` begins inside of the matrix. -/
theorem lt_tileCount_iff (hsize : 0 < size) {i : ℕ} : i < tileCount n size ↔ i * size < n := by
  have hdiv := Nat.div_add_mod n size
  have hmod := Nat.mod_lt n hsize
  unfold tileCount
  constructor
  · intro h
    split at h
    · next hzero =>
      have hle : (i + 1) * size ≤ n / size * size := Nat.mul_le_mul_right size (by omega)
      rw [Nat.add_mul, mul_comm (n / size)] at hle
      omega
    · next hpos =>
      have hle : i * size ≤ n / size * size := Nat.mul_le_mul_right size (by omega)
      rw [mul_comm (n / size)] at hle
      omega
  · intro h
    by_contra hge
    split at hge
    · have hle : n / size * size ≤ i * size := Nat.mul_le_mul_right size (by omega)
      rw [mul_comm (n / size)] at hle
      omega
    · have hle : (n / size + 1) * size ≤ i * size := Nat.mul_le_mul_right size (by omega)
      rw [Nat.add_mul, mul_comm (n / size)] at hle
      omega

theorem tileCount_pos (hsize : 0 < size) (hn : 0 < n) : 0 < tileCount n size :=
  (lt_tileCount_iff hsize).mpr (by omega)

/-- The tile that an element is in. -/
theorem div_lt_tileCount (hsize : 0 < size) {x : ℕ} (hx : x < n) : x / size < tileCount n size :=
  (lt_tileCount_iff hsize).mpr ((Nat.div_mul_le_self x size).trans_lt hx)

theorem loop_mul (hsize : 0 < size) (i : ℕ) : loop n size hsize (i * size) =
    (List.range' i (tileCount n size - i)).map (· * size) := by
  obtain ⟨k, hk⟩ : ∃ k, tileCount n size - i = k := ⟨_, rfl⟩
  induction k generalizing i with
  | zero =>
    rw [loop, if_neg, hk]
    · rfl
    · rw [← lt_tileCount_iff hsize]
      omega
  | succ k ih =>
    have hlt : i < tileCount n size := by omega
    rw [loop, if_pos ((lt_tileCount_iff hsize).mp hlt), hk, List.range'_succ, List.map_cons,
      ← Nat.succ_mul, ih (i + 1) (by omega)]
    congr 3
    omega

/-- The values of the loop are the multiples of the size. -/
theorem loop_eq (hsize : 0 < size) :
    loop n size hsize 0 = (List.range (tileCount n size)).map (· * size) := by
  have hloop := loop_mul (n := n) hsize 0
  rw [Nat.zero_mul, Nat.sub_zero, ← List.range_eq_range'] at hloop
  exact hloop

/-- **The tiles of a matrix**, one for each pair of indices. -/
theorem tiles_eq (rows cols : ℕ) (hsize : 0 < size) : tiles rows cols size hsize =
    (List.range (tileCount rows size)).flatMap fun i =>
      (List.range (tileCount cols size)).map fun j => tileAt rows cols size i j := by
  rw [tiles, loop_eq hsize, loop_eq hsize, List.flatMap_map]
  refine List.flatMap_congr fun i _ => ?_
  rw [List.map_map]
  refine List.map_congr_left fun j _ => ?_
  simp only [Function.comp_apply, Nat.mul_div_cancel _ hsize, tileAt]

/-- `tiles_mem[type].reserve(..)` reserves memory for as many tiles as are made. -/
theorem length_tiles (rows cols : ℕ) (hsize : 0 < size) :
    (tiles rows cols size hsize).length = tileCount rows size * tileCount cols size := by
  rw [tiles_eq, List.length_flatMap]
  simp only [List.length_map, List.length_range, List.map_const', List.sum_replicate,
    Nat.nsmul_eq_mul]

/-- **A sum over the tiles.** -/
theorem sum_tiles {R : Type*} [AddCommMonoid R] (hsize : 0 < size) (f : ℕ → R) :
    ∑ k ∈ Finset.range (tileCount n size), ∑ l ∈ Finset.range (min (n - k * size) size),
      f (k * size + l) = ∑ l ∈ Finset.range n, f l := by
  have hupto : ∀ t, ∑ k ∈ Finset.range t, ∑ l ∈ Finset.range (min (n - k * size) size),
      f (k * size + l) = ∑ l ∈ Finset.range (min n (t * size)), f l := by
    intro t
    induction t with
    | zero => simp
    | succ t ih =>
      rw [Finset.sum_range_succ, ih, Nat.succ_mul]
      rcases Nat.le_total (t * size) n with hle | hle
      · have hmin : min n (t * size + size) = t * size + min (n - t * size) size := by omega
        rw [hmin, Finset.sum_range_add, min_eq_right hle]
      · have hzero : min (n - t * size) size = 0 := by omega
        rw [hzero, Finset.sum_range_zero, add_zero, min_eq_left hle,
          min_eq_left (hle.trans (Nat.le_add_right _ _))]
  have hge : n ≤ tileCount n size * size :=
    not_lt.mp fun hlt => lt_irrefl _ ((lt_tileCount_iff hsize).mpr hlt)
  rw [hupto, min_eq_left hge]

end Dgemm
end ThreadUtils
