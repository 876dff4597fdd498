import Mathlib.Algebra.Ring.Defs
import ThreadUtils.DataStructures.SizeT
import ThreadUtils.Dgemm.Tiles
import ThreadUtils.Transition.System

/-!
# The tiled matrix product

The nodes of the graph of `test_dgemm_dfg`.  `split_task` cuts the matrices into tiles,
`product_state` pairs the tiles of `A` and `B`, `product_task` multiplies a pair, `sum_state` pairs
the products with the tiles of `C`, and `sum_task` adds a product to a tile of `C` in place.

The data in a queue may be taken in any order, and any number of workers execute a task.  The
handlers of the states are atomic.  The sum of a tile is not: a worker reads and writes the
elements of the matrix `C` one by one.  `cblas_dgemm` is the exact product, and only reads memory
that nobody writes, so that it is one step.

A tile of a product carries its data, which no other tile shares.  Its field `k`, the column of
the tile of `A`, and the fields `multiplied` to `added` of the state record the history and are
read by no step.
-/

namespace ThreadUtils
namespace Dgemm

variable {R : Type*}

/-- The sizes of the matrices: `A` is `m × k`, `B` is `k × n` and `C` is `m × n`. -/
structure Sizes where
  m : ℕ
  n : ℕ
  k : ℕ
  tileSize : ℕ
  m_pos : 0 < m
  n_pos : 0 < n
  k_pos : 0 < k
  tileSize_pos : 0 < tileSize

namespace Sizes

/-- `TM`. -/
def tm (d : Sizes) : ℕ := tileCount d.m d.tileSize

/-- `TN`. -/
def tn (d : Sizes) : ℕ := tileCount d.n d.tileSize

/-- `TK`. -/
def tk (d : Sizes) : ℕ := tileCount d.k d.tileSize

/-- The tile of `A` with these indices. -/
def tileA (d : Sizes) (i k : ℕ) : Tile := tileAt d.m d.k d.tileSize i k

/-- The tile of `B` with these indices. -/
def tileB (d : Sizes) (k j : ℕ) : Tile := tileAt d.k d.n d.tileSize k j

/-- The tile of `C` with these indices. -/
def tileC (d : Sizes) (i j : ℕ) : Tile := tileAt d.m d.n d.tileSize i j

end Sizes

/-- The matrices `A` and `B`, and `C` before the product. -/
structure Matrices (R : Type*) where
  a : ℕ → ℕ → R
  b : ℕ → ℕ → R
  c : ℕ → ℕ → R

/-- `MatrixTile`, of a product. -/
structure ProductTile (R : Type*) where
  row : ℕ
  col : ℕ
  rows : ℕ
  cols : ℕ
  data : ℕ → ℕ → R
  k : ℕ

/-- The indices of a product: the row of the tile of `A`, its column and the column of the tile
of `B`. -/
abbrev Triple := ℕ × ℕ × ℕ

/-- `std::tuple<MatrixTile *, MatrixTile *, MatrixTile *>`. -/
structure ProductTiles (R : Type*) where
  a : Tile
  b : Tile
  p : ProductTile R

/-- `std::pair<MatrixTile *, MatrixTile *>`. -/
structure SumTiles (R : Type*) where
  p : ProductTile R
  c : Tile

/-- A worker in the loops of `sum_task_exec`, at the element `row`, `col` of the tile.  `loaded`
is the element of `C` that it has read. -/
structure Summing (R : Type*) where
  tiles : SumTiles R
  row : ℕ
  col : ℕ
  loaded : Option R

/-- The program. -/
structure State (R : Type*) where
  /-- The tiles that `split_task` has still to make of each matrix. -/
  splitA : List Tile
  splitB : List Tile
  splitC : List Tile
  /-- The queues of `product_state`. -/
  productTileA : List Tile
  productTileB : List Tile
  /-- `ProductStateData`. -/
  aTiles : ℕ → Option Tile
  bTiles : ℕ → Option Tile
  /-- The queue of `product_task`. -/
  productTask : List (ProductTiles R)
  /-- The queues of `sum_state`. -/
  sumTileC : List Tile
  sumTileP : List (ProductTile R)
  sumPcTiles : List (SumTiles R)
  /-- `SumStateData`. -/
  sumQueues : ℕ → List (ProductTile R)
  cTiles : ℕ → Option Tile
  count : ℕ
  /-- The queue of `sum_task`, and its workers. -/
  sumTask : List (SumTiles R)
  summing : List (Summing R)
  /-- The memory of `C`. -/
  c : ℕ → ℕ → R
  /-- The `T_TileC` results. -/
  results : List Tile
  /-- An assertion has failed. -/
  aborted : Bool
  /-- The products made, and those whose addition has begun and ended. -/
  multiplied : List Triple
  begun : List Triple
  added : List Triple

/-- The state in which the matrices have been pushed. -/
def initial (d : Sizes) (x : Matrices R) : State R where
  splitA := tiles d.m d.k d.tileSize d.tileSize_pos
  splitB := tiles d.k d.n d.tileSize d.tileSize_pos
  splitC := tiles d.m d.n d.tileSize d.tileSize_pos
  productTileA := []
  productTileB := []
  aTiles := fun _ => none
  bTiles := fun _ => none
  productTask := []
  sumTileC := []
  sumTileP := []
  sumPcTiles := []
  sumQueues := fun _ => []
  cTiles := fun _ => none
  count := d.tm * d.tn * d.tk % sizeT
  sumTask := []
  summing := []
  c := x.c
  results := []
  aborted := false
  multiplied := []
  begun := []
  added := []

/-! ## The handlers -/

/-- `assert`. -/
def State.check (s : State R) (ok : Bool) : State R :=
  { s with aborted := s.aborted || !ok }

/-- `allocate_tile`.  The data that `new` returns is not read. -/
def allocateTile [Zero R] (rows cols row col k : ℕ) : ProductTile R where
  row := row
  col := col
  rows := rows
  cols := cols
  data := fun _ _ => 0
  k := k

/-- The tuple that `product_state` sends to `product_task`. -/
def productTiles [Zero R] (a b : Tile) : ProductTiles R where
  a := a
  b := b
  p := allocateTile a.rows b.cols a.row b.col a.col

/-- `product_state_exec_tile_a`. -/
def productStateExecTileA [Zero R] (d : Sizes) (s : State R) (tile : Tile) : State R :=
  { s.check (s.aTiles (tile.row * d.tk + tile.col)).isNone with
    aTiles := Function.update s.aTiles (tile.row * d.tk + tile.col) (some tile)
    productTask := s.productTask ++ (List.range d.tn).filterMap fun col =>
      (s.bTiles (tile.col * d.tn + col)).map fun b => productTiles tile b }

/-- `product_state_exec_tile_b`. -/
def productStateExecTileB [Zero R] (d : Sizes) (s : State R) (tile : Tile) : State R :=
  { s.check (s.bTiles (tile.row * d.tn + tile.col)).isNone with
    bTiles := Function.update s.bTiles (tile.row * d.tn + tile.col) (some tile)
    productTask := s.productTask ++ (List.range d.tm).filterMap fun row =>
      (s.aTiles (row * d.tk + tile.row)).map fun a => productTiles a tile }

/-- `cblas_dgemm`, of a tile of `A` and a tile of `B`. -/
def multiply [CommRing R] (x : Matrices R) (a b : Tile) (row col : ℕ) : R :=
  ∑ l ∈ Finset.range a.cols,
    x.a (a.matrixRow + row) (a.matrixCol + l) * x.b (b.matrixRow + l) (b.matrixCol + col)

/-- `product_task_exec`. -/
def productTaskExec [CommRing R] (x : Matrices R) (s : State R) (t : ProductTiles R) : State R :=
  let p : ProductTile R :=
    { t.p with row := t.a.row, col := t.b.col, data := multiply x t.a t.b }
  { s.check (t.a.rows = t.p.rows ∧ t.b.cols = t.p.cols ∧ t.a.cols = t.b.rows) with
    sumTileP := s.sumTileP ++ [p]
    multiplied := s.multiplied ++ [(t.a.row, t.a.col, t.b.col)] }

/-- `sum_state_exec_tile_c`. -/
def sumStateExecTileC (d : Sizes) (s : State R) (tile : Tile) : State R :=
  let idx := tile.row * d.tn + tile.col
  match (s.sumQueues idx).getLast? with
  | some p =>
      { s with
        sumQueues := Function.update s.sumQueues idx (s.sumQueues idx).dropLast
        sumTask := s.sumTask ++ [⟨p, tile⟩] }
  | none => { s with cTiles := Function.update s.cTiles idx (some tile) }

/-- `sum_state_exec_tile_p`. -/
def sumStateExecTileP (d : Sizes) (s : State R) (tile : ProductTile R) : State R :=
  let idx := tile.row * d.tn + tile.col
  match s.cTiles idx with
  | some c =>
      { s with
        cTiles := Function.update s.cTiles idx none
        sumTask := s.sumTask ++ [⟨tile, c⟩] }
  | none => { s with sumQueues := Function.update s.sumQueues idx (s.sumQueues idx ++ [tile]) }

/-- `sum_state_exec_tile_pc_tiles`. -/
def sumStateExecPcTiles (d : Sizes) (s : State R) (t : SumTiles R) : State R :=
  let s' := { s with count := addSizeT s.count (sizeT - 1) }
  if s'.count = 0 then { s' with results := s'.results ++ [t.c] }
  else sumStateExecTileC d s' t.c

/-- The indices of the product of a tile. -/
def ProductTile.triple (p : ProductTile R) : Triple :=
  (p.row, p.k, p.col)

/-- The beginning of `sum_task_exec`. -/
def State.beginSum (s : State R) (t : SumTiles R) : State R :=
  { s.check (t.p.rows = t.c.rows ∧ t.p.cols = t.c.cols) with
    summing := s.summing ++ [⟨t, 0, 0, none⟩]
    begun := s.begun ++ [t.p.triple] }

/-- The element of `C` that a worker is at. -/
def Summing.address (t : Summing R) : ℕ × ℕ :=
  (t.tiles.c.matrixRow + t.row, t.tiles.c.matrixCol + t.col)

/-- The next element of the tile. -/
def Summing.next (t : Summing R) : Summing R :=
  if t.col + 1 < t.tiles.c.cols then { t with col := t.col + 1, loaded := none }
  else { t with row := t.row + 1, col := 0, loaded := none }

/-- The next access of a worker in the loops of `sum_task_exec`: it reads an element, writes it,
or returns. -/
def State.sum [Add R] (s : State R) (t : Summing R) : State R :=
  match t.loaded with
  | some v =>
      { s with
        c := Function.update s.c t.address.1
          (Function.update (s.c t.address.1) t.address.2 (v + t.tiles.p.data t.row t.col))
        summing := s.summing ++ [t.next] }
  | none =>
      if t.row < t.tiles.c.rows then
        { s with summing := s.summing ++ [{ t with loaded := some (s.c t.address.1 t.address.2) }] }
      else
        { s with
          sumPcTiles := s.sumPcTiles ++ [t.tiles]
          added := s.added ++ [t.tiles.p.triple] }

/-! ## The steps -/

/-- What happens next.  The number tells which datum of a queue, or which worker of `sum_task`. -/
inductive Action where
  | splitA
  | splitB
  | splitC
  | tileA (n : ℕ)
  | tileB (n : ℕ)
  | product (n : ℕ)
  | tileC (n : ℕ)
  | tileP (n : ℕ)
  | pcTiles (n : ℕ)
  | beginSum (n : ℕ)
  | sum (n : ℕ)

/-- One step. -/
def step [CommRing R] (d : Sizes) (x : Matrices R) (s : State R) : Action → Option (State R)
  | .splitA =>
      match s.splitA with
      | [] => none
      | t :: rest => some { s with splitA := rest, productTileA := s.productTileA ++ [t] }
  | .splitB =>
      match s.splitB with
      | [] => none
      | t :: rest => some { s with splitB := rest, productTileB := s.productTileB ++ [t] }
  | .splitC =>
      match s.splitC with
      | [] => none
      | t :: rest => some { s with splitC := rest, sumTileC := s.sumTileC ++ [t] }
  | .tileA n => s.productTileA[n]?.map fun t =>
      productStateExecTileA d { s with productTileA := s.productTileA.eraseIdx n } t
  | .tileB n => s.productTileB[n]?.map fun t =>
      productStateExecTileB d { s with productTileB := s.productTileB.eraseIdx n } t
  | .product n => s.productTask[n]?.map fun t =>
      productTaskExec x { s with productTask := s.productTask.eraseIdx n } t
  | .tileC n => s.sumTileC[n]?.map fun t =>
      sumStateExecTileC d { s with sumTileC := s.sumTileC.eraseIdx n } t
  | .tileP n => s.sumTileP[n]?.map fun t =>
      sumStateExecTileP d { s with sumTileP := s.sumTileP.eraseIdx n } t
  | .pcTiles n => s.sumPcTiles[n]?.map fun t =>
      sumStateExecPcTiles d { s with sumPcTiles := s.sumPcTiles.eraseIdx n } t
  | .beginSum n => s.sumTask[n]?.map fun t =>
      State.beginSum { s with sumTask := s.sumTask.eraseIdx n } t
  | .sum n => s.summing[n]?.map fun t => State.sum { s with summing := s.summing.eraseIdx n } t

/-- The product of the matrices. -/
def system [CommRing R] (d : Sizes) (x : Matrices R) : TransitionSystem (State R) Action where
  init s := s = initial d x
  step := step d x

end Dgemm
end ThreadUtils
