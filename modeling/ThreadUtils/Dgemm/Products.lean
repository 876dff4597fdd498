import ThreadUtils.Dgemm.Pairing

/-!
# The products

A product waits until its tile of `C` is there, and leaves with it.

## From the pair to the addition

`product_task` multiplies a pair and sends the product, which comes to `sum_state`.  There it is put
into the queue of its tile of `C`, or leaves at once with the tile.  `Products` counts the products
with given indices over these places: what was multiplied is on its way to `sum_state`, in the
queue, on its way to `sum_task`, or its addition has begun; and what has begun is under way or has
ended.  So no product is added more often than it was multiplied.

The queues are indexed by numbers, and a product is in the queue of its own index.  This is what
makes a match right: the tile of `C` with the index takes a product from the queue with the
index, so both have the same row and column (`Products.matched`).

* `Products.matched` --- a product that waits for a tile of `C` leaves the queue.
* `Products.sumTileP` --- a product that arrives is added at once when its tile of `C` is there.
-/

namespace ThreadUtils
namespace Dgemm

variable {R : Type*}

/-- The element `X`, `Y` of the product of the column `k` of the tiles of `A` and the row `k` of
the tiles of `B`. -/
def slice [CommRing R] (d : Sizes) (x : Matrices R) (k X Y : ℕ) : R :=
  ∑ l ∈ Finset.range (min (d.k - k * d.tileSize) d.tileSize),
    x.a X (k * d.tileSize + l) * x.b (k * d.tileSize + l) Y

/-- The tile is the product of the tiles of `A` and `B` with its indices. -/
structure IsProduct [CommRing R] (d : Sizes) (x : Matrices R) (p : ProductTile R) : Prop where
  row_lt : p.row < d.tm
  k_lt : p.k < d.tk
  col_lt : p.col < d.tn
  rows : p.rows = (d.tileC p.row p.col).rows
  cols : p.cols = (d.tileC p.row p.col).cols
  data : ∀ r c, p.data r c = slice d x p.k (p.row * d.tileSize + r) (p.col * d.tileSize + c)

/-- A product and the tile of `C` that it is added to. -/
structure Matched [CommRing R] (d : Sizes) (x : Matrices R) (t : SumTiles R) : Prop where
  product : IsProduct d x t.p
  tile : t.c = d.tileC t.p.row t.p.col

/-- The number of products with these indices that wait for their tile of `C`. -/
def queued (d : Sizes) (sumQueues : ℕ → List (ProductTile R)) (τ : Triple) : ℕ :=
  (sumQueues (τ.1 * d.tn + τ.2.2)).countP fun p => p.triple = τ

/-- The products on their way to the matrix `C`. -/
structure Products [CommRing R] (d : Sizes) (x : Matrices R) (sumTileP : List (ProductTile R))
    (sumQueues : ℕ → List (ProductTile R)) (sumTask : List (SumTiles R))
    (summing : List (Summing R)) (multiplied begun added : List Triple) : Prop where
  of_sumTileP : ∀ p ∈ sumTileP, IsProduct d x p
  of_sumQueues : ∀ idx, ∀ p ∈ sumQueues idx, IsProduct d x p ∧ p.row * d.tn + p.col = idx
  of_sumTask : ∀ t ∈ sumTask, Matched d x t
  of_summing : ∀ t ∈ summing, Matched d x t.tiles
  /-- Each product is in one place until its addition begins. -/
  waiting : ∀ τ, (sumTileP.countP fun p => p.triple = τ) + queued d sumQueues τ +
    (sumTask.countP fun t => t.p.triple = τ) + begun.count τ = multiplied.count τ
  /-- Each addition that has begun is under way, or has ended. -/
  adding : ∀ τ, begun.count τ = (summing.countP fun t => t.tiles.p.triple = τ) + added.count τ

theorem count_concat (l : List Triple) (σ τ : Triple) :
    (l ++ [σ]).count τ = l.count τ + if σ = τ then 1 else 0 := by
  rw [List.count_append, List.count_singleton]
  simp only [beq_iff_eq]

theorem countP_concat {α : Type*} (l : List α) (f : α → Triple) (a : α) (τ : Triple) :
    ((l ++ [a]).countP fun b => f b = τ) =
      (l.countP fun b => f b = τ) + if f a = τ then 1 else 0 := by
  rw [List.countP_append, List.countP_singleton]
  simp only [decide_eq_true_eq]

theorem countP_eraseIdx_triple {α : Type*} {l : List α} {n : ℕ} {a : α} (h : l[n]? = some a)
    (f : α → Triple) (τ : Triple) : (l.countP fun b => f b = τ) =
      ((l.eraseIdx n).countP fun b => f b = τ) + if f a = τ then 1 else 0 := by
  rw [countP_eraseIdx h]
  simp only [decide_eq_true_eq]

/-- A product is put into its queue. -/
theorem queued_update (d : Sizes) (sumQueues : ℕ → List (ProductTile R)) (p : ProductTile R)
    (τ : Triple) :
    queued d (Function.update sumQueues (p.row * d.tn + p.col)
      (sumQueues (p.row * d.tn + p.col) ++ [p])) τ =
      queued d sumQueues τ + if p.triple = τ then 1 else 0 := by
  rw [queued, queued]
  by_cases hidx : τ.1 * d.tn + τ.2.2 = p.row * d.tn + p.col
  · rw [hidx, Function.update_self, countP_concat]
  · rw [Function.update_of_ne hidx, if_neg, Nat.add_zero]
    rintro rfl
    exact hidx rfl

/-- A product is taken out of its queue. -/
theorem queued_of_concat {d : Sizes} {sumQueues : ℕ → List (ProductTile R)} {p : ProductTile R}
    {rest : List (ProductTile R)} (h : sumQueues (p.row * d.tn + p.col) = rest ++ [p])
    (τ : Triple) : queued d sumQueues τ =
      queued d (Function.update sumQueues (p.row * d.tn + p.col) rest) τ +
        if p.triple = τ then 1 else 0 := by
  have hback := queued_update d (Function.update sumQueues (p.row * d.tn + p.col) rest) p τ
  rwa [Function.update_self, Function.update_idem, ← h, Function.update_eq_self] at hback

variable [CommRing R] {d : Sizes} {x : Matrices R}

/-- **The product of a pair** is the one with the indices of the pair. -/
theorem isProduct_of_paired {t : ProductTiles R} (h : Paired d t) (hrow : t.a.row < d.tm)
    (hk : t.a.col < d.tk) (hcol : t.b.col < d.tn) :
    IsProduct d x { t.p with row := t.a.row, col := t.b.col, data := multiply x t.a t.b } where
  row_lt := hrow
  k_lt := by
    rw [← h.k] at hk
    exact hk
  col_lt := hcol
  rows := by
    have hrows := h.rows
    rw [h.a] at hrows
    exact hrows
  cols := by
    have hcols := h.cols
    rw [h.b] at hcols
    exact hcols
  data r c := by
    change multiply x t.a t.b r c = slice d x t.p.k _ _
    rw [h.k, multiply, h.a, h.b]
    rfl

namespace Products

variable {sumTileP : List (ProductTile R)} {sumQueues : ℕ → List (ProductTile R)}
  {sumTask : List (SumTiles R)} {summing : List (Summing R)} {multiplied begun added : List Triple}

theorem start : Products d x [] (fun _ => []) [] [] [] [] [] where
  of_sumTileP p hp := by cases hp
  of_sumQueues idx p hp := by cases hp
  of_sumTask t ht := by cases ht
  of_summing t ht := by cases ht
  waiting τ := rfl
  adding τ := rfl

/-- `product_task` sends a product. -/
theorem product (h : Products d x sumTileP sumQueues sumTask summing multiplied begun added)
    {p : ProductTile R} (hp : IsProduct d x p) :
    Products d x (sumTileP ++ [p]) sumQueues sumTask summing (multiplied ++ [p.triple]) begun
      added where
  of_sumTileP q hq := by
    rcases List.mem_append.mp hq with hq | hq
    · exact h.of_sumTileP q hq
    · rwa [List.mem_singleton.mp hq]
  of_sumQueues := h.of_sumQueues
  of_sumTask := h.of_sumTask
  of_summing := h.of_summing
  waiting τ := by
    have hwaiting := h.waiting τ
    rw [countP_concat, count_concat]
    omega
  adding := h.adding

/-- **A product leaves its queue** with the tile of `C`. -/
theorem matched (h : Products d x sumTileP sumQueues sumTask summing multiplied begun added)
    {p : ProductTile R} {rest : List (ProductTile R)} {c : Tile} (hcol : c.col < d.tn)
    (hc : c = d.tileC c.row c.col)
    (hp : sumQueues (c.row * d.tn + c.col) = rest ++ [p]) :
    Products d x sumTileP (Function.update sumQueues (c.row * d.tn + c.col) rest)
      (sumTask ++ [⟨p, c⟩]) summing multiplied begun added := by
  obtain ⟨hproduct, hidx⟩ := h.of_sumQueues _ p (hp ▸ List.mem_concat_self)
  obtain ⟨hprow, hpcol⟩ := index_inj hproduct.col_lt hcol hidx
  refine ⟨h.of_sumTileP, fun idx q hq => ?_, fun t ht => ?_, h.of_summing, fun τ => ?_, h.adding⟩
  · by_cases hat : idx = c.row * d.tn + c.col
    · subst hat
      rw [Function.update_self] at hq
      exact h.of_sumQueues _ q (hp ▸ List.mem_append_left _ hq)
    · rw [Function.update_of_ne hat] at hq
      exact h.of_sumQueues idx q hq
  · rcases List.mem_append.mp ht with ht | ht
    · exact h.of_sumTask t ht
    · obtain rfl := List.mem_singleton.mp ht
      refine ⟨hproduct, ?_⟩
      rw [hprow, hpcol]
      exact hc
  · have hwaiting := h.waiting τ
    rw [← hidx] at hp ⊢
    rw [queued_of_concat hp] at hwaiting
    rw [countP_concat sumTask (fun t => t.p.triple)]
    dsimp only
    omega

/-- **A product arrives** when its tile of `C` is there. -/
theorem pairP (h : Products d x sumTileP sumQueues sumTask summing multiplied begun added) {n : ℕ}
    {p : ProductTile R} (hp : sumTileP[n]? = some p) :
    Products d x (sumTileP.eraseIdx n) sumQueues (sumTask ++ [⟨p, d.tileC p.row p.col⟩]) summing
      multiplied begun added where
  of_sumTileP q hq := h.of_sumTileP q (List.mem_of_mem_eraseIdx hq)
  of_sumQueues := h.of_sumQueues
  of_sumTask t ht := by
    rcases List.mem_append.mp ht with ht | ht
    · exact h.of_sumTask t ht
    · obtain rfl := List.mem_singleton.mp ht
      exact ⟨h.of_sumTileP p (List.mem_of_getElem? hp), rfl⟩
  of_summing := h.of_summing
  waiting τ := by
    have hwaiting := h.waiting τ
    rw [countP_eraseIdx_triple hp] at hwaiting
    rw [countP_concat sumTask (fun t => t.p.triple)]
    dsimp only
    omega
  adding := h.adding

/-- A product arrives when its tile of `C` is not there. -/
theorem storeP (h : Products d x sumTileP sumQueues sumTask summing multiplied begun added) {n : ℕ}
    {p : ProductTile R} (hp : sumTileP[n]? = some p) :
    Products d x (sumTileP.eraseIdx n) (Function.update sumQueues (p.row * d.tn + p.col)
      (sumQueues (p.row * d.tn + p.col) ++ [p])) sumTask summing multiplied begun added where
  of_sumTileP q hq := h.of_sumTileP q (List.mem_of_mem_eraseIdx hq)
  of_sumQueues idx q hq := by
    by_cases hat : idx = p.row * d.tn + p.col
    · subst hat
      rw [Function.update_self] at hq
      rcases List.mem_append.mp hq with hq | hq
      · exact h.of_sumQueues _ q hq
      · obtain rfl := List.mem_singleton.mp hq
        exact ⟨h.of_sumTileP q (List.mem_of_getElem? hp), rfl⟩
    · rw [Function.update_of_ne hat] at hq
      exact h.of_sumQueues idx q hq
  of_sumTask := h.of_sumTask
  of_summing := h.of_summing
  waiting τ := by
    have hwaiting := h.waiting τ
    rw [countP_eraseIdx_triple hp] at hwaiting
    rw [queued_update]
    omega
  adding := h.adding

/-- A worker of `sum_task` begins an addition. -/
theorem beginSum (h : Products d x sumTileP sumQueues sumTask summing multiplied begun added)
    {n : ℕ} {t : SumTiles R} (ht : sumTask[n]? = some t) :
    Products d x sumTileP sumQueues (sumTask.eraseIdx n) (summing ++ [⟨t, 0, 0, none⟩]) multiplied
      (begun ++ [t.p.triple]) added where
  of_sumTileP := h.of_sumTileP
  of_sumQueues := h.of_sumQueues
  of_sumTask u hu := h.of_sumTask u (List.mem_of_mem_eraseIdx hu)
  of_summing u hu := by
    rcases List.mem_append.mp hu with hu | hu
    · exact h.of_summing u hu
    · obtain rfl := List.mem_singleton.mp hu
      exact h.of_sumTask t (List.mem_of_getElem? ht)
  waiting τ := by
    have hwaiting := h.waiting τ
    rw [countP_eraseIdx_triple ht (fun t => t.p.triple)] at hwaiting
    rw [count_concat]
    omega
  adding τ := by
    have hadding := h.adding τ
    rw [count_concat, countP_concat summing (fun t => t.tiles.p.triple)]
    dsimp only
    omega

/-- A worker of `sum_task` accesses an element. -/
theorem access (h : Products d x sumTileP sumQueues sumTask summing multiplied begun added)
    {n : ℕ} {t t' : Summing R} (ht : summing[n]? = some t) (htiles : t'.tiles = t.tiles) :
    Products d x sumTileP sumQueues sumTask (summing.eraseIdx n ++ [t']) multiplied begun
      added where
  of_sumTileP := h.of_sumTileP
  of_sumQueues := h.of_sumQueues
  of_sumTask := h.of_sumTask
  of_summing u hu := by
    rcases List.mem_append.mp hu with hu | hu
    · exact h.of_summing u (List.mem_of_mem_eraseIdx hu)
    · obtain rfl := List.mem_singleton.mp hu
      rw [htiles]
      exact h.of_summing t (List.mem_of_getElem? ht)
  waiting := h.waiting
  adding τ := by
    rw [h.adding τ, countP_eraseIdx_triple ht (fun t => t.tiles.p.triple),
      countP_concat (summing.eraseIdx n) (fun t => t.tiles.p.triple), htiles]

/-- A worker of `sum_task` ends an addition. -/
theorem endSum (h : Products d x sumTileP sumQueues sumTask summing multiplied begun added)
    {n : ℕ} {t : Summing R} (ht : summing[n]? = some t) :
    Products d x sumTileP sumQueues sumTask (summing.eraseIdx n) multiplied begun
      (added ++ [t.tiles.p.triple]) where
  of_sumTileP := h.of_sumTileP
  of_sumQueues := h.of_sumQueues
  of_sumTask := h.of_sumTask
  of_summing u hu := h.of_summing u (List.mem_of_mem_eraseIdx hu)
  waiting := h.waiting
  adding τ := by
    have hadding := h.adding τ
    rw [countP_eraseIdx_triple ht (fun t => t.tiles.p.triple)] at hadding
    rw [count_concat]
    omega

end Products

end Dgemm
end ThreadUtils
