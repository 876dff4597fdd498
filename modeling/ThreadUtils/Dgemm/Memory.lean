import Mathlib.Tactic.Abel
import ThreadUtils.Dgemm.Count

/-!
# The matrix C

In every state, an element of `C` is its initial value plus what the additions that have ended
added to it, and what those under way have added so far.

## Single accesses

The workers of `sum_task` read an element, add and write it back, and other workers may come in
between.  So an addition is not one step here: `Summing` has the place that it has come to
and, between the read and the write, the value that was read.  The value is written back as the sum
with the element of the product, which is right only if nobody has written there since
(`Memory.loaded`).

## Why nobody has

Two workers at one element would be in one tile of `C`, since the tiles do not overlap
(`Sizes.inTile_iff`), and so both would have this tile in hand.  There is one of each
(`Invariant.one_worker`).  This is the only place where the circulation of the tiles is used for
the values, and without it an addition could be lost.

The sums are in a commutative ring; of floating point numbers the order of the additions would show.

* `Invariant.address_ne` --- no worker writes an element that another one is at.
* `memory_of_reachable` --- the value of `C` in every state of every run.
-/

namespace ThreadUtils
namespace Dgemm

variable {R : Type*}

/-- The worker has passed the element. -/
def Summing.Passed (t : Summing R) (X Y : ℕ) : Prop :=
  X < t.address.1 ∨ X = t.address.1 ∧ Y < t.address.2

instance (t : Summing R) (X Y : ℕ) : Decidable (t.Passed X Y) :=
  inferInstanceAs (Decidable (_ ∨ _))

/-- The element is in the tile of `C` of the product. -/
def Sizes.InTile (d : Sizes) (τ : Triple) (X Y : ℕ) : Prop :=
  X / d.tileSize = τ.1 ∧ Y / d.tileSize = τ.2.2

instance (d : Sizes) (τ : Triple) (X Y : ℕ) : Decidable (d.InTile τ X Y) :=
  inferInstanceAs (Decidable (_ ∧ _))

/-! ## The elements of a tile -/

section

variable {d : Sizes} {τ : Triple} {X Y : ℕ}

theorem div_eq_bounds {size : ℕ} (hsize : 0 < size) (i : ℕ) :
    X / size = i ↔ i * size ≤ X ∧ X < i * size + size := by
  rw [Nat.div_eq_iff hsize]
  omega

/-- The elements of a tile. -/
theorem Sizes.inTile_iff (hX : X < d.m) (hY : Y < d.n) : d.InTile τ X Y ↔
    ((d.tileC τ.1 τ.2.2).matrixRow ≤ X ∧
      X < (d.tileC τ.1 τ.2.2).matrixRow + (d.tileC τ.1 τ.2.2).rows) ∧
    (d.tileC τ.1 τ.2.2).matrixCol ≤ Y ∧
      Y < (d.tileC τ.1 τ.2.2).matrixCol + (d.tileC τ.1 τ.2.2).cols := by
  rw [Sizes.InTile, div_eq_bounds d.tileSize_pos, div_eq_bounds d.tileSize_pos]
  dsimp only [Sizes.tileC, tileAt]
  omega

/-- An offset in a tile gives an element of it. -/
theorem Sizes.inTile_add {r c : ℕ} (hr : r < (d.tileC τ.1 τ.2.2).rows)
    (hc : c < (d.tileC τ.1 τ.2.2).cols) :
    ((d.tileC τ.1 τ.2.2).matrixRow + r < d.m ∧ (d.tileC τ.1 τ.2.2).matrixCol + c < d.n) ∧
      d.InTile τ ((d.tileC τ.1 τ.2.2).matrixRow + r) ((d.tileC τ.1 τ.2.2).matrixCol + c) := by
  rw [Sizes.InTile, div_eq_bounds d.tileSize_pos, div_eq_bounds d.tileSize_pos]
  dsimp only [Sizes.tileC, tileAt] at *
  omega

/-- A tile has columns. -/
theorem Sizes.cols_pos {j : ℕ} (i : ℕ) (hj : j < d.tn) : 0 < (d.tileC i j).cols := by
  have hlt := (lt_tileCount_iff d.tileSize_pos).mp hj
  have hpos := d.tileSize_pos
  dsimp only [Sizes.tileC, tileAt]
  omega

end

variable [CommRing R]

/-- What a product adds to an element of `C`. -/
def share (d : Sizes) (x : Matrices R) (τ : Triple) (X Y : ℕ) : R :=
  if d.InTile τ X Y then slice d x τ.2.1 X Y else 0

/-- What a worker has added to an element of `C`. -/
def Summing.share (d : Sizes) (x : Matrices R) (t : Summing R) (X Y : ℕ) : R :=
  if t.Passed X Y then Dgemm.share d x t.tiles.p.triple X Y else 0

/-- The value of `C`. -/
structure Memory (d : Sizes) (x : Matrices R) (c : ℕ → ℕ → R) (summing : List (Summing R))
    (added : List Triple) : Prop where
  col_lt : ∀ t ∈ summing, t.col < t.tiles.c.cols
  /-- The element that a worker has read is still what it read. -/
  loaded : ∀ t ∈ summing, ∀ v, t.loaded = some v →
    t.row < t.tiles.c.rows ∧ v = c t.address.1 t.address.2
  value : ∀ X < d.m, ∀ Y < d.n, c X Y = x.c X Y + (added.map fun τ => share d x τ X Y).sum +
    (summing.map fun t => t.share d x X Y).sum

variable {d : Sizes} {x : Matrices R} {s s' : State R}

/-! ## A worker of `sum_task` -/

section

variable {t : Summing R} {X Y : ℕ}

/-- The element that a worker is at is in its tile. -/
theorem Matched.address (h : Matched d x t.tiles) (hrow : t.row < t.tiles.c.rows)
    (hcol : t.col < t.tiles.c.cols) : (t.address.1 < d.m ∧ t.address.2 < d.n) ∧
      d.InTile t.tiles.p.triple t.address.1 t.address.2 := by
  rw [h.tile] at hrow hcol
  rw [Summing.address, h.tile]
  exact Sizes.inTile_add (τ := t.tiles.p.triple) hrow hcol

theorem Matched.inTile_iff (h : Matched d x t.tiles) (hX : X < d.m) (hY : Y < d.n) :
    d.InTile t.tiles.p.triple X Y ↔
      (t.tiles.c.matrixRow ≤ X ∧ X < t.tiles.c.matrixRow + t.tiles.c.rows) ∧
        t.tiles.c.matrixCol ≤ Y ∧ Y < t.tiles.c.matrixCol + t.tiles.c.cols := by
  rw [h.tile]
  exact Sizes.inTile_iff hX hY

omit [CommRing R] in
/-- A worker passes the element that it is at. -/
theorem Summing.passed_next (hcol : t.col < t.tiles.c.cols) (hY : t.tiles.c.matrixCol ≤ Y)
    (hY' : Y < t.tiles.c.matrixCol + t.tiles.c.cols) :
    t.next.Passed X Y ↔ t.Passed X Y ∨ X = t.address.1 ∧ Y = t.address.2 := by
  unfold Summing.next
  split
  · dsimp only [Summing.Passed, Summing.address]
    omega
  · dsimp only [Summing.Passed, Summing.address]
    omega

/-- A worker that begins has added nothing. -/
theorem Matched.share_begin {t : SumTiles R} (h : Matched d x t) (hX : X < d.m) (hY : Y < d.n) :
    (⟨t, 0, 0, none⟩ : Summing R).share d x X Y = 0 := by
  unfold Summing.share
  split
  · next hpassed =>
    rw [Dgemm.share, if_neg]
    intro hin
    have hbounds := (Matched.inTile_iff (t := ⟨t, 0, 0, none⟩) h hX hY).mp hin
    dsimp only [Summing.Passed, Summing.address] at hpassed hbounds
    omega
  · rfl

/-- A worker that ends has added everything. -/
theorem Matched.share_end (h : Matched d x t.tiles) (hrow : ¬ t.row < t.tiles.c.rows) (hX : X < d.m)
    (hY : Y < d.n) : t.share d x X Y = Dgemm.share d x t.tiles.p.triple X Y := by
  unfold Summing.share
  split
  · rfl
  · next hpassed =>
    rw [Dgemm.share, if_neg]
    intro hin
    have hbounds := (h.inTile_iff hX hY).mp hin
    dsimp only [Summing.Passed, Summing.address] at hpassed
    omega

/-- The element that a worker writes. -/
theorem Matched.share_next_self (h : Matched d x t.tiles) (hrow : t.row < t.tiles.c.rows)
    (hcol : t.col < t.tiles.c.cols) : t.next.share d x t.address.1 t.address.2 =
      t.share d x t.address.1 t.address.2 + t.tiles.p.data t.row t.col := by
  obtain ⟨⟨hX, hY⟩, hin⟩ := h.address hrow hcol
  have hbounds := (h.inTile_iff hX hY).mp hin
  have hpassed : ¬ t.Passed t.address.1 t.address.2 := by
    unfold Summing.Passed
    omega
  have hnext := (Summing.passed_next hcol hbounds.2.1 hbounds.2.2).mpr (Or.inr ⟨rfl, rfl⟩)
  rw [Summing.share, Summing.share, if_pos hnext, if_neg hpassed, zero_add, t.tiles_next,
    Dgemm.share, if_pos hin, h.product.data, Summing.address, h.tile]
  rfl

/-- The other elements. -/
theorem Matched.share_next_of_ne (h : Matched d x t.tiles) (hcol : t.col < t.tiles.c.cols)
    (hX : X < d.m) (hY : Y < d.n) (hne : ¬ (X = t.address.1 ∧ Y = t.address.2)) :
    t.next.share d x X Y = t.share d x X Y := by
  rw [Summing.share, Summing.share, t.tiles_next]
  by_cases hin : d.InTile t.tiles.p.triple X Y
  · obtain ⟨-, hbounds⟩ := (h.inTile_iff hX hY).mp hin
    refine if_congr ?_ rfl rfl
    rw [Summing.passed_next hcol hbounds.1 hbounds.2]
    exact or_iff_left hne
  · rw [Dgemm.share, if_neg hin, ite_self, ite_self]

end

/-- A tile of `C` has one worker. -/
theorem Invariant.one_worker (h : Invariant d x [] s) {n : ℕ} {t u : Summing R}
    (ht : s.summing[n]? = some t) (hu : u ∈ s.summing.eraseIdx n) :
    ¬ (u.tiles.p.row = t.tiles.p.row ∧ u.tiles.p.col = t.tiles.p.col) := by
  rintro ⟨hrow, hcol⟩
  have htile := (h.products.of_summing t (List.mem_of_getElem? ht)).tile
  have hutile := (h.products.of_summing u (List.mem_of_mem_eraseIdx hu)).tile
  rw [hrow, hcol, ← htile] at hutile
  have honce := h.tilesC.once t.tiles.c.row t.tiles.c.col
  have hle : s.away.countP (Tile.At t.tiles.c.row t.tiles.c.col) ≤ 1 := by
    split at honce <;> simp only [List.nil_append] at honce <;> omega
  have htwo : 2 ≤ s.away.count t.tiles.c := by
    have hcount := count_map_eraseIdx ht (fun t => t.tiles.c) t.tiles.c
    have hpos : 0 < ((s.summing.eraseIdx n).map fun t => t.tiles.c).count t.tiles.c :=
      List.count_pos_iff.mpr (hutile ▸ List.mem_map_of_mem hu)
    rw [if_pos rfl] at hcount
    rw [State.count_away]
    omega
  have hcountP : s.away.count t.tiles.c ≤ s.away.countP (Tile.At t.tiles.c.row t.tiles.c.col) := by
    refine List.countP_mono_left fun v _ hv => ?_
    rw [eq_of_beq hv]
    exact decide_eq_true ⟨rfl, rfl⟩
  omega

/-- **No worker writes the element that another one is at.** -/
theorem Invariant.address_ne (h : Invariant d x [] s) {n : ℕ} {t u : Summing R}
    (ht : s.summing[n]? = some t) (hu : u ∈ s.summing.eraseIdx n) (htrow : t.row < t.tiles.c.rows)
    (htcol : t.col < t.tiles.c.cols) (hurow : u.row < u.tiles.c.rows)
    (hucol : u.col < u.tiles.c.cols) :
    ¬ (u.address.1 = t.address.1 ∧ u.address.2 = t.address.2) := by
  rintro ⟨hX, hY⟩
  have htin := ((h.products.of_summing t (List.mem_of_getElem? ht)).address htrow htcol).2
  have huin := ((h.products.of_summing u (List.mem_of_mem_eraseIdx hu)).address hurow hucol).2
  rw [hX, hY] at huin
  exact h.one_worker ht hu ⟨huin.1.symm.trans htin.1, huin.2.symm.trans htin.2⟩

namespace Memory

/-- A worker begins. -/
theorem beginSum (h : Memory d x s.c s.summing s.added) (hinv : Invariant d x [] s)
    {t : SumTiles R} (ht : t ∈ s.sumTask) :
    Memory d x s.c (s.summing ++ [⟨t, 0, 0, none⟩]) s.added := by
  have hmatched := hinv.products.of_sumTask t ht
  refine ⟨fun u hu => ?_, fun u hu v hv => ?_, fun X hX Y hY => ?_⟩
  · rcases List.mem_append.mp hu with hu | hu
    · exact h.col_lt u hu
    · obtain rfl := List.mem_singleton.mp hu
      rw [hmatched.tile]
      exact Sizes.cols_pos _ hmatched.product.col_lt
  · rcases List.mem_append.mp hu with hu | hu
    · exact h.loaded u hu v hv
    · obtain rfl := List.mem_singleton.mp hu
      cases hv
  · rw [h.value X hX Y hY, List.map_append, List.sum_append, List.map_singleton, List.sum_singleton,
      hmatched.share_begin hX hY, add_zero]

/-- A worker reads an element. -/
theorem load (h : Memory d x s.c s.summing s.added) {n : ℕ} {t : Summing R}
    (ht : s.summing[n]? = some t) (hrow : t.row < t.tiles.c.rows) :
    Memory d x s.c (s.summing.eraseIdx n ++
      [{ t with loaded := some (s.c t.address.1 t.address.2) }]) s.added := by
  refine ⟨fun u hu => ?_, fun u hu v hv => ?_, fun X hX Y hY => ?_⟩
  · rcases List.mem_append.mp hu with hu | hu
    · exact h.col_lt u (List.mem_of_mem_eraseIdx hu)
    · obtain rfl := List.mem_singleton.mp hu
      exact h.col_lt t (List.mem_of_getElem? ht)
  · rcases List.mem_append.mp hu with hu | hu
    · exact h.loaded u (List.mem_of_mem_eraseIdx hu) v hv
    · obtain rfl := List.mem_singleton.mp hu
      exact ⟨hrow, (Option.some.inj hv).symm⟩
  · rw [h.value X hX Y hY, sum_map_eraseIdx ht, List.map_append, List.sum_append,
      List.map_singleton, List.sum_singleton]
    rfl

/-- **A worker writes an element.** -/
theorem store (h : Memory d x s.c s.summing s.added) (hinv : Invariant d x [] s) {n : ℕ}
    {t : Summing R} {v : R} (ht : s.summing[n]? = some t) (hv : t.loaded = some v) :
    Memory d x (Function.update s.c t.address.1
      (Function.update (s.c t.address.1) t.address.2 (v + t.tiles.p.data t.row t.col)))
      (s.summing.eraseIdx n ++ [t.next]) s.added := by
  have hmem := List.mem_of_getElem? ht
  have hmatched := hinv.products.of_summing t hmem
  have hcol := h.col_lt t hmem
  obtain ⟨hrow, rfl⟩ := h.loaded t hmem v hv
  -- The element that is written, and the others.
  have hsame : ∀ X Y, ¬ (X = t.address.1 ∧ Y = t.address.2) → Function.update s.c t.address.1
      (Function.update (s.c t.address.1) t.address.2
        (s.c t.address.1 t.address.2 + t.tiles.p.data t.row t.col)) X Y = s.c X Y := by
    intro X Y hne
    by_cases hX : X = t.address.1
    · subst hX
      rw [Function.update_self, Function.update_of_ne fun hY => hne ⟨rfl, hY⟩]
    · rw [Function.update_of_ne hX]
  refine ⟨fun u hu => ?_, fun u hu w hw => ?_, fun X hX Y hY => ?_⟩
  · rcases List.mem_append.mp hu with hu | hu
    · exact h.col_lt u (List.mem_of_mem_eraseIdx hu)
    · obtain rfl := List.mem_singleton.mp hu
      rw [t.tiles_next, Summing.next]
      split
      · assumption
      · exact (Nat.zero_le _).trans_lt hcol
  · rcases List.mem_append.mp hu with hu | hu
    · have humem := List.mem_of_mem_eraseIdx hu
      obtain ⟨hurow, hvalue⟩ := h.loaded u humem w hw
      refine ⟨hurow, hvalue.trans (hsame _ _ ?_).symm⟩
      exact hinv.address_ne ht hu hrow hcol hurow (h.col_lt u humem)
    · obtain rfl := List.mem_singleton.mp hu
      unfold Summing.next at hw
      split at hw <;> cases hw
  · have hvalue := h.value X hX Y hY
    rw [sum_map_eraseIdx ht] at hvalue
    rw [List.map_append, List.sum_append, List.map_singleton, List.sum_singleton]
    by_cases hat : X = t.address.1 ∧ Y = t.address.2
    · obtain ⟨rfl, rfl⟩ := hat
      rw [Function.update_self, Function.update_self, hmatched.share_next_self hrow hcol, hvalue]
      abel
    · rw [hsame X Y hat, hvalue, hmatched.share_next_of_ne hcol hX hY hat]

/-- A worker ends. -/
theorem endSum (h : Memory d x s.c s.summing s.added) (hinv : Invariant d x [] s) {n : ℕ}
    {t : Summing R} (ht : s.summing[n]? = some t) (hrow : ¬ t.row < t.tiles.c.rows) :
    Memory d x s.c (s.summing.eraseIdx n) (s.added ++ [t.tiles.p.triple]) := by
  have hmatched := hinv.products.of_summing t (List.mem_of_getElem? ht)
  refine ⟨fun u hu => h.col_lt u (List.mem_of_mem_eraseIdx hu),
    fun u hu v hv => h.loaded u (List.mem_of_mem_eraseIdx hu) v hv, fun X hX Y hY => ?_⟩
  rw [h.value X hX Y hY, sum_map_eraseIdx ht, List.map_append, List.sum_append,
    List.map_singleton, List.sum_singleton, hmatched.share_end hrow hX hY]
  abel

/-- **One step.** -/
theorem effect (h : Memory d x s.c s.summing s.added) (hinv : Invariant d x [] s)
    (he : Effect d x s s') : Memory d x s'.c s'.summing s'.added := by
  cases he with
  | splitA | splitB | splitC | tileA | tileB | product | pairP | storeP | result => exact h
  | tileC n t ht =>
    obtain ⟨hadded, -, -, -, hsumming, hc⟩ :=
      sumStateExecTileC_frame d { s with sumTileC := s.sumTileC.eraseIdx n } t
    rw [hadded, hsumming, hc]
    exact h
  | again n t ht _ =>
    obtain ⟨hadded, -, -, -, hsumming, hc⟩ := sumStateExecTileC_frame d { s with
      sumPcTiles := s.sumPcTiles.eraseIdx n
      count := addSizeT s.count (sizeT - 1) } t.c
    rw [hadded, hsumming, hc]
    exact h
  | beginSum n t ht => exact h.beginSum hinv (List.mem_of_getElem? ht)
  | load n t ht _ hrow => exact h.load ht hrow
  | store n t v ht hv => exact h.store hinv ht hv
  | endSum n t ht _ hrow => exact h.endSum hinv ht hrow

end Memory

/-- **The value of `C`** in every state of every run. -/
theorem memory_of_reachable (hs : (system d x).Reachable s) :
    Memory d x s.c s.summing s.added := by
  refine hs.invariant (I := fun s => Memory d x s.c s.summing s.added) ?_ ?_
  · rintro s rfl
    refine ⟨fun t ht => (by cases ht), fun t ht => (by cases ht), fun X _ Y _ => ?_⟩
    change x.c X Y = x.c X Y + 0 + 0
    rw [add_zero, add_zero]
  · intro s a s' hr h _ hstep
    exact h.effect (invariant_of_reachable hr) (effect_of_step hstep)

end Dgemm
end ThreadUtils
