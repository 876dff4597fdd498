import ThreadUtils.Dgemm.Products

/-!
# The tiles of C circulate

A tile of `C` is in `sum_state`, where it waits for a product, or away from it.  There is one of
each, so that no two workers add to the same elements.

## The invariant

It has a part for each stage of the program: the tiles of `A` and `B` on their way to the pairs, the
pairs, the products on their way to the sums, and the tiles of `C`.  The last ones circulate:
they go out with a product and come back after the addition.  `Arriving` covers them as well, with
all places outside of the table as the waiting ones.

A handler of `sum_state` takes a tile out of its input queue and offers it to a product before it
stores it.  In between the tile is in none of the places, and so the invariant speaks of a hand
(`Invariant.sumStateExecTileC`).  The hand is empty between the steps.

## Who waits

Either products wait for a tile of `C` or the tile waits for a product, and never both
(`Invariant.idle`).  Were both to wait, nobody would bring them together: the handlers look for a
partner only when something arrives.

* `Invariant` --- where the tiles and the products are.
* `invariant_of_reachable` --- it holds in every state of every run.
-/

namespace ThreadUtils
namespace Dgemm

variable {R : Type*}

/-- The tiles of `C` that are not in `sum_state`. -/
def State.away (s : State R) : List Tile :=
  s.sumTileC ++ s.sumTask.map SumTiles.c ++ s.summing.map (fun t => t.tiles.c) ++
    s.sumPcTiles.map SumTiles.c ++ s.results

theorem State.count_away (s : State R) (u : Tile) : s.away.count u =
    s.sumTileC.count u + (s.sumTask.map SumTiles.c).count u +
      (s.summing.map fun t => t.tiles.c).count u + (s.sumPcTiles.map SumTiles.c).count u +
      s.results.count u := by
  simp only [State.away, List.count_append]

variable [CommRing R]

/-- Where the tiles and the products are, when a handler of `sum_state` has the tiles `hand`. -/
structure Invariant (d : Sizes) (x : Matrices R) (hand : List Tile) (s : State R) : Prop where
  tilesA : Arriving d.tm d.tk d.tileA s.splitA s.productTileA s.aTiles
  tilesB : Arriving d.tk d.tn d.tileB s.splitB s.productTileB s.bTiles
  pairs : Pairs d s.aTiles s.bTiles s.productTask s.multiplied
  products : Products d x s.sumTileP s.sumQueues s.sumTask s.summing s.multiplied s.begun s.added
  tilesC : Arriving d.tm d.tn d.tileC s.splitC (hand ++ s.away) s.cTiles
  /-- A tile of `C` waits when no product does. -/
  idle : ∀ idx, (s.cTiles idx).isSome → s.sumQueues idx = []
  check : s.aborted = false

variable {d : Sizes} {x : Matrices R} {s s' : State R} {hand : List Tile}

theorem Invariant.start (d : Sizes) (x : Matrices R) : Invariant d x [] (initial d x) where
  tilesA := Arriving.start d.tileSize_pos
  tilesB := Arriving.start d.tileSize_pos
  pairs := by
    refine ⟨fun t ht => (by cases ht), fun τ => ?_⟩
    rw [if_neg fun hcreated => by cases hcreated.2.1]
    rfl
  products := Products.start
  tilesC := Arriving.start d.tileSize_pos
  idle idx h := by cases h
  check := rfl

/-- The tiles of `C` are in the same places. -/
theorem Invariant.tilesC_of_count (h : Invariant d x hand s) {s' : State R} {hand' : List Tile}
    (hcount : ∀ u, (hand' ++ s'.away).count u = (hand ++ s.away).count u) :
    Arriving d.tm d.tn d.tileC s.splitC (hand' ++ s'.away) s.cTiles :=
  h.tilesC.perm (List.perm_iff_count.mpr fun u => (hcount u).symm)

omit [CommRing R] in
theorem State.check_aborted (s : State R) (ok : Bool) (h : s.aborted = false) (hok : ok = true) :
    (s.check ok).aborted = false := by
  rw [State.check, h, hok]
  rfl

namespace Invariant

/-! ## The state of the products -/

theorem productStateExecTileA (h : Invariant d x [] s) {n : ℕ} {t : Tile}
    (ht : s.productTileA[n]? = some t) :
    Invariant d x []
      (productStateExecTileA d { s with productTileA := s.productTileA.eraseIdx n } t) where
  tilesA := h.tilesA.store ht
  tilesB := h.tilesB
  pairs := h.pairs.tileA h.tilesA h.tilesB (List.mem_of_getElem? ht)
  products := h.products
  tilesC := h.tilesC
  idle := h.idle
  check := by
    have hfree := (h.tilesA.free (List.mem_of_getElem? ht)).2
    exact State.check_aborted _ _ h.check (by simp [hfree])

theorem productStateExecTileB (h : Invariant d x [] s) {n : ℕ} {t : Tile}
    (ht : s.productTileB[n]? = some t) :
    Invariant d x []
      (productStateExecTileB d { s with productTileB := s.productTileB.eraseIdx n } t) where
  tilesA := h.tilesA
  tilesB := h.tilesB.store ht
  pairs := h.pairs.tileB h.tilesA h.tilesB (List.mem_of_getElem? ht)
  products := h.products
  tilesC := h.tilesC
  idle := h.idle
  check := by
    have hfree := (h.tilesB.free (List.mem_of_getElem? ht)).2
    exact State.check_aborted _ _ h.check (by simp [hfree])

/-- The indices of a pair are in range. -/
theorem created (h : Invariant d x hand s) {t : ProductTiles R} (ht : t ∈ s.productTask) :
    Created d s.aTiles s.bTiles t.triple := by
  have honce := h.pairs.once t.triple
  have hpos : 0 < s.productTask.countP fun u => u.triple = t.triple :=
    List.countP_pos_iff.mpr ⟨t, ht, by simp⟩
  split at honce
  · assumption
  · omega

theorem productTaskExec (h : Invariant d x [] s) {n : ℕ} {t : ProductTiles R}
    (ht : s.productTask[n]? = some t) :
    Invariant d x []
      (productTaskExec x { s with productTask := s.productTask.eraseIdx n } t) where
  tilesA := h.tilesA
  tilesB := h.tilesB
  pairs := h.pairs.multiply ht
  products := by
    have hmem := List.mem_of_getElem? ht
    have hpaired := h.pairs.paired t hmem
    obtain ⟨⟨hrow, hk, hcol⟩, -⟩ := h.created hmem
    have hproduct := h.products.product (isProduct_of_paired (x := x) hpaired hrow hk hcol)
    rw [ProductTile.triple, hpaired.k] at hproduct
    exact hproduct
  tilesC := h.tilesC
  idle := h.idle
  check := by
    have hpaired := h.pairs.paired t (List.mem_of_getElem? ht)
    have hinner : t.a.cols = t.b.rows := by
      rw [hpaired.a, hpaired.b]
      rfl
    exact State.check_aborted _ _ h.check (by simp [hpaired.rows, hpaired.cols, hinner])

/-! ## The state of the sums -/

/-- A tile of `C` comes to `sum_state` for the first time. -/
theorem takeTileC (h : Invariant d x [] s) {n : ℕ} {t : Tile} (ht : s.sumTileC[n]? = some t) :
    Invariant d x [t] { s with sumTileC := s.sumTileC.eraseIdx n } where
  tilesA := h.tilesA
  tilesB := h.tilesB
  pairs := h.pairs
  products := h.products
  tilesC := h.tilesC_of_count fun u => by
    have hcount := count_map_eraseIdx ht id u
    simp only [List.map_id, id] at hcount
    simp only [List.count_append, State.count_away, List.count_singleton, List.count_nil,
      beq_iff_eq]
    omega
  idle := h.idle
  check := h.check

/-- A tile of `C` comes back to `sum_state`. -/
theorem takePcTiles (h : Invariant d x [] s) {n : ℕ} {t : SumTiles R}
    (ht : s.sumPcTiles[n]? = some t) (count : ℕ) :
    Invariant d x [t.c] { s with sumPcTiles := s.sumPcTiles.eraseIdx n, count := count } where
  tilesA := h.tilesA
  tilesB := h.tilesB
  pairs := h.pairs
  products := h.products
  tilesC := h.tilesC_of_count fun u => by
    have hcount := count_map_eraseIdx ht SumTiles.c u
    simp only [List.count_append, State.count_away, List.count_singleton, List.count_nil,
      beq_iff_eq]
    omega
  idle := h.idle
  check := h.check

/-- **A tile of `C` is offered** to the products that wait for it. -/
theorem sumStateExecTileC {t : Tile} (h : Invariant d x [t] s) :
    Invariant d x [] (sumStateExecTileC d s t) := by
  have hmem : t ∈ [t] ++ s.away := List.mem_cons_self
  obtain ⟨⟨hrow, hcol⟩, -⟩ := h.tilesC.free hmem
  rcases sumStateExecTileC_cases d s t with ⟨p, rest, hqueue, heq⟩ | ⟨hqueue, heq⟩
  · rw [heq]
    refine ⟨h.tilesA, h.tilesB, h.pairs,
      h.products.matched hcol (h.tilesC.of_waiting t hmem) hqueue,
      h.tilesC_of_count fun u => ?_, fun idx hsome => ?_, h.check⟩
    · simp only [List.count_append, State.count_away, List.count_singleton, List.count_nil,
        List.map_append, List.map_cons, List.map_nil]
      omega
    · by_cases hidx : idx = t.row * d.tn + t.col
      · rw [hidx] at hsome
        rw [h.idle _ hsome] at hqueue
        exact absurd hqueue (by simp)
      · exact (Function.update_of_ne hidx _ _).trans (h.idle idx hsome)
  · rw [heq]
    refine ⟨h.tilesA, h.tilesB, h.pairs, h.products, ?_, fun idx hsome => ?_, h.check⟩
    · exact h.tilesC.store (n := 0) rfl
    · by_cases hidx : idx = t.row * d.tn + t.col
      · rw [hidx]
        exact hqueue
      · refine h.idle idx ?_
        dsimp only at hsome
        rwa [Function.update_of_ne hidx] at hsome

/-- A product comes while its tile of `C` waits. -/
theorem pairP (h : Invariant d x [] s) {n : ℕ} {p : ProductTile R} {c : Tile}
    (hp : s.sumTileP[n]? = some p) (hc : s.cTiles (p.row * d.tn + p.col) = some c) :
    Invariant d x [] { s with
      sumTileP := s.sumTileP.eraseIdx n
      cTiles := Function.update s.cTiles (p.row * d.tn + p.col) none
      sumTask := s.sumTask ++ [⟨p, c⟩] } := by
  have hproduct := h.products.of_sumTileP p (List.mem_of_getElem? hp)
  obtain rfl := h.tilesC.of_stored _ _ c hproduct.row_lt hproduct.col_lt hc
  refine ⟨h.tilesA, h.tilesB, h.pairs, h.products.pairP hp, ?_, fun idx hsome => ?_, h.check⟩
  · refine (h.tilesC.take hproduct.row_lt hproduct.col_lt hc ⟨rfl, rfl⟩).perm
      (List.perm_iff_count.mpr fun u => ?_)
    simp only [List.nil_append, List.count_cons, State.count_away, List.map_append, List.map_cons,
      List.map_nil, List.count_append, List.count_nil]
    omega
  · refine h.idle idx ?_
    dsimp only at hsome
    by_cases hidx : idx = p.row * d.tn + p.col
    · rw [hidx, Function.update_self] at hsome
      cases hsome
    · rwa [Function.update_of_ne hidx] at hsome

/-- A product comes while its tile of `C` is away. -/
theorem storeP (h : Invariant d x [] s) {n : ℕ} {p : ProductTile R}
    (hp : s.sumTileP[n]? = some p) (hc : s.cTiles (p.row * d.tn + p.col) = none) :
    Invariant d x [] { s with
      sumTileP := s.sumTileP.eraseIdx n
      sumQueues := Function.update s.sumQueues (p.row * d.tn + p.col)
        (s.sumQueues (p.row * d.tn + p.col) ++ [p]) } where
  tilesA := h.tilesA
  tilesB := h.tilesB
  pairs := h.pairs
  products := h.products.storeP hp
  tilesC := h.tilesC
  idle idx hsome := by
    refine (Function.update_of_ne ?_ _ _).trans (h.idle idx hsome)
    rintro rfl
    dsimp only at hsome
    rw [hc] at hsome
    cases hsome
  check := h.check

/-- The last tile of `C` that comes back is the result. -/
theorem result {t : Tile} (h : Invariant d x [t] s) :
    Invariant d x [] { s with results := s.results ++ [t] } where
  tilesA := h.tilesA
  tilesB := h.tilesB
  pairs := h.pairs
  products := h.products
  tilesC := h.tilesC_of_count fun u => by
    simp only [List.count_append, State.count_away, List.count_nil]
    omega
  idle := h.idle
  check := h.check

/-! ## The sums -/

theorem beginSum (h : Invariant d x [] s) {n : ℕ} {t : SumTiles R} (ht : s.sumTask[n]? = some t) :
    Invariant d x [] (State.beginSum { s with sumTask := s.sumTask.eraseIdx n } t) where
  tilesA := h.tilesA
  tilesB := h.tilesB
  pairs := h.pairs
  products := h.products.beginSum ht
  tilesC := h.tilesC_of_count fun u => by
    have hcount := count_map_eraseIdx ht SumTiles.c u
    simp only [List.count_append, State.count_away, List.count_nil, State.beginSum, State.check,
      List.map_append, List.map_cons, List.map_nil, List.count_singleton, beq_iff_eq]
    omega
  idle := h.idle
  check := by
    have hmatched := h.products.of_sumTask t (List.mem_of_getElem? ht)
    refine State.check_aborted _ _ h.check ?_
    simp [hmatched.tile, hmatched.product.rows, hmatched.product.cols]

/-- A worker accesses an element of its tile. -/
theorem access (h : Invariant d x [] s) {n : ℕ} {t t' : Summing R}
    (ht : s.summing[n]? = some t) (htiles : t'.tiles = t.tiles) (c : ℕ → ℕ → R) :
    Invariant d x [] { s with c := c, summing := s.summing.eraseIdx n ++ [t'] } where
  tilesA := h.tilesA
  tilesB := h.tilesB
  pairs := h.pairs
  products := h.products.access ht htiles
  tilesC := h.tilesC_of_count fun u => by
    have hcount := count_map_eraseIdx ht (fun t => t.tiles.c) u
    simp only [List.count_append, State.count_away, List.count_nil, List.map_append, List.map_cons,
      List.map_nil, List.count_singleton, beq_iff_eq, htiles]
    omega
  idle := h.idle
  check := h.check

theorem endSum (h : Invariant d x [] s) {n : ℕ} {t : Summing R} (ht : s.summing[n]? = some t) :
    Invariant d x [] { s with
      summing := s.summing.eraseIdx n
      sumPcTiles := s.sumPcTiles ++ [t.tiles]
      added := s.added ++ [t.tiles.p.triple] } where
  tilesA := h.tilesA
  tilesB := h.tilesB
  pairs := h.pairs
  products := h.products.endSum ht
  tilesC := h.tilesC_of_count fun u => by
    have hcount := count_map_eraseIdx ht (fun t => t.tiles.c) u
    simp only [List.count_append, State.count_away, List.count_nil, List.map_append, List.map_cons,
      List.map_nil, List.count_singleton, beq_iff_eq]
    omega
  idle := h.idle
  check := h.check

end Invariant

omit [CommRing R] in
theorem Summing.tiles_next (t : Summing R) : t.next.tiles = t.tiles := by
  unfold Summing.next
  split <;> rfl

/-- **One step keeps the invariant.** -/
theorem Invariant.effect (h : Invariant d x [] s) (he : Effect d x s s') :
    Invariant d x [] s' := by
  cases he with
  | splitA t rest hsplit =>
    exact ⟨(hsplit ▸ h.tilesA).emit, h.tilesB, h.pairs, h.products, h.tilesC, h.idle, h.check⟩
  | splitB t rest hsplit =>
    exact ⟨h.tilesA, (hsplit ▸ h.tilesB).emit, h.pairs, h.products, h.tilesC, h.idle, h.check⟩
  | splitC t rest hsplit =>
    refine ⟨h.tilesA, h.tilesB, h.pairs, h.products,
      (hsplit ▸ h.tilesC).emit.perm (List.perm_iff_count.mpr fun u => ?_), h.idle, h.check⟩
    simp only [List.count_append, State.count_away, List.count_nil]
    omega
  | tileA n t ht => exact h.productStateExecTileA ht
  | tileB n t ht => exact h.productStateExecTileB ht
  | product n t ht => exact h.productTaskExec ht
  | tileC n t ht => exact (h.takeTileC ht).sumStateExecTileC
  | pairP n t c ht hc => exact h.pairP ht hc
  | storeP n t ht hc => exact h.storeP ht hc
  | result n t ht _ => exact (h.takePcTiles ht _).result
  | again n t ht _ => exact (h.takePcTiles ht _).sumStateExecTileC
  | beginSum n t ht => exact h.beginSum ht
  | load n t ht _ _ =>
    refine h.access ht ?_ s.c
    rfl
  | store n t v ht _ => exact h.access ht t.tiles_next _
  | endSum n t ht _ _ => exact h.endSum ht

/-- **The invariant.** -/
theorem invariant_of_reachable (hs : (system d x).Reachable s) : Invariant d x [] s := by
  refine hs.invariant ?_ ?_
  · rintro s rfl
    exact Invariant.start d x
  · intro s a s' _ h _ hstep
    exact h.effect (effect_of_step hstep)

end Dgemm
end ThreadUtils
