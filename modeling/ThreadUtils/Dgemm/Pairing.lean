import Mathlib.Data.List.Nodup
import Mathlib.Data.List.ProdSigma
import ThreadUtils.Dgemm.Steps
import ThreadUtils.Transition.Bag

/-!
# The pairs of tiles

Every tile of `A` and of `B` arrives once, and whichever of the two tiles of a pair arrives second
makes the pair.  So a pair is made as soon as both tiles have arrived, and once.

## One tile, one place

`Arriving` counts the tiles of a matrix by their indices: a tile has yet to be sent by `split_task`,
waits in a queue of the state, or is stored in its table, and the three counts add up to one.  A
tile that arrives therefore finds its place in the table free (`Arriving.free`), which the handler
does not test.  Nothing is said of the order in which the tiles arrive.  Since only numbers
occur, the same lemmas serve `A`, `B` and `C`, whose tiles leave their table again.

## Both halves of a pair

A handler that stores a tile of `A` goes along a row of the table of `B` and makes a pair for each
tile it finds there, and the other way round.  `Pairs.once` says that the number of pairs made
for a product is one if both of its tiles are stored and zero if not.  The two loops are different
programs, but both are counted by the tiles that are found, and a tile that arrives makes exactly
those products possible that it meets its partner for (`created_update_a`, `created_update_b`).
-/

namespace ThreadUtils
namespace Dgemm

/-! ## The tiles -/

/-- The tile has these indices. -/
abbrev Tile.At (i j : ℕ) (t : Tile) : Prop :=
  t.row = i ∧ t.col = j

/-- The number of tiles, zero or one, that are stored at these indices. -/
def storedAt (tr tc : ℕ) (stored : ℕ → Option Tile) (i j : ℕ) : ℕ :=
  if (i < tr ∧ j < tc) ∧ (stored (i * tc + j)).isSome then 1 else 0

/-- The tiles of a matrix on their way from `split_task` to the table of a state. -/
structure Arriving (tr tc : ℕ) (tileOf : ℕ → ℕ → Tile) (pending waiting : List Tile)
    (stored : ℕ → Option Tile) : Prop where
  of_pending : ∀ t ∈ pending, t = tileOf t.row t.col
  of_waiting : ∀ t ∈ waiting, t = tileOf t.row t.col
  of_stored : ∀ i j t, i < tr → j < tc → stored (i * tc + j) = some t → t = tileOf i j
  /-- Each tile is in one place. -/
  once : ∀ i j, pending.countP (Tile.At i j) + waiting.countP (Tile.At i j) +
    storedAt tr tc stored i j = if i < tr ∧ j < tc then 1 else 0

/-- The index of a tile in a table. -/
theorem index_inj {tc i j i' j' : ℕ} (hj : j < tc) (hj' : j' < tc)
    (h : i * tc + j = i' * tc + j') : i = i' ∧ j = j' := by
  have hmod := congrArg (· % tc) h
  simp only [Nat.mul_add_mod_of_lt hj, Nat.mul_add_mod_of_lt hj'] at hmod
  obtain rfl := hmod
  exact ⟨Nat.eq_of_mul_eq_mul_right (by omega) (Nat.add_right_cancel h), rfl⟩

theorem storedAt_of_none {tr tc i j : ℕ} {stored : ℕ → Option Tile}
    (h : stored (i * tc + j) = none) : storedAt tr tc stored i j = 0 := by
  rw [storedAt, h]
  exact if_neg (by simp)

theorem storedAt_of_some {tr tc i j : ℕ} {stored : ℕ → Option Tile} {t : Tile} (hi : i < tr)
    (hj : j < tc) (h : stored (i * tc + j) = some t) : storedAt tr tc stored i j = 1 := by
  rw [storedAt, h]
  exact if_pos ⟨⟨hi, hj⟩, rfl⟩

theorem storedAt_update {tr tc i j : ℕ} (stored : ℕ → Option Tile) (t : Option Tile)
    (hj : j < tc) (i' j' : ℕ) :
    storedAt tr tc (Function.update stored (i * tc + j) t) i' j' =
      if i' = i ∧ j' = j then (if i < tr ∧ t.isSome then 1 else 0)
      else storedAt tr tc stored i' j' := by
  rw [storedAt, storedAt]
  by_cases h : i' = i ∧ j' = j
  · obtain ⟨rfl, rfl⟩ := h
    simp only [Function.update_self, hj, and_true, if_true]
  · rw [if_neg h]
    by_cases hrange : i' < tr ∧ j' < tc
    · rw [Function.update_of_ne fun heq => h (index_inj hrange.2 hj heq)]
    · simp only [hrange, false_and, if_false]

/-- The tiles that `split_task` makes. -/
theorem countP_tiles (rows cols : ℕ) {size : ℕ} (hsize : 0 < size) (i j : ℕ) :
    (tiles rows cols size hsize).countP (Tile.At i j) =
      if i < tileCount rows size ∧ j < tileCount cols size then 1 else 0 := by
  have hproduct : tiles rows cols size hsize =
      (List.range (tileCount rows size) ×ˢ List.range (tileCount cols size)).map
        fun q => tileAt rows cols size q.1 q.2 := by
    rw [tiles_eq]
    simp only [SProd.sprod, List.product, List.map_flatMap, List.map_map]
    rfl
  have hcount : ∀ l : List (ℕ × ℕ), l.countP
      ((fun t => decide (Tile.At i j t)) ∘ fun q => tileAt rows cols size q.1 q.2) =
      l.count (i, j) := by
    intro l
    refine List.countP_congr fun q _ => ?_
    simp only [Function.comp_apply, tileAt, decide_eq_true_eq, beq_iff_eq, Prod.ext_iff]
  rw [hproduct, List.countP_map, hcount,
    (List.Nodup.product List.nodup_range List.nodup_range).count]
  exact if_congr (List.pair_mem_product.trans (and_congr List.mem_range List.mem_range)) rfl rfl

namespace Arriving

variable {tr tc : ℕ} {tileOf : ℕ → ℕ → Tile} {pending waiting : List Tile}
  {stored : ℕ → Option Tile}

theorem start {rows cols size : ℕ} (hsize : 0 < size) :
    Arriving (tileCount rows size) (tileCount cols size) (tileAt rows cols size)
      (tiles rows cols size hsize) [] fun _ => none where
  of_pending t ht := by
    rw [tiles_eq] at ht
    obtain ⟨i, -, hmem⟩ := List.mem_flatMap.mp ht
    obtain ⟨j, -, rfl⟩ := List.mem_map.mp hmem
    rfl
  of_waiting t ht := by cases ht
  of_stored i j t _ _ h := by cases h
  once i j := by
    rw [countP_tiles, storedAt_of_none rfl]
    rfl

/-- `tu_result` of `split_task`. -/
theorem emit {t : Tile} (h : Arriving tr tc tileOf (t :: pending) waiting stored) :
    Arriving tr tc tileOf pending (waiting ++ [t]) stored where
  of_pending u hu := h.of_pending u (List.mem_cons_of_mem _ hu)
  of_waiting u hu := by
    rcases List.mem_append.mp hu with hu | hu
    · exact h.of_waiting u hu
    · rw [List.mem_singleton.mp hu]
      exact h.of_pending t List.mem_cons_self
  of_stored := h.of_stored
  once i j := by
    have honce := h.once i j
    rw [List.countP_cons] at honce
    rw [List.countP_append, List.countP_singleton, ← honce]
    omega

/-- A tile that arrives is in range, and its place in the table is free. -/
theorem free (h : Arriving tr tc tileOf pending waiting stored) {t : Tile} (ht : t ∈ waiting) :
    (t.row < tr ∧ t.col < tc) ∧ stored (t.row * tc + t.col) = none := by
  have honce := h.once t.row t.col
  have hpos : 0 < waiting.countP (Tile.At t.row t.col) :=
    List.countP_pos_iff.mpr ⟨t, ht, by simp⟩
  split at honce
  · next hrange =>
    refine ⟨hrange, Option.not_isSome_iff_eq_none.mp fun hsome => ?_⟩
    rw [storedAt, if_pos ⟨hrange, hsome⟩] at honce
    omega
  · omega

/-- The tile is entered in the table. -/
theorem store (h : Arriving tr tc tileOf pending waiting stored) {n : ℕ} {t : Tile}
    (ht : waiting[n]? = some t) :
    Arriving tr tc tileOf pending (waiting.eraseIdx n)
      (Function.update stored (t.row * tc + t.col) (some t)) := by
  have hmem := List.mem_of_getElem? ht
  obtain ⟨⟨hrow, hcol⟩, hnone⟩ := h.free hmem
  refine ⟨h.of_pending, fun u hu => h.of_waiting u (List.mem_of_mem_eraseIdx hu),
    fun i j u hi hj hu => ?_, fun i j => ?_⟩
  · by_cases hidx : i * tc + j = t.row * tc + t.col
    · obtain ⟨rfl, rfl⟩ := index_inj hj hcol hidx
      rw [Function.update_self] at hu
      obtain rfl := Option.some.inj hu
      exact h.of_waiting t hmem
    · rw [Function.update_of_ne hidx] at hu
      exact h.of_stored i j u hi hj hu
  · have honce := h.once i j
    rw [countP_eraseIdx ht] at honce
    rw [storedAt_update stored _ hcol, ← honce]
    by_cases hat : i = t.row ∧ j = t.col
    · obtain ⟨rfl, rfl⟩ := hat
      rw [storedAt_of_none hnone, if_pos (decide_eq_true ⟨rfl, rfl⟩)]
      rw [if_pos (⟨rfl, rfl⟩ : t.row = t.row ∧ t.col = t.col), if_pos ⟨hrow, rfl⟩]
      omega
    · have hat' : ¬ Tile.At i j t := fun hand => hat ⟨hand.1.symm, hand.2.symm⟩
      rw [if_neg hat, if_neg (by simpa using hat')]
      omega

/-- The tiles may be waiting in any order. -/
theorem perm {waiting' : List Tile} (h : Arriving tr tc tileOf pending waiting stored)
    (hperm : waiting.Perm waiting') : Arriving tr tc tileOf pending waiting' stored where
  of_pending := h.of_pending
  of_waiting t ht := h.of_waiting t (hperm.mem_iff.mpr ht)
  of_stored := h.of_stored
  once i j := by
    rw [← hperm.countP_eq]
    exact h.once i j

/-- A tile is taken out of the table. -/
theorem take (h : Arriving tr tc tileOf pending waiting stored) {i j : ℕ} {t : Tile} (hi : i < tr)
    (hj : j < tc) (ht : stored (i * tc + j) = some t) (htile : (tileOf i j).At i j) :
    Arriving tr tc tileOf pending (t :: waiting) (Function.update stored (i * tc + j) none) := by
  obtain rfl := h.of_stored i j t hi hj ht
  refine ⟨h.of_pending, fun u hu => ?_, fun i' j' u hi' hj' hu => ?_, fun i' j' => ?_⟩
  · rcases List.mem_cons.mp hu with rfl | hu
    · rw [htile.1, htile.2]
    · exact h.of_waiting u hu
  · by_cases hidx : i' * tc + j' = i * tc + j
    · rw [hidx, Function.update_self] at hu
      cases hu
    · rw [Function.update_of_ne hidx] at hu
      exact h.of_stored i' j' u hi' hj' hu
  · rw [← h.once i' j', List.countP_cons, storedAt_update stored _ hj]
    by_cases hat : i' = i ∧ j' = j
    · obtain ⟨rfl, rfl⟩ := hat
      have hfree : ¬ (i' < tr ∧ (none : Option Tile).isSome) := fun hand => by cases hand.2
      rw [if_pos (decide_eq_true htile), storedAt_of_some hi hj ht, if_pos ⟨rfl, rfl⟩,
        if_neg hfree]
      omega
    · have hat' : ¬ Tile.At i' j' (tileOf i j) :=
        fun hand => hat ⟨hand.1.symm.trans htile.1, hand.2.symm.trans htile.2⟩
      rw [if_neg hat, if_neg (by simpa using hat')]
      omega

/-- When no tile is under way, all are stored. -/
theorem isSome (h : Arriving tr tc tileOf [] [] stored) {i j : ℕ} (hi : i < tr) (hj : j < tc) :
    (stored (i * tc + j)).isSome := by
  have honce := h.once i j
  rw [if_pos ⟨hi, hj⟩, List.countP_nil, storedAt] at honce
  by_contra hne
  rw [if_neg fun hand => hne hand.2] at honce
  omega

end Arriving

/-! ## The pairs -/

section Pairs

variable {R : Type*}

/-- The indices of the product that a pair is for. -/
def ProductTiles.triple (t : ProductTiles R) : Triple :=
  (t.a.row, t.a.col, t.b.col)

/-- The tiles for a product have arrived. -/
def Created (d : Sizes) (aTiles bTiles : ℕ → Option Tile) (τ : Triple) : Prop :=
  (τ.1 < d.tm ∧ τ.2.1 < d.tk ∧ τ.2.2 < d.tn) ∧ (aTiles (τ.1 * d.tk + τ.2.1)).isSome ∧
    (bTiles (τ.2.1 * d.tn + τ.2.2)).isSome

instance (d : Sizes) (aTiles bTiles : ℕ → Option Tile) (τ : Triple) :
    Decidable (Created d aTiles bTiles τ) :=
  inferInstanceAs (Decidable (_ ∧ _))

/-- A pair of tiles, with the memory for their product. -/
structure Paired (d : Sizes) (t : ProductTiles R) : Prop where
  a : t.a = d.tileA t.a.row t.a.col
  b : t.b = d.tileB t.a.col t.b.col
  rows : t.p.rows = t.a.rows
  cols : t.p.cols = t.b.cols
  k : t.p.k = t.a.col

/-- Every pair is made once. -/
structure Pairs (d : Sizes) (aTiles bTiles : ℕ → Option Tile) (productTask : List (ProductTiles R))
    (multiplied : List Triple) : Prop where
  paired : ∀ t ∈ productTask, Paired d t
  once : ∀ τ, (productTask.countP fun t => t.triple = τ) + multiplied.count τ =
    if Created d aTiles bTiles τ then 1 else 0

/-- A loop that makes something at one index at most. -/
theorem countP_range {n j : ℕ} {p : ℕ → Bool} (hp : ∀ i < n, p i = true → i = j) :
    (List.range n).countP p = if j < n ∧ p j = true then 1 else 0 := by
  by_cases hj : p j = true
  · have hcount : (List.range n).countP p = (List.range n).count j := by
      refine List.countP_congr fun i hi => ?_
      rw [beq_iff_eq]
      constructor
      · exact hp i (List.mem_range.mp hi)
      · rintro rfl
        exact hj
    rw [hcount, List.nodup_range.count]
    simp only [List.mem_range, hj, and_true]
  · rw [if_neg fun hand => hj hand.2, List.countP_eq_zero]
    intro i hi hpi
    obtain rfl := hp i (List.mem_range.mp hi) hpi
    exact hj hpi

/-- What a tile of `A` that arrives makes possible. -/
theorem created_update_a {d : Sizes} {aTiles bTiles : ℕ → Option Tile} {i k : ℕ} (hi : i < d.tm)
    (hk : k < d.tk) (t : Tile) (τ : Triple) :
    Created d (Function.update aTiles (i * d.tk + k) (some t)) bTiles τ ↔
      if τ.1 = i ∧ τ.2.1 = k then τ.2.2 < d.tn ∧ (bTiles (k * d.tn + τ.2.2)).isSome
      else Created d aTiles bTiles τ := by
  obtain ⟨i', k', j⟩ := τ
  split
  · next heq =>
    obtain ⟨rfl, rfl⟩ := heq
    simp [Created, hi, hk]
  · next hne =>
    by_cases hk' : k' < d.tk
    · rw [Created, Created, Function.update_of_ne fun heq => hne (index_inj hk' hk heq)]
    · exact iff_of_false (fun h => hk' h.1.2.1) fun h => hk' h.1.2.1

/-- What a tile of `B` that arrives makes possible. -/
theorem created_update_b {d : Sizes} {aTiles bTiles : ℕ → Option Tile} {k j : ℕ} (hk : k < d.tk)
    (hj : j < d.tn) (t : Tile) (τ : Triple) :
    Created d aTiles (Function.update bTiles (k * d.tn + j) (some t)) τ ↔
      if τ.2.1 = k ∧ τ.2.2 = j then τ.1 < d.tm ∧ (aTiles (τ.1 * d.tk + k)).isSome
      else Created d aTiles bTiles τ := by
  obtain ⟨i, k', j'⟩ := τ
  split
  · next heq =>
    obtain ⟨rfl, rfl⟩ := heq
    simp [Created, hk, hj]
  · next hne =>
    by_cases hj' : j' < d.tn
    · rw [Created, Created, Function.update_of_ne fun heq => hne (index_inj hj' hj heq)]
    · exact iff_of_false (fun h => hj' h.1.2.2) fun h => hj' h.1.2.2

variable [Zero R] {d : Sizes} {aTiles bTiles : ℕ → Option Tile}
  {productTask : List (ProductTiles R)} {multiplied : List Triple}

theorem paired_productTiles {i k j : ℕ} :
    Paired d (productTiles (d.tileA i k) (d.tileB k j) : ProductTiles R) :=
  ⟨rfl, rfl, rfl, rfl, rfl⟩

omit [Zero R] in
/-- The pairs that a loop makes: one for each index `j` at which the table has a tile. -/
theorem countP_filterMap_pairs {n j : ℕ} {f : ℕ → Option Tile} {g : Tile → ProductTiles R}
    {τ : Triple} (hg : ∀ i < n, ∀ b, f i = some b → ((g b).triple = τ ↔ i = j)) :
    ((List.range n).filterMap fun i => (f i).map g).countP (fun t => t.triple = τ) =
      if j < n ∧ (f j).isSome then 1 else 0 := by
  rw [List.countP_filterMap, countP_range (j := j)]
  · by_cases hj : j < n
    · cases hf : f j with
      | none => simp
      | some b => simp [hj, (hg j hj b hf).mpr rfl]
    · rw [if_neg fun hand => hj hand.1, if_neg fun hand => hj hand.1]
  · intro i hi hp
    cases hf : f i with
    | none => simp [hf] at hp
    | some b =>
      rw [hf] at hp
      exact (hg i hi b hf).mp (of_decide_eq_true hp)

omit [Zero R] in
/-- No pair is made of other tiles. -/
theorem countP_filterMap_eq_zero {n : ℕ} {f : ℕ → Option Tile} {g : Tile → ProductTiles R}
    {τ : Triple} (hg : ∀ i < n, ∀ b, f i = some b → (g b).triple ≠ τ) :
    ((List.range n).filterMap fun i => (f i).map g).countP (fun t => t.triple = τ) = 0 := by
  refine List.countP_eq_zero.mpr fun t ht htriple => ?_
  obtain ⟨i, hi, hmap⟩ := List.mem_filterMap.mp ht
  obtain ⟨b, hb, rfl⟩ := Option.map_eq_some_iff.mp hmap
  exact hg i (List.mem_range.mp hi) b hb (of_decide_eq_true htriple)

variable {splitA productTileA splitB productTileB : List Tile}

/-- **A tile of `A` arrives.** -/
theorem Pairs.tileA (h : Pairs d aTiles bTiles productTask multiplied)
    (hA : Arriving d.tm d.tk d.tileA splitA productTileA aTiles)
    (hB : Arriving d.tk d.tn d.tileB splitB productTileB bTiles) {t : Tile}
    (ht : t ∈ productTileA) :
    Pairs d (Function.update aTiles (t.row * d.tk + t.col) (some t)) bTiles
      (productTask ++ (List.range d.tn).filterMap fun col =>
        (bTiles (t.col * d.tn + col)).map fun b => productTiles t b) multiplied := by
  obtain ⟨⟨hrow, hcol⟩, hnone⟩ := hA.free ht
  have htile := hA.of_waiting t ht
  refine ⟨fun u hu => ?_, fun τ => ?_⟩
  · rcases List.mem_append.mp hu with hu | hu
    · exact h.paired u hu
    · obtain ⟨j, hj, hmap⟩ := List.mem_filterMap.mp hu
      obtain ⟨b, hb, rfl⟩ := Option.map_eq_some_iff.mp hmap
      rw [htile, hB.of_stored t.col j b hcol (List.mem_range.mp hj) hb]
      exact paired_productTiles
  · have honce := h.once τ
    rw [List.countP_append, if_congr (created_update_a hrow hcol t τ) rfl rfl]
    by_cases hτ : τ.1 = t.row ∧ τ.2.1 = t.col
    · have hold : ¬ Created d aTiles bTiles τ := by
        intro hcreated
        have hsome := hcreated.2.1
        rw [hτ.1, hτ.2, hnone] at hsome
        cases hsome
      rw [if_neg hold] at honce
      rw [if_congr (if_pos hτ).to_iff rfl rfl, countP_filterMap_pairs (j := τ.2.2)]
      · omega
      · intro i hi b hb
        rw [hB.of_stored t.col i b hcol hi hb]
        simp [ProductTiles.triple, productTiles, Sizes.tileB, tileAt, Prod.ext_iff, hτ]
    · rw [if_congr (if_neg hτ).to_iff rfl rfl, ← honce, countP_filterMap_eq_zero]
      · omega
      · rintro i - b - rfl
        exact hτ ⟨rfl, rfl⟩

/-- **A tile of `B` arrives.** -/
theorem Pairs.tileB (h : Pairs d aTiles bTiles productTask multiplied)
    (hA : Arriving d.tm d.tk d.tileA splitA productTileA aTiles)
    (hB : Arriving d.tk d.tn d.tileB splitB productTileB bTiles) {t : Tile}
    (ht : t ∈ productTileB) :
    Pairs d aTiles (Function.update bTiles (t.row * d.tn + t.col) (some t))
      (productTask ++ (List.range d.tm).filterMap fun row =>
        (aTiles (row * d.tk + t.row)).map fun a => productTiles a t) multiplied := by
  obtain ⟨⟨hrow, hcol⟩, hnone⟩ := hB.free ht
  have htile := hB.of_waiting t ht
  refine ⟨fun u hu => ?_, fun τ => ?_⟩
  · rcases List.mem_append.mp hu with hu | hu
    · exact h.paired u hu
    · obtain ⟨i, hi, hmap⟩ := List.mem_filterMap.mp hu
      obtain ⟨a, ha, rfl⟩ := Option.map_eq_some_iff.mp hmap
      rw [htile, hA.of_stored i t.row a (List.mem_range.mp hi) hrow ha]
      exact paired_productTiles
  · have honce := h.once τ
    rw [List.countP_append, if_congr (created_update_b hrow hcol t τ) rfl rfl]
    by_cases hτ : τ.2.1 = t.row ∧ τ.2.2 = t.col
    · have hold : ¬ Created d aTiles bTiles τ := by
        intro hcreated
        have hsome := hcreated.2.2
        rw [hτ.1, hτ.2, hnone] at hsome
        cases hsome
      rw [if_neg hold] at honce
      rw [if_congr (if_pos hτ).to_iff rfl rfl, countP_filterMap_pairs (j := τ.1)
        (f := fun row => aTiles (row * d.tk + t.row)) (g := fun a => productTiles a t)]
      · omega
      · intro i hi a ha
        rw [hA.of_stored i t.row a hi hrow ha]
        simp [ProductTiles.triple, productTiles, Sizes.tileA, tileAt, Prod.ext_iff, hτ, eq_comm]
    · rw [if_congr (if_neg hτ).to_iff rfl rfl, ← honce,
        countP_filterMap_eq_zero (f := fun row => aTiles (row * d.tk + t.row))
          (g := fun a => productTiles a t)]
      · omega
      · rintro i hi a ha rfl
        rw [hA.of_stored i t.row a hi hrow ha] at hτ
        exact hτ ⟨rfl, rfl⟩

omit [Zero R] in
/-- **A pair is multiplied.** -/
theorem Pairs.multiply (h : Pairs d aTiles bTiles productTask multiplied) {n : ℕ}
    {t : ProductTiles R} (ht : productTask[n]? = some t) :
    Pairs d aTiles bTiles (productTask.eraseIdx n) (multiplied ++ [t.triple]) := by
  refine ⟨fun u hu => h.paired u (List.mem_of_mem_eraseIdx hu), fun τ => ?_⟩
  rw [← h.once τ, countP_eraseIdx ht, List.count_append, List.count_singleton]
  simp only [beq_iff_eq, decide_eq_true_eq]
  omega

end Pairs

end Dgemm
end ThreadUtils
