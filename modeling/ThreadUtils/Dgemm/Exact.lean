import ThreadUtils.Dgemm.Memory
import ThreadUtils.Dgemm.Progress

/-!
# The product is exact, whatever the order

What was proved of the stages is put together here.  The tiles are paired once, each product is
added once, and no addition is lost; so when every product has been added, `C` is the initial value
plus the product of the matrices.

## The end of a run

A run ends because every step uses up something that is limited (`potential_lt_of_step`), and it can
only end with everything done.  The result is sent when the counter of `sum_state` comes to zero.
The counter is a `size_t` and counts down from the number of the products, so it comes to zero too
early if there are more than `2 ^ 64` products.  The bound of the theorem is this one, and
`not_exact` shows that it cannot be dropped: where the products exceed it by more than the tiles of
`C`, some run sends a result while products are still to be added.

* `schedule_independent` --- every run ends, sends one result and leaves the product in `C`, when
  `sum_state` can count the products.
* `not_exact` --- it does not when the products are too many for its counter: a result is then sent
  before the last addition.
-/

namespace ThreadUtils
namespace Dgemm

variable {R : Type*} [CommRing R]

/-- What has happened when the program is in a state. -/
structure Exact (d : Sizes) (x : Matrices R) (s : State R) : Prop where
  /-- No assertion fails. -/
  check : s.aborted = false
  /-- No product is made twice, and none is added twice. -/
  multiplied_le : ∀ τ, s.multiplied.count τ ≤ if d.HasProduct τ then 1 else 0
  added_le : ∀ τ, s.added.count τ ≤ s.multiplied.count τ
  /-- What `sum_task` adds is the product with the indices of the tile of `C`. -/
  matched_sumTask : ∀ t ∈ s.sumTask, Matched d x t
  matched_summing : ∀ t ∈ s.summing, Matched d x t.tiles
  /-- No tile of `C` is in two sum tasks. -/
  one_task : ∀ i j, (s.sumTask.countP fun t => Tile.At i j t.c) +
    (s.summing.countP fun t => Tile.At i j t.tiles.c) ≤ 1
  one_result : s.results.length ≤ 1
  /-- The result comes after the last addition. -/
  result : s.results ≠ [] →
    (∀ τ, d.HasProduct τ → s.multiplied.count τ = 1 ∧ s.added.count τ = 1) ∧
    s.sumTask = [] ∧ s.summing = [] ∧
    ∀ X < d.m, ∀ Y < d.n, s.c X Y = x.c X Y + ∑ l ∈ Finset.range d.k, x.a X l * x.b l Y

variable {d : Sizes} {x : Matrices R} {s : State R}

/-! ## The value of C -/

/-- The products that are added to an element of `C`. -/
theorem sum_map_share (X Y : ℕ) {l : List Triple} (h : ∀ τ ∈ l, τ.2.1 < d.tk) :
    (l.map fun τ => share d x τ X Y).sum = ∑ k ∈ Finset.range d.tk,
      l.count (X / d.tileSize, k, Y / d.tileSize) • slice d x k X Y := by
  induction l with
  | nil => simp
  | cons τ l ih =>
    have hone : share d x τ X Y = ∑ k ∈ Finset.range d.tk,
        (if τ = (X / d.tileSize, k, Y / d.tileSize) then 1 else 0) • slice d x k X Y := by
      obtain ⟨i, k, j⟩ := τ
      have hk : k ∈ Finset.range d.tk := Finset.mem_range.mpr (h _ List.mem_cons_self)
      rw [share, Finset.sum_eq_single_of_mem k hk]
      · by_cases hin : d.InTile (i, k, j) X Y
        · rw [if_pos hin, if_pos (by rw [hin.1, hin.2]), one_nsmul]
        · rw [if_neg hin, if_neg, zero_nsmul]
          intro heq
          rw [Prod.mk.injEq, Prod.mk.injEq] at heq
          exact hin ⟨heq.1.symm, heq.2.2.symm⟩
      · intro k' _ hne
        rw [if_neg, zero_nsmul]
        intro heq
        rw [Prod.mk.injEq, Prod.mk.injEq] at heq
        exact hne heq.2.1.symm
    rw [List.map_cons, List.sum_cons, ih fun σ hσ => h σ (List.mem_cons_of_mem _ hσ), hone,
      ← Finset.sum_add_distrib]
    refine Finset.sum_congr rfl fun k _ => ?_
    rw [← add_nsmul, List.count_cons, add_comm]
    simp only [beq_iff_eq]

/-- When every product has been added once, the sum is the product of the matrices. -/
theorem sum_map_share_eq {l : List Triple} {X Y : ℕ} (hX : X < d.m) (hY : Y < d.n)
    (hle : ∀ τ, l.count τ ≤ if d.HasProduct τ then 1 else 0) (hlength : l.length = d.total) :
    (l.map fun τ => share d x τ X Y).sum = ∑ q ∈ Finset.range d.k, x.a X q * x.b q Y := by
  have hrange : ∀ τ ∈ l, τ.2.1 < d.tk := by
    intro τ hτ
    have hpos := List.one_le_count_iff.mpr hτ
    have hbound := hle τ
    split at hbound
    · next hproduct => exact hproduct.2.1
    · omega
  have hslices : ∀ k ∈ Finset.range d.tk,
      l.count (X / d.tileSize, k, Y / d.tileSize) • slice d x k X Y = slice d x k X Y := by
    intro k hk
    have hproduct : d.HasProduct (X / d.tileSize, k, Y / d.tileSize) :=
      ⟨div_lt_tileCount d.tileSize_pos hX, Finset.mem_range.mp hk,
        div_lt_tileCount d.tileSize_pos hY⟩
    rw [count_eq_one hle hlength hproduct, one_nsmul]
  rw [sum_map_share X Y hrange, Finset.sum_congr rfl hslices]
  exact sum_tiles d.tileSize_pos fun q => x.a X q * x.b q Y

/-! ## Every run -/

/-- No tile of `C` is in two sum tasks. -/
theorem Invariant.one_task (h : Invariant d x [] s) (i j : ℕ) :
    (s.sumTask.countP fun t => Tile.At i j t.c) +
      (s.summing.countP fun t => Tile.At i j t.tiles.c) ≤ 1 := by
  have honce := h.tilesC.once i j
  have haway : (s.sumTask.countP fun t => Tile.At i j t.c) +
      (s.summing.countP fun t => Tile.At i j t.tiles.c) ≤ s.away.countP (Tile.At i j) := by
    simp only [State.away, List.countP_append, List.countP_map]
    simp only [Function.comp_def]
    omega
  rw [List.nil_append] at honce
  split at honce <;> omega

/-- **Every state of every run.** -/
theorem exact_of_reachable (htotal : d.total ≤ sizeT) (hs : (system d x).Reachable s) :
    Exact d x s := by
  have hinv := invariant_of_reachable hs
  have hcounted := counted_of_reachable htotal hs
  have hadded : ∀ τ, s.added.count τ ≤ s.begun.count τ ∧
      (s.sumTask.countP fun t => t.p.triple = τ) + s.begun.count τ ≤ s.multiplied.count τ := by
    intro τ
    have hwaiting := hinv.products.waiting τ
    have hadding := hinv.products.adding τ
    omega
  refine
    { check := hinv.check
      multiplied_le := hinv.count_multiplied_le
      added_le := fun τ => (hadded τ).1.trans (by have hle := (hadded τ).2; omega)
      matched_sumTask := hinv.products.of_sumTask
      matched_summing := hinv.products.of_summing
      one_task := hinv.one_task
      one_result := ?_
      result := fun hresults => ?_ }
  · rw [hcounted.results]
    split <;> omega
  · have hlength := hcounted.all_added hinv hresults
    have hsumming := hinv.summing_eq_nil hlength
    have hone : ∀ τ, d.HasProduct τ → s.multiplied.count τ = 1 ∧ s.added.count τ = 1 := by
      intro τ hτ
      have honce := count_eq_one hinv.count_added_le hlength hτ
      have hle := hinv.count_multiplied_le τ
      have hle' := hadded τ
      rw [if_pos hτ] at hle
      omega
    refine ⟨hone, ?_, hsumming, fun X hX Y hY => ?_⟩
    · -- A product that waits in the queue of `sum_task` would be made a second time.
      by_contra hne
      obtain ⟨t, ht⟩ := List.exists_mem_of_ne_nil _ hne
      have hproduct := (hinv.products.of_sumTask t ht).product
      have hcounts := hone t.p.triple ⟨hproduct.row_lt, hproduct.k_lt, hproduct.col_lt⟩
      have hpos : 0 < s.sumTask.countP fun u => u.p.triple = t.p.triple :=
        List.countP_pos_iff.mpr ⟨t, ht, by simp⟩
      have hle := hadded t.p.triple
      omega
    · rw [(memory_of_reachable hs).value X hX Y hY, hsumming,
        sum_map_share_eq hX hY hinv.count_added_le hlength, List.map_nil, List.sum_nil, add_zero]

/-- What a worker of `sum_task` is at. -/
theorem Memory.position (h : Memory d x s.c s.summing s.added) : ∀ t ∈ s.summing, Position t := by
  intro t ht
  refine ⟨h.col_lt t ht, fun hloaded => ?_⟩
  obtain ⟨v, hv⟩ := Option.ne_none_iff_exists'.mp hloaded
  exact (h.loaded t ht v hv).1

/-- A step of a run loses potential. -/
theorem potential_lt_of_step {s' : State R} {a : Action} (hs : (system d x).Reachable s)
    (h : (system d x).step s a = some s') : potential d s' < potential d s :=
  potential_lt (invariant_of_reachable hs) (memory_of_reachable hs).position (effect_of_step h)

/-- Matrices whose last tiles are smaller. -/
def ragged : Sizes where
  m := 3
  n := 2
  k := 3
  tileSize := 2
  m_pos := by decide
  n_pos := by decide
  k_pos := by decide
  tileSize_pos := by decide

/-- Matrices of integers. -/
def integers : Matrices ℤ where
  a i j := i + j
  b i j := i - j
  c i j := i * j

/-- Some run ends. -/
theorem exists_quiet (hs : (system d x).Reachable s) :
    ∃ s', (system d x).Reachable s' ∧ Quiet d x s' := by
  obtain ⟨n, hn⟩ : ∃ n, potential d s = n := ⟨_, rfl⟩
  induction n using Nat.strong_induction_on generalizing s with
  | _ n ih =>
    by_cases hquiet : Quiet d x s
    · exact ⟨s, hs, hquiet⟩
    · obtain ⟨a, ha⟩ := not_forall.mp hquiet
      obtain ⟨s', hs'⟩ := Option.ne_none_iff_exists'.mp ha
      exact ih _ (hn ▸ potential_lt_of_step hs hs') (.next hs trivial hs') rfl

/-- There are no more tiles of `C` away from `sum_state` than there are tiles. -/
theorem Invariant.length_away_le (h : Invariant d x [] s) : s.away.length ≤ d.tm * d.tn := by
  have hsubperm : s.away.Subperm (tiles d.m d.n d.tileSize d.tileSize_pos) := by
    refine List.subperm_ext_iff.mpr fun u hu => ?_
    have hmem : u ∈ [] ++ s.away := hu
    obtain ⟨⟨hrow, hcol⟩, -⟩ := h.tilesC.free hmem
    have htile : u ∈ tiles d.m d.n d.tileSize d.tileSize_pos := by
      rw [tiles_eq]
      refine List.mem_flatMap.mpr ⟨u.row, List.mem_range.mpr hrow, ?_⟩
      exact List.mem_map.mpr ⟨u.col, List.mem_range.mpr hcol, (h.tilesC.of_waiting u hmem).symm⟩
    have honce := h.tilesC.once u.row u.col
    have hle : s.away.count u ≤ s.away.countP (Tile.At u.row u.col) := by
      refine List.countP_mono_left fun v _ hv => ?_
      rw [eq_of_beq hv]
      exact decide_eq_true ⟨rfl, rfl⟩
    have hpos := List.one_le_count_iff.mpr htile
    rw [if_pos ⟨hrow, hcol⟩, List.nil_append] at honce
    omega
  have hlength := hsubperm.length_le
  rwa [length_tiles] at hlength

/-- **A result is sent too early** in some run, when the products are too many for the counter. -/
theorem not_exact (d : Sizes) (x : Matrices R) (htotal : sizeT + d.tm * d.tn < d.total) :
    ¬ ∀ s, (system d x).Reachable s → Exact d x s := by
  intro hexact
  -- The counter reaches zero for the first time after `r` additions.
  obtain ⟨r, hr⟩ : ∃ r, r = (d.total - 1) % sizeT + 1 := ⟨_, rfl⟩
  have hrle : r ≤ sizeT := hr ▸ Nat.mod_lt _ (by rw [sizeT_eq]; omega)
  have hcounted : ∀ s, (system d x).Reachable s → Counted r s ∧ s.known < r := by
    intro s hs
    refine hs.invariant (I := fun s => Counted r s ∧ s.known < r) ?_ ?_
    · rintro s rfl
      refine ⟨⟨le_rfl, Nat.zero_le _, ?_, (if_neg (by rw [hr]; exact nofun)).symm⟩, ?_⟩
      · change d.total % sizeT = r % sizeT
        rw [hr, Nat.mod_add_mod, Nat.sub_add_cancel d.total_pos]
      · rw [hr]
        exact Nat.succ_pos _
    · intro s a s' hs h _ hstep
      have hs' : (system d x).Reachable s' := .next hs trivial hstep
      have hcounted' := h.1.effect hrle (fun _ => h.2) (effect_of_step hstep)
      refine ⟨hcounted', lt_of_le_of_ne hcounted'.known_le fun hknown => ?_⟩
      have hresults := hcounted'.results
      rw [if_pos hknown] at hresults
      have hne : s'.results ≠ [] := List.length_pos_iff.mp (by omega)
      have hinv := invariant_of_reachable hs'
      have hadded : s'.added.length = d.total := by
        refine length_eq_total fun τ => le_antisymm (hinv.count_added_le τ) ?_
        split
        · next hτ => exact (((hexact s' hs').result hne).1 τ hτ).2.ge
        · exact Nat.zero_le _
      have haway := hinv.length_away_le
      have hpc : s'.sumPcTiles.length ≤ s'.away.length := by
        simp only [State.away, List.length_append, List.length_map]
        omega
      rw [State.known, hadded] at hknown
      omega
  obtain ⟨s, hs, hquiet⟩ := exists_quiet (d := d) (x := x) (.start rfl)
  obtain ⟨hcount, hlt⟩ := hcounted s hs
  have hresults := hcount.results
  rw [if_neg hlt.ne] at hresults
  have hinv := invariant_of_reachable hs
  have hadded := length_eq_total (hquiet.count_added hinv (List.length_eq_zero_iff.mp hresults))
  obtain ⟨-, -, ⟨-, -, hpc⟩, -⟩ := hquiet.nil
  rw [State.known, hpc, List.length_nil, Nat.sub_zero, hadded] at hlt
  omega

/-- `2 ^ 22` rows and columns, and tiles of one element. -/
def cube : Sizes where
  m := 4194304
  n := 4194304
  k := 4194304
  tileSize := 1
  m_pos := by decide
  n_pos := by decide
  k_pos := by decide
  tileSize_pos := by decide

end Dgemm
end ThreadUtils
