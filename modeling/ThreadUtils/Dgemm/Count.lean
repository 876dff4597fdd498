import Mathlib.Data.List.Nodup
import Mathlib.Data.List.ProdSigma
import ThreadUtils.Dgemm.Invariant

/-!
# Each product is made once and added once

## Why the counter is right

`sum_state` does not see an addition end.  It learns of it when the tile of `C` comes back, and some
tiles are on their way back (`sumPcTiles`).  So the counter counts down the additions that
it knows of, and lags behind those that have ended.  It is zero when it knows of all, and then
all have ended; the other way round would not be true.

A product cannot be added twice, because a pair is made once and a product is in one place until its
addition begins.  So the additions that have ended are different products, and when there are as
many of them as there are products, they are all (`Counted.all_added`).

The counter is a `size_t`.  If it wraps, zero does not mean that nothing is left.

* `count_added_le` --- no product is added twice.
* `counted_of_reachable` --- the counter of `sum_state` is the number of the additions that it does
  not know of, when the number of the products fits into a `size_t`.
* `Counted.all_added` --- the result is sent after the last addition.
-/

namespace ThreadUtils
namespace Dgemm

/-! ## The products -/

/-- The indices of a product are in range. -/
abbrev Sizes.HasProduct (d : Sizes) (τ : Triple) : Prop :=
  τ.1 < d.tm ∧ τ.2.1 < d.tk ∧ τ.2.2 < d.tn

/-- The products. -/
def Sizes.triples (d : Sizes) : List Triple :=
  List.range d.tm ×ˢ (List.range d.tk ×ˢ List.range d.tn)

/-- `TM * TN * TK`. -/
def Sizes.total (d : Sizes) : ℕ := d.tm * d.tn * d.tk

theorem Sizes.mem_triples {d : Sizes} {τ : Triple} : τ ∈ d.triples ↔ d.HasProduct τ :=
  List.pair_mem_product.trans (and_congr List.mem_range
    (List.pair_mem_product.trans (and_congr List.mem_range List.mem_range)))

theorem Sizes.nodup_triples (d : Sizes) : d.triples.Nodup :=
  List.nodup_range.product (List.nodup_range.product List.nodup_range)

theorem Sizes.length_triples (d : Sizes) : d.triples.length = d.total := by
  rw [Sizes.triples, List.length_product, List.length_product, List.length_range,
    List.length_range, List.length_range, Sizes.total, mul_comm d.tk, mul_assoc]

theorem Sizes.total_pos (d : Sizes) : 0 < d.total :=
  Nat.mul_pos (Nat.mul_pos (tileCount_pos d.tileSize_pos d.m_pos)
    (tileCount_pos d.tileSize_pos d.n_pos)) (tileCount_pos d.tileSize_pos d.k_pos)

/-- A history in which no product occurs twice is a part of the products. -/
theorem subperm_triples {d : Sizes} {l : List Triple}
    (h : ∀ τ, l.count τ ≤ if d.HasProduct τ then 1 else 0) : l.Subperm d.triples := by
  refine List.subperm_ext_iff.mpr fun τ hτ => (h τ).trans ?_
  split
  · next hrange => exact List.one_le_count_iff.mpr (Sizes.mem_triples.mpr hrange)
  · exact Nat.zero_le _

/-- There are no more of them than there are products. -/
theorem length_le_total {d : Sizes} {l : List Triple}
    (h : ∀ τ, l.count τ ≤ if d.HasProduct τ then 1 else 0) : l.length ≤ d.total :=
  d.length_triples ▸ (subperm_triples h).length_le

/-- When there are as many, every product occurs. -/
theorem count_eq_one {d : Sizes} {l : List Triple}
    (h : ∀ τ, l.count τ ≤ if d.HasProduct τ then 1 else 0) (hlength : l.length = d.total)
    {τ : Triple} (hτ : d.HasProduct τ) : l.count τ = 1 := by
  have hperm := (subperm_triples h).perm_of_length_le (by rw [d.length_triples, hlength])
  rw [hperm.count_eq]
  exact List.count_eq_one_of_mem d.nodup_triples (Sizes.mem_triples.mpr hτ)

/-- And the other way round. -/
theorem length_eq_total {d : Sizes} {l : List Triple}
    (h : ∀ τ, l.count τ = if d.HasProduct τ then 1 else 0) : l.length = d.total := by
  have hperm : l.Perm d.triples := by
    refine List.perm_iff_count.mpr fun τ => ?_
    rw [h τ, d.nodup_triples.count]
    exact if_congr Sizes.mem_triples.symm rfl rfl
  rw [hperm.length_eq, d.length_triples]

variable {R : Type*} [CommRing R] {d : Sizes} {x : Matrices R} {s s' : State R} {hand : List Tile}

namespace Invariant

/-- No product is made twice. -/
theorem count_multiplied_le (h : Invariant d x hand s) (τ : Triple) :
    s.multiplied.count τ ≤ if d.HasProduct τ then 1 else 0 := by
  have honce := h.pairs.once τ
  split
  · split at honce <;> omega
  · next hrange =>
    rw [if_neg fun hcreated => hrange hcreated.1] at honce
    omega

theorem count_begun_le (h : Invariant d x hand s) (τ : Triple) :
    s.begun.count τ ≤ if d.HasProduct τ then 1 else 0 := by
  have hwaiting := h.products.waiting τ
  have hle := h.count_multiplied_le τ
  omega

/-- **No product is added twice.** -/
theorem count_added_le (h : Invariant d x hand s) (τ : Triple) :
    s.added.count τ ≤ if d.HasProduct τ then 1 else 0 := by
  have hadding := h.products.adding τ
  have hle := h.count_begun_le τ
  omega

/-- When all have been added, no worker adds. -/
theorem summing_eq_nil (h : Invariant d x hand s) (hadded : s.added.length = d.total) :
    s.summing = [] := by
  by_contra hne
  obtain ⟨t, ht⟩ := List.exists_mem_of_ne_nil _ hne
  have hproduct := (h.products.of_summing t ht).product
  have hτ : d.HasProduct t.tiles.p.triple := ⟨hproduct.row_lt, hproduct.k_lt, hproduct.col_lt⟩
  have hone := count_eq_one h.count_added_le hadded hτ
  have hbegun := h.count_begun_le t.tiles.p.triple
  have hadding := h.products.adding t.tiles.p.triple
  have hpos : 0 < s.summing.countP fun u => u.tiles.p.triple = t.tiles.p.triple :=
    List.countP_pos_iff.mpr ⟨t, ht, by simp⟩
  rw [if_pos hτ] at hbegun
  omega

end Invariant

/-! ## The counter -/

/-- The number of the additions that `sum_state` knows of. -/
def State.known (s : State R) : ℕ := s.added.length - s.sumPcTiles.length

/-- The counter counts down from `r`. -/
structure Counted (r : ℕ) (s : State R) : Prop where
  le : s.sumPcTiles.length ≤ s.added.length
  known_le : s.known ≤ r
  count : s.count = (r - s.known) % sizeT
  results : s.results.length = if s.known = r then 1 else 0

/-- `task_data->count -= 1`. -/
theorem addSizeT_pred {n : ℕ} (hn : 0 < n) :
    addSizeT (n % sizeT) (sizeT - 1) = (n - 1) % sizeT := by
  have hsum : n + (sizeT - 1) = n - 1 + sizeT := by
    rw [sizeT_eq]
    omega
  rw [addSizeT, Nat.mod_add_mod, hsum, Nat.add_mod_right]

omit [CommRing R] in
theorem sumStateExecTileC_frame (d : Sizes) (s : State R) (tile : Tile) :
    (sumStateExecTileC d s tile).added = s.added ∧
      (sumStateExecTileC d s tile).sumPcTiles = s.sumPcTiles ∧
      (sumStateExecTileC d s tile).count = s.count ∧
      (sumStateExecTileC d s tile).results = s.results ∧
      (sumStateExecTileC d s tile).summing = s.summing ∧
      (sumStateExecTileC d s tile).c = s.c := by
  rcases sumStateExecTileC_cases d s tile with ⟨p, rest, -, heq⟩ | ⟨-, heq⟩ <;>
    rw [heq] <;> exact ⟨rfl, rfl, rfl, rfl, rfl, rfl⟩

namespace Counted

variable {r : ℕ}

omit [CommRing R] in
theorem congr (h : Counted r s) (hadded : s'.added = s.added)
    (hpc : s'.sumPcTiles = s.sumPcTiles) (hcount : s'.count = s.count)
    (hresults : s'.results = s.results) : Counted r s' := by
  have hknown : s'.known = s.known := by rw [State.known, State.known, hadded, hpc]
  refine ⟨?_, ?_, ?_, ?_⟩
  · rw [hadded, hpc]
    exact h.le
  · rw [hknown]
    exact h.known_le
  · rw [hknown, hcount]
    exact h.count
  · rw [hknown, hresults]
    exact h.results

omit [CommRing R] in
/-- **An addition is counted.** -/
theorem count_down (h : Counted r s) (hr : r ≤ sizeT) (hlt : s.known < r) {n : ℕ} {t : SumTiles R}
    (ht : s.sumPcTiles[n]? = some t) {results : List Tile}
    (hresults : results.length =
      s.results.length + if addSizeT s.count (sizeT - 1) = 0 then 1 else 0) :
    Counted r { s with
      sumPcTiles := s.sumPcTiles.eraseIdx n
      count := addSizeT s.count (sizeT - 1)
      results := results } := by
  have hle := h.le
  have hlength := length_eraseIdx_of_getElem? ht
  have hnone := h.results
  have hcount : addSizeT s.count (sizeT - 1) = r - (s.known + 1) := by
    rw [h.count, addSizeT_pred (by omega), Nat.mod_eq_of_lt (by omega)]
    omega
  have hknown : s.known + 1 = s.added.length - (s.sumPcTiles.eraseIdx n).length := by
    unfold State.known
    omega
  rw [if_neg hlt.ne] at hnone
  rw [hnone, Nat.zero_add, hcount] at hresults
  refine ⟨?_, ?_, ?_, hresults.trans (if_congr ?_ rfl rfl)⟩
  · dsimp only
    omega
  · dsimp only [State.known]
    omega
  · dsimp only [State.known]
    rw [hcount, hknown, Nat.mod_eq_of_lt]
    omega
  · dsimp only [State.known]
    omega

/-- **One step** counts right. -/
theorem effect (h : Counted r s) (hr : r ≤ sizeT) (hlt : s.sumPcTiles ≠ [] → s.known < r)
    (he : Effect d x s s') : Counted r s' := by
  have hback : ∀ {n : ℕ} {t : SumTiles R}, s.sumPcTiles[n]? = some t → s.known < r :=
    fun ht => hlt (List.ne_nil_of_mem (List.mem_of_getElem? ht))
  cases he with
  | splitA | splitB | splitC | tileA | tileB | product | pairP | storeP | beginSum | load | store =>
    exact h.congr rfl rfl rfl rfl
  | tileC n t ht =>
    obtain ⟨hadded, hpc, hcount, hresults, -⟩ :=
      sumStateExecTileC_frame d { s with sumTileC := s.sumTileC.eraseIdx n } t
    exact h.congr hadded hpc hcount hresults
  | result n t ht hzero =>
    refine h.count_down hr (hback ht) ht ?_
    rw [if_pos hzero, List.length_append, List.length_singleton]
  | again n t ht hne =>
    have hresults : s.results.length =
        s.results.length + if addSizeT s.count (sizeT - 1) = 0 then 1 else 0 := by
      rw [if_neg hne, Nat.add_zero]
    have hcounted := h.count_down hr (hback ht) ht hresults
    obtain ⟨hadded, hpc, hcount, hsame, -⟩ := sumStateExecTileC_frame d { s with
      sumPcTiles := s.sumPcTiles.eraseIdx n
      count := addSizeT s.count (sizeT - 1) } t.c
    exact hcounted.congr hadded hpc hcount hsame
  | endSum n t ht _ _ =>
    have hle := h.le
    have hknown : State.known { s with
        summing := s.summing.eraseIdx n
        sumPcTiles := s.sumPcTiles ++ [t.tiles]
        added := s.added ++ [t.tiles.p.triple] } = s.known := by
      simp only [State.known, List.length_append, List.length_singleton, Nat.add_sub_add_right]
    refine ⟨?_, hknown ▸ h.known_le, h.count.trans (by rw [hknown]),
      h.results.trans (by rw [hknown])⟩
    simpa only [List.length_append, List.length_singleton, Nat.add_le_add_iff_right] using hle

/-- **The result is sent after the last addition.** -/
theorem all_added (h : Counted d.total s) (hinv : Invariant d x [] s)
    (hresults : s.results ≠ []) : s.added.length = d.total := by
  have hlength := h.results
  have hpos := List.length_pos_iff.mpr hresults
  have hle := length_le_total hinv.count_added_le
  split at hlength
  · next hknown =>
    unfold State.known at hknown
    omega
  · omega

end Counted

/-- The counter counts right in every state of every run. -/
theorem counted_of_reachable (htotal : d.total ≤ sizeT) (hs : (system d x).Reachable s) :
    Counted d.total s := by
  refine hs.invariant ?_ ?_
  · rintro s rfl
    exact ⟨le_rfl, Nat.zero_le _, rfl, (if_neg d.total_pos.ne).symm⟩
  · intro s a s' hr h _ hstep
    refine h.effect htotal (fun hne => ?_) (effect_of_step hstep)
    -- Each tile that comes back brings an addition that has ended.
    have hadded := length_le_total (invariant_of_reachable hr).count_added_le
    have hle := h.le
    have hpos := List.length_pos_iff.mpr hne
    unfold State.known
    omega

end Dgemm
end ThreadUtils
