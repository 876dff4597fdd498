import ThreadUtils.Dgemm.Model

/-!
# What a step does

`Effect` lists the steps with their guards.  A tile of `C` comes to `sum_state` from `split_task`
and, after each of its sums but the last, from `sum_task`; in both cases it is offered to the
products that wait for it.
-/

namespace ThreadUtils
namespace Dgemm

variable {R : Type*} [CommRing R]

/-- The steps. -/
inductive Effect (d : Sizes) (x : Matrices R) (s : State R) : State R → Prop
  | splitA (t : Tile) (rest : List Tile) : s.splitA = t :: rest →
      Effect d x s { s with splitA := rest, productTileA := s.productTileA ++ [t] }
  | splitB (t : Tile) (rest : List Tile) : s.splitB = t :: rest →
      Effect d x s { s with splitB := rest, productTileB := s.productTileB ++ [t] }
  | splitC (t : Tile) (rest : List Tile) : s.splitC = t :: rest →
      Effect d x s { s with splitC := rest, sumTileC := s.sumTileC ++ [t] }
  | tileA (n : ℕ) (t : Tile) : s.productTileA[n]? = some t →
      Effect d x s (productStateExecTileA d
        { s with productTileA := s.productTileA.eraseIdx n } t)
  | tileB (n : ℕ) (t : Tile) : s.productTileB[n]? = some t →
      Effect d x s (productStateExecTileB d
        { s with productTileB := s.productTileB.eraseIdx n } t)
  | product (n : ℕ) (t : ProductTiles R) : s.productTask[n]? = some t →
      Effect d x s (productTaskExec x { s with productTask := s.productTask.eraseIdx n } t)
  | tileC (n : ℕ) (t : Tile) : s.sumTileC[n]? = some t →
      Effect d x s (sumStateExecTileC d { s with sumTileC := s.sumTileC.eraseIdx n } t)
  | pairP (n : ℕ) (t : ProductTile R) (c : Tile) : s.sumTileP[n]? = some t →
      s.cTiles (t.row * d.tn + t.col) = some c →
      Effect d x s { s with
        sumTileP := s.sumTileP.eraseIdx n
        cTiles := Function.update s.cTiles (t.row * d.tn + t.col) none
        sumTask := s.sumTask ++ [⟨t, c⟩] }
  | storeP (n : ℕ) (t : ProductTile R) : s.sumTileP[n]? = some t →
      s.cTiles (t.row * d.tn + t.col) = none →
      Effect d x s { s with
        sumTileP := s.sumTileP.eraseIdx n
        sumQueues := Function.update s.sumQueues (t.row * d.tn + t.col)
          (s.sumQueues (t.row * d.tn + t.col) ++ [t]) }
  | result (n : ℕ) (t : SumTiles R) : s.sumPcTiles[n]? = some t →
      addSizeT s.count (sizeT - 1) = 0 →
      Effect d x s { s with
        sumPcTiles := s.sumPcTiles.eraseIdx n
        count := addSizeT s.count (sizeT - 1)
        results := s.results ++ [t.c] }
  | again (n : ℕ) (t : SumTiles R) : s.sumPcTiles[n]? = some t →
      addSizeT s.count (sizeT - 1) ≠ 0 →
      Effect d x s (sumStateExecTileC d { s with
        sumPcTiles := s.sumPcTiles.eraseIdx n
        count := addSizeT s.count (sizeT - 1) } t.c)
  | beginSum (n : ℕ) (t : SumTiles R) : s.sumTask[n]? = some t →
      Effect d x s (State.beginSum { s with sumTask := s.sumTask.eraseIdx n } t)
  | load (n : ℕ) (t : Summing R) : s.summing[n]? = some t → t.loaded = none →
      t.row < t.tiles.c.rows →
      Effect d x s { s with
        summing := s.summing.eraseIdx n ++
          [{ t with loaded := some (s.c t.address.1 t.address.2) }] }
  | store (n : ℕ) (t : Summing R) (v : R) : s.summing[n]? = some t → t.loaded = some v →
      Effect d x s { s with
        c := Function.update s.c t.address.1
          (Function.update (s.c t.address.1) t.address.2 (v + t.tiles.p.data t.row t.col))
        summing := s.summing.eraseIdx n ++ [t.next] }
  | endSum (n : ℕ) (t : Summing R) : s.summing[n]? = some t → t.loaded = none →
      ¬ t.row < t.tiles.c.rows →
      Effect d x s { s with
        summing := s.summing.eraseIdx n
        sumPcTiles := s.sumPcTiles ++ [t.tiles]
        added := s.added ++ [t.tiles.p.triple] }

variable {d : Sizes} {x : Matrices R} {s s' : State R}

/-- **Every step is one of the listed ones.** -/
theorem effect_of_step {a : Action} (h : step d x s a = some s') : Effect d x s s' := by
  cases a with
  | splitA =>
    rw [step] at h
    split at h
    · cases h
    · next t rest hsplit =>
      obtain rfl := Option.some.inj h
      exact .splitA t rest hsplit
  | splitB =>
    rw [step] at h
    split at h
    · cases h
    · next t rest hsplit =>
      obtain rfl := Option.some.inj h
      exact .splitB t rest hsplit
  | splitC =>
    rw [step] at h
    split at h
    · cases h
    · next t rest hsplit =>
      obtain rfl := Option.some.inj h
      exact .splitC t rest hsplit
  | tileA n =>
    obtain ⟨t, ht, rfl⟩ := Option.map_eq_some_iff.mp h
    exact .tileA n t ht
  | tileB n =>
    obtain ⟨t, ht, rfl⟩ := Option.map_eq_some_iff.mp h
    exact .tileB n t ht
  | product n =>
    obtain ⟨t, ht, rfl⟩ := Option.map_eq_some_iff.mp h
    exact .product n t ht
  | tileC n =>
    obtain ⟨t, ht, rfl⟩ := Option.map_eq_some_iff.mp h
    exact .tileC n t ht
  | tileP n =>
    obtain ⟨t, ht, rfl⟩ := Option.map_eq_some_iff.mp h
    rw [sumStateExecTileP]
    split
    · next c hc => exact .pairP n t c ht hc
    · next hc => exact .storeP n t ht hc
  | pcTiles n =>
    obtain ⟨t, ht, rfl⟩ := Option.map_eq_some_iff.mp h
    rw [sumStateExecPcTiles]
    split
    · next hzero => exact .result n t ht hzero
    · next hne => exact .again n t ht hne
  | beginSum n =>
    obtain ⟨t, ht, rfl⟩ := Option.map_eq_some_iff.mp h
    exact .beginSum n t ht
  | sum n =>
    obtain ⟨t, ht, rfl⟩ := Option.map_eq_some_iff.mp h
    rw [State.sum]
    split
    · next v hv => exact .store n t v ht hv
    · next hnone =>
      split
      · next hlt => exact .load n t ht hnone hlt
      · next hge => exact .endSum n t ht hnone hge

omit [CommRing R] in
/-- The tile of `C` meets a product, or waits for one. -/
theorem sumStateExecTileC_cases (d : Sizes) (s : State R) (tile : Tile) :
    (∃ p rest, s.sumQueues (tile.row * d.tn + tile.col) = rest ++ [p] ∧
      sumStateExecTileC d s tile = { s with
        sumQueues := Function.update s.sumQueues (tile.row * d.tn + tile.col) rest
        sumTask := s.sumTask ++ [⟨p, tile⟩] }) ∨
    s.sumQueues (tile.row * d.tn + tile.col) = [] ∧
      sumStateExecTileC d s tile = { s with
        cTiles := Function.update s.cTiles (tile.row * d.tn + tile.col) (some tile) } := by
  unfold sumStateExecTileC
  rcases List.eq_nil_or_concat (s.sumQueues (tile.row * d.tn + tile.col)) with hnil | ⟨rest, p, hp⟩
  · refine Or.inr ⟨hnil, ?_⟩
    simp only [hnil, List.getLast?_nil]
  · rw [List.concat_eq_append] at hp
    refine Or.inl ⟨p, rest, hp, ?_⟩
    simp only [hp, List.getLast?_concat, List.dropLast_concat]

end Dgemm
end ThreadUtils
