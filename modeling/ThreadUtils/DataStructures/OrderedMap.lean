import Mathlib.Data.List.Sort
import Mathlib.Order.Basic

/-!
# Ordered sets and maps

`std::set` and `std::map` keep their keys in increasing order, and the loops over them go in
this order.  A set is its list of elements.  A map has the set of its keys, and a function
that finds the value of a key.

* `OrderedSet.ext_of_mem`, `OrderedMap.ext_of_find?` --- two of them with the same elements, or
  values, are the same.
-/

namespace ThreadUtils

/-- `std::set`. -/
@[ext] structure OrderedSet (K : Type*) [LinearOrder K] where
  /-- The elements, in the order of a loop over them. -/
  toList : List K
  sorted : toList.Pairwise (· < ·)
  deriving DecidableEq

namespace OrderedSet

variable {K : Type*} [LinearOrder K]

instance : Membership K (OrderedSet K) where
  mem s k := k ∈ s.toList

instance (k : K) (s : OrderedSet K) : Decidable (k ∈ s) :=
  inferInstanceAs (Decidable (k ∈ s.toList))

theorem mem_toList {k : K} {s : OrderedSet K} : k ∈ s.toList ↔ k ∈ s :=
  Iff.rfl

/-- The empty set. -/
def empty : OrderedSet K := ⟨[], .nil⟩

theorem notMem_empty (k : K) : k ∉ (empty : OrderedSet K) :=
  List.not_mem_nil

theorem nodup (s : OrderedSet K) : s.toList.Nodup :=
  s.sorted.imp fun h => h.ne

/-- Two sets with the same elements are the same. -/
theorem ext_of_mem {s t : OrderedSet K} (h : ∀ k, k ∈ s ↔ k ∈ t) : s = t := by
  refine OrderedSet.ext (List.Perm.eq_of_pairwise ?_ s.sorted t.sorted ?_)
  · exact fun a b _ _ hab hba => absurd hba hab.not_gt
  · exact (List.perm_ext_iff_of_nodup s.nodup t.nodup).mpr h

/-- The list with a new element at its place. -/
def insertSorted (k : K) : List K → List K
  | [] => [k]
  | a :: l => if k < a then k :: a :: l else if k = a then a :: l else a :: insertSorted k l

theorem mem_insertSorted {k a : K} {l : List K} : a ∈ insertSorted k l ↔ a = k ∨ a ∈ l := by
  induction l with
  | nil => simp [insertSorted]
  | cons b l ih =>
    unfold insertSorted
    split
    · exact List.mem_cons
    · split
      · next heq =>
        subst heq
        simp
      · rw [List.mem_cons, ih, List.mem_cons, or_left_comm]

theorem pairwise_insertSorted {k : K} {l : List K} (h : l.Pairwise (· < ·)) :
    (insertSorted k l).Pairwise (· < ·) := by
  induction l with
  | nil => exact List.pairwise_singleton _ _
  | cons b l ih =>
    obtain ⟨hb, hl⟩ := List.pairwise_cons.mp h
    unfold insertSorted
    split
    · next hlt =>
      refine List.pairwise_cons.mpr ⟨fun a ha => ?_, h⟩
      rcases List.mem_cons.mp ha with rfl | ha
      · exact hlt
      · exact hlt.trans (hb a ha)
    · next hge =>
      split
      · exact h
      · next hne =>
        refine List.pairwise_cons.mpr ⟨fun a ha => ?_, ih hl⟩
        rcases mem_insertSorted.mp ha with rfl | ha
        · exact lt_of_le_of_ne (not_lt.mp hge) (Ne.symm hne)
        · exact hb a ha

/-- `std::set::insert`. -/
def insert (s : OrderedSet K) (k : K) : OrderedSet K :=
  ⟨insertSorted k s.toList, pairwise_insertSorted s.sorted⟩

@[simp] theorem mem_insert {s : OrderedSet K} {k a : K} : a ∈ s.insert k ↔ a = k ∨ a ∈ s :=
  mem_insertSorted

/-- An element that is there already. -/
theorem insert_eq_self {s : OrderedSet K} {k : K} (h : k ∈ s) : s.insert k = s := by
  refine ext_of_mem fun a => ?_
  rw [mem_insert]
  exact or_iff_right_of_imp fun ha => ha ▸ h

/-- The set of the elements of a list. -/
def ofList (l : List K) : OrderedSet K :=
  l.foldl insert empty

theorem mem_foldl_insert {l : List K} {s : OrderedSet K} {k : K} :
    k ∈ l.foldl insert s ↔ k ∈ s ∨ k ∈ l := by
  induction l generalizing s with
  | nil => simp
  | cons a l ih =>
    rw [List.foldl_cons, ih, mem_insert, List.mem_cons, or_comm (a := k = a), or_assoc]

@[simp] theorem mem_ofList {l : List K} {k : K} : k ∈ ofList l ↔ k ∈ l := by
  rw [ofList, mem_foldl_insert]
  exact or_iff_right (notMem_empty k)

end OrderedSet

/-- `std::map`. -/
@[ext] structure OrderedMap (K : Type*) [LinearOrder K] (V : Type*) where
  keys : OrderedSet K
  /-- `std::map::find`. -/
  find? : K → Option V
  mem_keys : ∀ k, k ∈ keys ↔ (find? k).isSome

namespace OrderedMap

variable {K V : Type*} [LinearOrder K]

/-- Two maps with the same values are the same. -/
theorem ext_of_find? {m m' : OrderedMap K V} (h : ∀ k, m.find? k = m'.find? k) : m = m' := by
  refine OrderedMap.ext (OrderedSet.ext_of_mem fun k => ?_) (funext h)
  rw [m.mem_keys, m'.mem_keys, h]

/-- `std::map::contains`. -/
def contains (m : OrderedMap K V) (k : K) : Bool :=
  (m.find? k).isSome

theorem contains_iff {m : OrderedMap K V} {k : K} : m.contains k = true ↔ k ∈ m.keys :=
  (m.mem_keys k).symm

theorem mem_keys_of_find? {m : OrderedMap K V} {k : K} {v : V} (h : m.find? k = some v) :
    k ∈ m.keys := by
  rw [m.mem_keys, h]
  rfl

theorem exists_find? {m : OrderedMap K V} {k : K} (h : k ∈ m.keys) : ∃ v, m.find? k = some v :=
  Option.isSome_iff_exists.mp ((m.mem_keys k).mp h)

/-- The empty map. -/
def empty : OrderedMap K V where
  keys := .empty
  find? := fun _ => none
  mem_keys k := iff_of_false (OrderedSet.notMem_empty k) (by simp)

/-- `std::map::insert`, which leaves the value of a key that is there. -/
def insert (m : OrderedMap K V) (k : K) (v : V) : OrderedMap K V where
  keys := m.keys.insert k
  find? := Function.update m.find? k (some ((m.find? k).getD v))
  mem_keys a := by
    by_cases h : a = k
    · subst h
      simp
    · rw [OrderedSet.mem_insert, Function.update_of_ne h, m.mem_keys]
      exact or_iff_right h

/-- The assignment of a new value to a key that is there. -/
def modify (m : OrderedMap K V) (k : K) (f : V → V) : OrderedMap K V where
  keys := m.keys
  find? := Function.update m.find? k ((m.find? k).map f)
  mem_keys a := by
    by_cases h : a = k
    · subst h
      rw [Function.update_self, Option.isSome_map, m.mem_keys]
    · rw [Function.update_of_ne h, m.mem_keys]

theorem find?_insert_self (m : OrderedMap K V) (k : K) (v : V) :
    (m.insert k v).find? k = some ((m.find? k).getD v) :=
  Function.update_self _ _ _

theorem find?_insert_of_ne (m : OrderedMap K V) {k a : K} (v : V) (h : a ≠ k) :
    (m.insert k v).find? a = m.find? a :=
  Function.update_of_ne h _ _

theorem find?_modify_self (m : OrderedMap K V) (k : K) (f : V → V) :
    (m.modify k f).find? k = (m.find? k).map f :=
  Function.update_self _ _ _

theorem find?_modify_of_ne (m : OrderedMap K V) {k a : K} (f : V → V) (h : a ≠ k) :
    (m.modify k f).find? a = m.find? a :=
  Function.update_of_ne h _ _

theorem insert_eq_self {m : OrderedMap K V} {k : K} (v : V) (h : k ∈ m.keys) :
    m.insert k v = m := by
  refine ext_of_find? fun a => ?_
  by_cases ha : a = k
  · subst ha
    obtain ⟨w, hw⟩ := exists_find? h
    rw [find?_insert_self, hw]
    rfl
  · exact find?_insert_of_ne m v ha

theorem modify_eq_self {m : OrderedMap K V} {k : K} (f : V → V) (h : k ∉ m.keys) :
    m.modify k f = m := by
  have hnone : m.find? k = none := by
    rw [m.mem_keys, Bool.not_eq_true, Option.isSome_eq_false_iff, Option.isNone_iff_eq_none] at h
    exact h
  refine ext_of_find? fun a => ?_
  by_cases ha : a = k
  · rw [ha, find?_modify_self, hnone]
    rfl
  · exact find?_modify_of_ne m f ha

/-- The map that has one value for the keys of a set. -/
def const (keys : OrderedSet K) (v : V) : OrderedMap K V where
  keys := keys
  find? := fun k => if k ∈ keys then some v else none
  mem_keys k := by
    split
    · next h => exact iff_of_true h rfl
    · next h => exact iff_of_false h (by simp)

theorem find?_const (keys : OrderedSet K) (v : V) (k : K) :
    (const keys v).find? k = if k ∈ keys then some v else none :=
  rfl

theorem eq_of_find?_const {keys : OrderedSet K} {v w : V} {k : K}
    (h : (const keys v).find? k = some w) : w = v := by
  rw [find?_const] at h
  split at h
  · exact (Option.some.inj h).symm
  · cases h

end OrderedMap
end ThreadUtils
