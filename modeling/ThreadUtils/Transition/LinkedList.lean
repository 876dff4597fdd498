import Mathlib.Data.Finset.Card
import Mathlib.Data.List.Nodup
import Mathlib.Logic.Function.Basic

/-!
# Linked lists in a memory

A memory of linked nodes is a function `next` from a node to its successor, `none` at the end.
`LinksTo next p nodes` says which nodes are met from the pointer `p`; a list that is met determines
the memory only at its own nodes, so a store to another node leaves it alone.
-/

namespace ThreadUtils

universe u

variable {ν : Type u} {next : ν → Option ν}

/-- From the pointer `p` the nodes of the list are met, in their order, and then the end. -/
inductive LinksTo (next : ν → Option ν) : Option ν → List ν → Prop
  | nil : LinksTo next none []
  | cons {a : ν} {nodes : List ν} : LinksTo next (next a) nodes → LinksTo next (some a) (a :: nodes)

/-- The nodes met from `p` by following at most `n` pointers. -/
def follow (next : ν → Option ν) : ℕ → Option ν → List ν
  | 0, _ => []
  | _ + 1, none => []
  | n + 1, some a => a :: follow next n (next a)

namespace LinksTo

variable {p : Option ν} {nodes : List ν} {a b : ν}

/-- The list behind the first node. -/
theorem behind (h : LinksTo next (some a) nodes) :
    ∃ rest, nodes = a :: rest ∧ LinksTo next (next a) rest := by
  cases h with
  | cons hrest => exact ⟨_, rfl, hrest⟩

/-- The nodes from a member on. -/
theorem from_mem (h : LinksTo next p nodes) (hb : b ∈ nodes) :
    ∃ rest, rest <:+ nodes ∧ LinksTo next (some b) rest := by
  induction h with
  | nil => exact absurd hb List.not_mem_nil
  | cons hrest ih =>
    rename_i a rest
    rcases List.mem_cons.mp hb with rfl | hb
    · exact ⟨_, List.suffix_refl _, .cons hrest⟩
    · obtain ⟨rest', hsuffix, hlinks⟩ := ih hb
      exact ⟨rest', hsuffix.trans (List.suffix_cons _ _), hlinks⟩

/-- The list depends on the memory at its own nodes only. -/
theorem congr {next' : ν → Option ν} (h : LinksTo next p nodes)
    (hagree : ∀ a ∈ nodes, next' a = next a) : LinksTo next' p nodes := by
  induction h with
  | nil => exact .nil
  | cons hrest ih =>
    refine .cons ?_
    rw [hagree _ List.mem_cons_self]
    exact ih fun b hb => hagree b (List.mem_cons_of_mem _ hb)

/-- A memory is met from a pointer in one way only. -/
theorem unique {nodes' : List ν} (h : LinksTo next p nodes) (h' : LinksTo next p nodes') :
    nodes = nodes' := by
  induction h generalizing nodes' with
  | nil =>
    cases h'
    rfl
  | cons hrest ih =>
    obtain ⟨rest', rfl, hrest'⟩ := h'.behind
    rw [ih hrest']

/-- A store into the last node puts a new node behind it. -/
theorem concat [DecidableEq ν] (h : LinksTo next p (nodes ++ [a])) (hnodup : (nodes ++ [a]).Nodup)
    (hb : b ∉ nodes ++ [a]) (hend : next b = none) :
    LinksTo (Function.update next a (some b)) p (nodes ++ [a, b]) := by
  induction nodes generalizing p with
  | nil =>
    have hba : b ≠ a := fun heq => hb (heq ▸ List.mem_singleton_self _)
    cases h
    refine .cons ?_
    rw [Function.update_self]
    refine .cons ?_
    rw [Function.update_of_ne hba, hend]
    exact .nil
  | cons c nodes ih =>
    rw [List.cons_append] at h hnodup hb ⊢
    have hca : c ≠ a := by
      rintro rfl
      exact (List.nodup_cons.mp hnodup).1 (List.mem_append_right _ (List.mem_singleton_self _))
    cases h with
    | cons hrest =>
      refine .cons ?_
      rw [Function.update_of_ne hca]
      exact ih hrest (List.nodup_cons.mp hnodup).2 fun hmem => hb (List.mem_cons_of_mem _ hmem)

/-- Enough steps meet the whole list. -/
theorem follow_eq (h : LinksTo next p nodes) {n : ℕ} (hn : nodes.length ≤ n) :
    follow next n p = nodes := by
  induction h generalizing n with
  | nil => cases n <;> rfl
  | cons hrest ih =>
    obtain ⟨n, rfl⟩ : ∃ k, n = k + 1 := ⟨n - 1, by rw [List.length_cons] at hn; omega⟩
    rw [follow, ih (by rw [List.length_cons] at hn; omega)]

/-- A list without repetition inside a finite set of nodes is met in as many steps as the set has
members. -/
theorem follow_card_eq {allocated : Finset ν} (h : LinksTo next p nodes) (hnodup : nodes.Nodup)
    (hmem : ∀ a ∈ nodes, a ∈ allocated) : follow next allocated.card p = nodes := by
  classical
  refine h.follow_eq ?_
  rw [← List.toFinset_card_of_nodup hnodup]
  exact Finset.card_le_card fun a ha => hmem a (List.mem_toFinset.mp ha)

end LinksTo

end ThreadUtils
