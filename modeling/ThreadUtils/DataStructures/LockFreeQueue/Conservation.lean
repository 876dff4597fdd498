import ThreadUtils.DataStructures.LockFreeQueue.Refinement
import ThreadUtils.DataStructures.LockFreeQueue.Sequential

/-!
# Where the elements of the list are

An element is in the hands of a push until its node is linked, and in those of a pop from
its exchange of `head_` on; in between it is in the list.  An access moves it from one place
to the next, because the events of a call follow its phases (`inHand_access`).

A pop reads the element before it exchanges `head_`, and may read it in vain.  It counts as in its
hands only when the exchange has succeeded; up to then others may read the same element.

When no call is in flight the list is a `Line`.
-/

namespace ThreadUtils
namespace LockFreeQueue

variable {ι : Type*} {α : Type*}

/-- The element that a call carries, if it is not in the list. -/
def Phase.inHand : Phase α → Multiset α
  | .pushing value => {value}
  | .popped result => {result}
  | _ => 0

/-- **An access moves an element on**, or leaves all where they are. -/
theorem inHand_access {m : Mem α} {c : Choice} {pc : Pc α} {r : Mem α × Pc α}
    (h : m.access c pc = some r) {l l' : List α} (hstep : FifoStep l (pc.event r.2) l') :
    r.2.phase.inHand + (l' : Multiset α) = pc.phase.inHand + l := by
  have hnone : pc.event r.2 = none → r.2.phase.inHand = pc.phase.inHand →
      r.2.phase.inHand + (l' : Multiset α) = pc.phase.inHand + l := by
    intro hev hsame
    rw [hev] at hstep
    cases hstep
    rw [hsame]
  cases hphase : pc.phase with
  | outside =>
    cases pc with
    | idle => cases h
    | _ => cases hphase
  | pushed =>
    cases pc with
    | pushSwing node tail =>
      rw [Mem.access] at h
      split at h
      all_goals
        obtain rfl := Option.some.inj h
        exact hnone rfl rfl
    | pushDone => cases h
    | _ => cases hphase
  | pushing value =>
    have hbefore : Call.Done (.push value) pc.phase [] := by
      rw [hphase]
      exact ⟨rfl, rfl⟩
    have hdone : Call.Done (.push value) r.2.phase ((pc.event r.2).toList) := hbefore.access h
    rw [hphase] at hnone
    cases hphase' : r.2.phase with
    | pushing v =>
      rw [hphase'] at hdone hnone
      obtain ⟨rfl, hev⟩ := hdone
      exact hnone (Option.toList_eq_nil_iff.mp hev) rfl
    | pushed =>
      rw [hphase'] at hdone
      have hev : (pc.event r.2).toList = [.enqueue value] := hdone
      rw [Option.toList_eq_singleton_iff] at hev
      rw [hev] at hstep
      cases hstep
      show 0 + ((l ++ [value] : List α) : Multiset α) = {value} + (l : Multiset α)
      rw [zero_add, ← Multiset.coe_add, add_comm]
      rfl
    | _ =>
      rw [hphase'] at hdone
      exact hdone.elim
  | popping =>
    have hbefore : Call.Done .pop pc.phase [] := by
      rw [hphase]
      rfl
    have hdone : Call.Done .pop r.2.phase ((pc.event r.2).toList) := hbefore.access h
    rw [hphase] at hnone
    cases hphase' : r.2.phase with
    | popping =>
      rw [hphase'] at hdone hnone
      exact hnone (Option.toList_eq_nil_iff.mp hdone) rfl
    | popped result =>
      rw [hphase'] at hdone
      have hev : (pc.event r.2).toList = [.dequeue result] := hdone
      rw [Option.toList_eq_singleton_iff] at hev
      rw [hev] at hstep
      cases hstep
      show {result} + (l' : Multiset α) = 0 + ((result :: l' : List α) : Multiset α)
      rw [zero_add]
      rfl
    | _ =>
      rw [hphase'] at hdone
      exact hdone.elim
  | popped result =>
    have hbefore : Call.Done .pop pc.phase [.dequeue result] := by
      rw [hphase]
      rfl
    have hdone := hbefore.access h
    rw [hphase] at hnone
    cases hphase' : r.2.phase with
    | popping =>
      rw [hphase'] at hdone
      cases hdone
    | popped result' =>
      rw [hphase'] at hdone hnone
      obtain ⟨heq, hev⟩ := List.cons.inj hdone
      obtain rfl := FifoEvent.dequeue.inj heq
      exact hnone (Option.toList_eq_nil_iff.mp hev) rfl
    | _ =>
      rw [hphase'] at hdone
      exact hdone.elim

/-- **When no call is in flight** the nodes from `head_` on are a line. -/
theorem lined_of_inv [Fintype ι] {s : State ι α} {chain : List ℕ} (hI : Inv s chain)
    (hb : s.calls < 2 ^ 63) : Lined s.mem s.mem.contents := by
  have hC := hI.shape
  have hle := hC.head_le_tail
  have hlt := hC.tail_lt
  have hlast := hC.last
  have hbudget := hI.budget
  refine ⟨chain.drop s.mem.head_.count, s.mem.tail_.count - s.mem.head_.count,
    hC.nodup.sublist (List.drop_sublist _ _), fun a ha => hC.allocated a (List.mem_of_mem_drop ha),
    ?_, by rw [sizeT_eq]; omega, ?_, by rw [List.length_drop]; omega,
    by rw [List.length_drop]; omega, fun j a hj => ?_, ?_⟩
  · rw [List.getElem?_drop, Nat.add_zero]
    exact hC.head
  · rw [List.getElem?_drop, Nat.add_sub_of_le hle, Nat.mod_eq_of_lt (by rw [sizeT_eq]; omega),
      ← hC.tail]
  · rw [List.getElem?_drop] at hj
    rw [hC.next _ a (Nat.le_add_right _ j) hj, link, link, List.getElem?_drop, List.length_drop,
      Nat.add_assoc]
    by_cases hj' : s.mem.head_.count + (j + 1) < chain.length
    · rw [if_pos hj', if_pos (by omega)]
    · rw [if_neg hj', if_neg (by omega)]
  · rw [hC.contents_eq, elements, List.tail_drop]

end LockFreeQueue
end ThreadUtils
