import ThreadUtils.DataStructures.FiniteLockFreeQueue.Sequential
import ThreadUtils.DataStructures.FiniteLockFreeQueue.Tickets

/-!
# Where the elements of the ring are

An element is in the hands of a push until its exchange of `tail`, and in those of a pop
from its exchange of `head` on; in between it is in the ring (`State.contents`).  An access
moves it from one place to the next, and no access makes a copy (`Inv.inHand_access`).

This is a view by the tickets and not by the memory.  A push that has exchanged `tail` has not
written its element yet, and the slot of a pop that has exchanged `head` still has it; but to whom
an element belongs is decided by the two exchanges.  The invariant says that a pop reads the
element of its ticket, so what it returns is what it had in its hands all along.

When no call is in flight the contents are a `Ring`.
-/

namespace ThreadUtils
namespace FiniteLockFreeQueue

variable {ι : Type*} {α : Type*} {R : RingSize}

/-- The element that a call carries, if it is not in the ring. -/
def Pc.inHand (pushed : List (ι × α)) : Pc α → Multiset α
  | .pushLoadTail value | .pushLoadSeq value _ | .pushCas value _ | .pushFalse value => {value}
  | .popRead h => ((pushed[h]?).map Prod.snd).toList
  | .popStore _ result | .popTrue _ result => {result}
  | _ => 0

/-- The elements between `head` and `tail`. -/
def State.contents (s : State ι α) : List α :=
  (s.pushed.drop s.popped.length).map Prod.snd

variable {s : State ι α}

/-- A value that was pushed is not forgotten. -/
theorem Inv.inHand_append [Fintype ι] (hI : Inv R s) (j : ι) (l : List (ι × α)) :
    (s.pc j).inHand (s.pushed ++ l) = (s.pc j).inHand s.pushed := by
  have hok := hI.threads j
  cases hpc : s.pc j with
  | popRead h =>
    rw [hpc] at hok
    obtain ⟨-, -, -, k, hk⟩ := hok
    rw [Pc.inHand, Pc.inHand, hk, getElem?_append_of_some l hk]
  | _ => rfl

/-- An access that exchanges nothing leaves the history alone. -/
theorem record_of_quiet (i : ι) {pc' : Pc α}
    (hpush : ∀ v t, pc' ≠ .pushWrite v t) (hpop : ∀ h, pc' ≠ .popRead h) :
    record s i pc' = (s.pushed, s.popped) := by
  unfold record
  split
  · next v t v' t' _ => exact absurd rfl (hpush v' t')
  · next h h' _ => exact absurd rfl (hpop h')
  · rfl

/-- **An access moves an element on**, or leaves all where they are. -/
theorem Inv.inHand_access [Fintype ι] [DecidableEq ι] (hI : Inv R s) {i : ι} {spurious : Bool}
    {r : Mem α × Pc α} (hr : s.mem.access R spurious (s.pc i) = some r) {s' : State ι α}
    (hpushed : s'.pushed = (record s i r.2).1) (hpopped : s'.popped = (record s i r.2).2) :
    r.2.inHand s'.pushed + s'.contents = (s.pc i).inHand s.pushed + s.contents ∧
      ∃ l, s'.pushed = s.pushed ++ l := by
  have quiet : (∀ v t, r.2 ≠ .pushWrite v t) → (∀ h, r.2 ≠ .popRead h) →
      r.2.inHand s.pushed = (s.pc i).inHand s.pushed →
      r.2.inHand s'.pushed + s'.contents = (s.pc i).inHand s.pushed + s.contents ∧
        ∃ l, s'.pushed = s.pushed ++ l := by
    intro hpush hpop hsame
    rw [record_of_quiet i hpush hpop] at hpushed hpopped
    refine ⟨?_, [], by rw [hpushed, List.append_nil]⟩
    rw [State.contents, State.contents, hpushed, hpopped, hsame]
  have hok := hI.threads i
  cases hpc : s.pc i with
  | idle | pushTrue | pushFalse | popTrue | popFalse =>
    rw [hpc] at hr
    cases hr
  | pushLoadTail v =>
    rw [hpc] at hr
    obtain rfl := Option.some.inj hr
    exact hpc ▸ quiet (by simp) (by simp) (by rw [hpc]; rfl)
  | pushLoadSeq v t =>
    rw [hpc, Mem.access] at hr
    rw [hpc] at quiet
    split at hr
    · obtain rfl := Option.some.inj hr
      exact quiet (by simp) (by simp) rfl
    · split at hr
      all_goals
        obtain rfl := Option.some.inj hr
        exact quiet (by simp) (by simp) rfl
  | pushCas v t =>
    rw [hpc, Mem.access] at hr
    rw [hpc] at quiet
    split at hr
    · obtain rfl := Option.some.inj hr
      have hle : s.popped.length ≤ s.pushed.length := by
        rw [← hI.head_eq, ← hI.tail_eq]
        exact hI.head_le_tail
      simp only [record, hpc] at hpushed hpopped
      refine ⟨?_, _, hpushed⟩
      rw [State.contents, State.contents, hpushed, hpopped, List.drop_append_of_le_length hle,
        List.map_append, ← Multiset.coe_add, add_comm, add_assoc]
      exact add_comm _ _
    · obtain rfl := Option.some.inj hr
      exact quiet (by simp) (by simp) rfl
  | pushWrite v t =>
    rw [hpc] at hr
    obtain rfl := Option.some.inj hr
    exact hpc ▸ quiet (by simp) (by simp) (by rw [hpc]; rfl)
  | pushStore v t =>
    rw [hpc] at hr
    obtain rfl := Option.some.inj hr
    exact hpc ▸ quiet (by simp) (by simp) (by rw [hpc]; rfl)
  | popLoadHead =>
    rw [hpc] at hr
    obtain rfl := Option.some.inj hr
    exact hpc ▸ quiet (by simp) (by simp) (by rw [hpc]; rfl)
  | popLoadSeq h =>
    rw [hpc, Mem.access] at hr
    rw [hpc] at quiet
    split at hr
    · obtain rfl := Option.some.inj hr
      exact quiet (by simp) (by simp) rfl
    · split at hr
      all_goals
        obtain rfl := Option.some.inj hr
        exact quiet (by simp) (by simp) rfl
  | popCas h =>
    rw [hpc] at hok
    rw [hpc, Mem.access] at hr
    rw [hpc] at quiet
    split at hr
    · next hcas =>
      obtain rfl := Option.some.inj hr
      obtain ⟨-, -, -, j, hj⟩ := hI.slot_ready_of_head hcas.2 hok
      have hlen : s.popped.length = h := by rw [← hI.head_eq, hcas.2]
      have hdrop : s.pushed.drop h = (j, s.mem.data (R.slot h)) :: s.pushed.drop (h + 1) := by
        obtain ⟨hlt, heq⟩ := List.getElem?_eq_some_iff.mp hj
        rw [List.drop_eq_getElem_cons hlt, heq]
      simp only [record, hpc] at hpushed hpopped
      refine ⟨?_, [], by rw [hpushed, List.append_nil]⟩
      have hnew : (Pc.popRead h : Pc α).inHand s.pushed = {s.mem.data (R.slot h)} := by
        rw [Pc.inHand, hj]
        rfl
      have hold : (Pc.popCas h : Pc α).inHand s.pushed = 0 := rfl
      rw [State.contents, State.contents, hpushed, hpopped, List.length_append,
        List.length_singleton, hlen, hdrop, List.map_cons, hnew, hold, zero_add]
      rfl
    · obtain rfl := Option.some.inj hr
      exact quiet (by simp) (by simp) rfl
  | popRead h =>
    rw [hpc] at hok hr
    obtain rfl := Option.some.inj hr
    obtain ⟨-, -, -, j, hj⟩ := hok
    exact hpc ▸ quiet (by simp) (by simp) (by rw [hpc, Pc.inHand, Pc.inHand, hj]; rfl)
  | popStore h result =>
    rw [hpc] at hr
    obtain rfl := Option.some.inj hr
    exact hpc ▸ quiet (by simp) (by simp) (by rw [hpc]; rfl)

/-- **When no call is in flight** the ring holds its contents. -/
theorem Inv.ring [Fintype ι] (hI : Inv R s) (hb : s.calls < 2 ^ 63) (hidle : ∀ i, s.pc i = .idle) :
    Ring R s.mem s.popped.length s.contents := by
  have hcalls := hI.tail_le_calls
  have hle := hI.head_le_tail
  have hle' := hI.tail_le
  have hhead := hI.head_eq
  have htail := hI.tail_eq
  have hsize := R.size_le
  have hlen : s.contents.length = s.pushed.length - s.popped.length := by
    rw [State.contents, List.length_map, List.length_drop]
  have hnone : ∀ i t, (s.pc i).ticket ≠ some t := by
    intro i t ht
    rw [hidle i] at ht
    cases ht
  refine ⟨?_, ?_, by omega, fun k hk => ?_, fun k hk hks => ?_⟩
  · rw [hhead, Nat.mod_eq_of_lt (by rw [sizeT_eq]; omega)]
  · rw [Nat.mod_eq_of_lt (by rw [sizeT_eq]; omega)]
    omega
  · obtain ⟨hseq, j, hj⟩ := hI.not_lost (k := s.popped.length + k) (by omega) (by omega)
      fun i => hnone i _
    refine ⟨by rw [hseq, Nat.mod_eq_of_lt (by rw [sizeT_eq]; omega)], ?_⟩
    obtain ⟨hlt, heq⟩ := List.getElem?_eq_some_iff.mp hj
    simp only [State.contents, List.getElem_map, List.getElem_drop, heq]
  · -- the ticket is not taken yet
    obtain ⟨t, ht, hslot⟩ := hI.slots (s.popped.length + k)
    have hlap : ∀ t', R.slot t' = R.slot (s.popped.length + k) → s.popped.length ≤ t' →
        t' < s.popped.length + R.size → t' = s.popped.length + k := by
      intro t' heq hge hlt
      obtain ⟨j, rfl⟩ := Nat.exists_eq_add_of_le hge
      rw [R.slot_add_inj (by omega) hks heq]
    rcases hslot with ⟨h, h₁, h₂⟩ | ⟨i, h, h₁, h₂, h₃, ho⟩ | ⟨i, h, h₁, h₂, h₃, hv⟩ |
      ⟨i, h, h₁, h₂, ho⟩
    · rw [← ht, h, hlap t ht (by omega) (by omega), Nat.mod_eq_of_lt (by rw [sizeT_eq]; omega)]
    · exact absurd ho (hnone i t)
    · have := hlap t ht (by omega) (by omega)
      omega
    · exact absurd ho (hnone i t)

end FiniteLockFreeQueue
end ThreadUtils
