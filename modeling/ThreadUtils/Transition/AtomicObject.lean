import Mathlib.Data.Finset.Insert
import Mathlib.Data.Fintype.Basic
import Mathlib.Logic.Function.Basic
import ThreadUtils.Transition.History

/-!
# Atomic objects

The specification of a concurrent object: the calls of the threads overlap, but each of them takes
effect at once, at some instant between its call and its return.  An implementation is
*linearizable* when its histories are histories of the atomic object.

## The usual case

Where an implementation has an access at which a call takes effect, a run of it is matched step by
step by a run of the atomic object: this access is the step `perform`, and the other accesses are
none.  The simulation rule for histories is enough for this.

## Late answers

An implementation may decide late what a call answers.  A call that finds out that it would change
nothing, by values it read some time ago, answers what was true then.  Whether it will do so is not
known at the instant at which the answer is true, so no run of the atomic object can be chosen step
by step.

`Possible` keeps the answers that a call may still give in this way: those that were true, without a
change of the object, at some instant since the call.  It says that the history so far belongs to a
run of the atomic object for each choice of some of the noted answers.  Its rules are those of the
atomic object, together with `look`, which takes note of the answers that are true now, and
`answer`, which gives an answer that was noted.  Notes may be dropped at any time.  So an
implementation is followed forwards, without a look at what comes.
-/

namespace ThreadUtils

open TransitionSystem (Transition)

universe u v w x

/-- What the calls of an object do to its value, and what they answer. -/
structure AtomicObject (σ : Type u) (κ : Type v) (ρ : Type w) where
  init : σ
  apply : κ → σ → σ × ρ

namespace AtomicObject

variable {σ : Type u} {κ : Type v} {ρ : Type w} {ι : Type x}

/-- Where a thread is. -/
inductive Status (κ : Type v) (ρ : Type w) where
  | idle
  /-- The call has had no effect yet. -/
  | called (call : κ)
  /-- The call has had its effect and is about to return. -/
  | done (answer : ρ)

/-- What the threads see. -/
inductive Event (ι : Type x) (κ : Type v) (ρ : Type w) where
  | call (i : ι) (call : κ)
  | ret (i : ι) (answer : ρ)
  deriving DecidableEq

/-- The event is a call. -/
def Event.isCall : Event ι κ ρ → Bool
  | .call _ _ => true
  | .ret _ _ => false

structure State (ι : Type x) (σ : Type u) (κ : Type v) (ρ : Type w) where
  value : σ
  status : ι → Status κ ρ

inductive Action (ι : Type x) (κ : Type v) where
  | call (i : ι) (call : κ)
  /-- The call takes effect. -/
  | perform (i : ι)
  | ret (i : ι)

variable [DecidableEq ι]

def State.set (s : State ι σ κ ρ) (i : ι) (value : σ) (status : Status κ ρ) : State ι σ κ ρ :=
  ⟨value, Function.update s.status i status⟩

/-- One step of one thread. -/
def step (O : AtomicObject σ κ ρ) (s : State ι σ κ ρ) : Action ι κ → Option (State ι σ κ ρ)
  | .call i call =>
      match s.status i with
      | .idle => some (s.set i s.value (.called call))
      | _ => none
  | .perform i =>
      match s.status i with
      | .called call =>
          some (s.set i (O.apply call s.value).1 (.done (O.apply call s.value).2))
      | _ => none
  | .ret i =>
      match s.status i with
      | .done _ => some (s.set i s.value .idle)
      | _ => none

/-- The object before the first call. -/
def new (O : AtomicObject σ κ ρ) (ι : Type x) : State ι σ κ ρ :=
  ⟨O.init, fun _ => .idle⟩

def system (O : AtomicObject σ κ ρ) (ι : Type x) [DecidableEq ι] :
    TransitionSystem (State ι σ κ ρ) (Action ι κ) where
  init s := s = O.new ι
  step := O.step

/-- What is seen of a step. -/
def event (t : Transition (State ι σ κ ρ) (Action ι κ)) : Option (Event ι κ ρ) :=
  match t.action with
  | .call i call => some (.call i call)
  | .perform _ => none
  | .ret i =>
      match t.source.status i with
      | .done answer => some (.ret i answer)
      | _ => none

/-- **The histories of the atomic object** when the threads `ι` use it. -/
def histories (O : AtomicObject σ κ ρ) (ι : Type x) [DecidableEq ι] : Set (List (Event ι κ ρ)) :=
  (O.system ι).Histories event (O.new ι)

/-! ## The steps -/

variable {O : AtomicObject σ κ ρ} {s s' : State ι σ κ ρ} {i : ι} {h : List (Event ι κ ρ)}

theorem shows_call (hi : s.status i = .idle) (call : κ) :
    (O.system ι).Shows event s [.call i call] (s.set i s.value (.called call)) := by
  have hstep : (O.system ι).step s (.call i call) = some (s.set i s.value (.called call)) := by
    show O.step s (.call i call) = _
    rw [step, hi]
  exact (TransitionSystem.Shows.refl _ _ s).event hstep rfl

/-- A call takes effect. -/
theorem shows_perform {call : κ} {value : σ} {answer : ρ} (hi : s.status i = .called call)
    (happly : O.apply call s.value = (value, answer)) :
    (O.system ι).Shows event s [] (s.set i value (.done answer)) := by
  have hstep : (O.system ι).step s (.perform i) = some (s.set i value (.done answer)) := by
    show O.step s (.perform i) = _
    rw [step, hi]
    dsimp only
    rw [happly]
  exact (TransitionSystem.Shows.refl _ _ s).quiet hstep rfl

theorem shows_ret {answer : ρ} (hi : s.status i = .done answer) :
    (O.system ι).Shows event s [.ret i answer] (s.set i s.value .idle) := by
  have hstep : (O.system ι).step s (.ret i) = some (s.set i s.value .idle) := by
    show O.step s (.ret i) = _
    rw [step, hi]
  refine (TransitionSystem.Shows.refl _ _ s).event hstep ?_
  rw [event]
  dsimp only
  rw [hi]

/-- The steps, with what is seen of them. -/
inductive Effect (O : AtomicObject σ κ ρ) (s : State ι σ κ ρ) :
    Action ι κ → State ι σ κ ρ → Option (Event ι κ ρ) → Prop
  | call (i : ι) (call : κ) : s.status i = .idle →
      Effect O s (.call i call) (s.set i s.value (.called call)) (some (.call i call))
  | perform (i : ι) (call : κ) : s.status i = .called call →
      Effect O s (.perform i)
        (s.set i (O.apply call s.value).1 (.done (O.apply call s.value).2)) none
  | ret (i : ι) (answer : ρ) : s.status i = .done answer →
      Effect O s (.ret i) (s.set i s.value .idle) (some (.ret i answer))

/-- **Every step is one of the three.** -/
theorem effect_of_step {a : Action ι κ} (hstep : O.step s a = some s') :
    Effect O s a s' (event ⟨s, a, s'⟩) := by
  cases a with
  | call i call =>
    rw [step] at hstep
    split at hstep
    · next hi =>
      obtain rfl := Option.some.inj hstep
      exact .call i call hi
    · cases hstep
  | perform i =>
    rw [step] at hstep
    split at hstep
    · next call hi =>
      obtain rfl := Option.some.inj hstep
      exact .perform i call hi
    · cases hstep
  | ret i =>
    rw [step] at hstep
    split at hstep
    · next answer hi =>
      obtain rfl := Option.some.inj hstep
      have hevent : event ⟨s, .ret i, s.set i s.value .idle⟩ = some (.ret i answer) := by
        rw [event]
        dsimp only
        rw [hi]
      rw [hevent]
      exact .ret i answer hi
    · cases hstep

/-! ## Late answers -/

/-- The calls that `late` has an answer for have taken effect. -/
def withAnswers (status : ι → Status κ ρ) (late : ι → Option ρ) (i : ι) : Status κ ρ :=
  match late i with
  | some answer => .done answer
  | none => status i

omit [DecidableEq ι] in
theorem withAnswers_some {status : ι → Status κ ρ} {late : ι → Option ρ} {answer : ρ}
    (hi : late i = some answer) : withAnswers status late i = .done answer := by
  rw [withAnswers, hi]

omit [DecidableEq ι] in
theorem withAnswers_none {status : ι → Status κ ρ} {late : ι → Option ρ} (hi : late i = none) :
    withAnswers status late i = status i := by
  rw [withAnswers, hi]

/-- A call without a late answer makes a step. -/
theorem withAnswers_update {status : ι → Status κ ρ} {late : ι → Option ρ} (hi : late i = none)
    (new : Status κ ρ) : withAnswers (Function.update status i new) late =
      Function.update (withAnswers status late) i new := by
  ext j
  by_cases hj : j = i
  · subst hj
    rw [withAnswers_none hi, Function.update_self, Function.update_self]
  · rw [Function.update_of_ne hj, withAnswers, withAnswers, Function.update_of_ne hj]

/-- A call gets its late answer. -/
theorem withAnswers_set (status : ι → Status κ ρ) (late : ι → Option ρ) (i : ι) (answer : ρ) :
    withAnswers status (Function.update late i (some answer)) =
      Function.update (withAnswers status (Function.update late i none)) i (.done answer) := by
  ext j
  by_cases hj : j = i
  · subst hj
    rw [withAnswers_some (Function.update_self _ _ _), Function.update_self]
  · rw [Function.update_of_ne hj, withAnswers, withAnswers, Function.update_of_ne hj,
      Function.update_of_ne hj]

/-- The history `h` is possible with the value and the threads as they are, however the calls
answer for which an answer is noted: at once, or not yet. -/
def Possible (O : AtomicObject σ κ ρ) (h : List (Event ι κ ρ)) (s : State ι σ κ ρ)
    (noted : ι → ρ → Prop) : Prop :=
  ∀ late : ι → Option ρ, (∀ i answer, late i = some answer → noted i answer) →
    (O.system ι).Shows event (O.new ι) h { s with status := withAnswers s.status late }

variable {noted noted' : ι → ρ → Prop}

namespace Possible

theorem mem_histories (hP : O.Possible h s noted) : h ∈ O.histories ι :=
  ⟨_, hP (fun _ => none) fun _ _ hnone => by cases hnone⟩

theorem start (O : AtomicObject σ κ ρ) (ι : Type x) [DecidableEq ι] :
    O.Possible [] (O.new ι) fun _ _ => False := by
  intro late hlate
  have hnone : late = fun _ => none := by
    ext i
    exact ⟨fun hi => (hlate i _ hi).elim, fun hi => by cases hi⟩
  subst hnone
  exact .refl _ _ _

/-- Notes may be forgotten. -/
theorem mono (hP : O.Possible h s noted) (hle : ∀ i answer, noted' i answer → noted i answer) :
    O.Possible h s noted' :=
  fun late hlate => hP late fun i answer hi => hle i answer (hlate i answer hi)

/-- What a step of a thread without a note makes possible. -/
theorem of_step {new : Status κ ρ} {value : σ} {h' : List (Event ι κ ρ)}
    (hP : O.Possible h s noted) (hi : ∀ answer, ¬ noted i answer)
    (hstep : ∀ t : State ι σ κ ρ, t.value = s.value → t.status i = s.status i →
      (O.system ι).Shows event t h' (t.set i value new)) :
    O.Possible (h ++ h') (s.set i value new) noted := by
  intro late hlate
  have hnone : late i = none := Option.eq_none_iff_forall_ne_some.mpr fun answer hsome =>
    hi answer (hlate i answer hsome)
  have hlast := hstep { s with status := withAnswers s.status late } rfl (withAnswers_none hnone)
  have hall := (hP late hlate).trans hlast
  rw [State.set, ← withAnswers_update hnone] at hall
  exact hall

theorem call (hP : O.Possible h s noted) (hi : ∀ answer, ¬ noted i answer) (call : κ)
    (hidle : s.status i = .idle) :
    O.Possible (h ++ [.call i call]) (s.set i s.value (.called call)) noted :=
  hP.of_step hi fun _ hvalue ht => hvalue ▸ shows_call (ht.trans hidle) call

theorem ret (hP : O.Possible h s noted) (hi : ∀ answer, ¬ noted i answer) {answer : ρ}
    (hdone : s.status i = .done answer) :
    O.Possible (h ++ [.ret i answer]) (s.set i s.value .idle) noted :=
  hP.of_step hi fun _ hvalue ht => hvalue ▸ shows_ret (ht.trans hdone)

/-- A call takes effect. -/
theorem perform (hP : O.Possible h s noted) (hi : ∀ answer, ¬ noted i answer) {call : κ}
    {value : σ} {answer : ρ} (hcalled : s.status i = .called call)
    (happly : O.apply call s.value = (value, answer)) :
    O.Possible h (s.set i value (.done answer)) noted := by
  rw [← List.append_nil h]
  exact hP.of_step hi fun t hvalue ht => shows_perform (ht.trans hcalled) (hvalue ▸ happly)

/-- A call gives an answer that was noted. -/
theorem answer {answer : ρ} (hP : O.Possible h s noted) (hi : noted i answer) :
    O.Possible h (s.set i s.value (.done answer)) fun j r => j ≠ i ∧ noted j r := by
  intro late hlate
  have hnone : late i = none := Option.eq_none_iff_forall_ne_some.mpr fun r hsome =>
    (hlate i r hsome).1 rfl
  have hall := hP (Function.update late i (some answer)) fun j r hj => by
    by_cases hji : j = i
    · subst hji
      rw [Function.update_self] at hj
      rwa [← Option.some.inj hj]
    · rw [Function.update_of_ne hji] at hj
      exact (hlate j r hj).2
  rw [withAnswers_set, ← hnone, Function.update_eq_self] at hall
  rw [State.set, withAnswers_update hnone]
  exact hall

/-- **The answers that are true now may be noted.** -/
theorem look [Fintype ι] (hP : O.Possible h s noted)
    (hnew : ∀ i answer, noted' i answer → noted i answer ∨
      ∃ call, s.status i = .called call ∧ O.apply call s.value = (s.value, answer)) :
    O.Possible h s noted' := by
  -- the calls in `S` may answer by what is true now
  suffices hall : ∀ (S : Finset ι) (late : ι → Option ρ), (∀ i answer, late i = some answer →
      noted i answer ∨ i ∈ S ∧
        ∃ call, s.status i = .called call ∧ O.apply call s.value = (s.value, answer)) →
      (O.system ι).Shows event (O.new ι) h { s with status := withAnswers s.status late } from
    fun late hlate => hall Finset.univ late fun i answer hi =>
      (hnew i answer (hlate i answer hi)).imp_right fun hnow => ⟨Finset.mem_univ i, hnow⟩
  intro S
  induction S using Finset.induction with
  | empty =>
    intro late hlate
    exact hP late fun i answer hi => (hlate i answer hi).resolve_right fun hmem =>
      absurd hmem.1 (Finset.notMem_empty i)
  | insert i S hiS ih =>
    intro late hlate
    have hrest : ∀ (late' : ι → Option ρ) (j : ι) (answer : ρ), late' j = late j → j ≠ i →
        late' j = some answer → noted j answer ∨ j ∈ S ∧
          ∃ call, s.status j = .called call ∧ O.apply call s.value = (s.value, answer) := by
      intro late' j answer hsame hji hj
      exact (hlate j answer (hsame ▸ hj)).imp_right fun hmem =>
        ⟨Finset.mem_of_mem_insert_of_ne hmem.1 hji, hmem.2⟩
    by_cases hnow : ∃ answer, late i = some answer ∧ ¬ noted i answer
    · obtain ⟨answer, hi, hnot⟩ := hnow
      obtain ⟨-, call, hcalled, happly⟩ := (hlate i answer hi).resolve_left hnot
      -- the call takes effect last
      have hbefore := ih (Function.update late i none) fun j r hj => by
        by_cases hji : j = i
        · subst hji
          rw [Function.update_self] at hj
          cases hj
        · exact hrest _ j r (Function.update_of_ne hji _ _) hji hj
      have hstatus : withAnswers s.status (Function.update late i none) i = .called call := by
        rw [withAnswers_none (Function.update_self _ _ _), hcalled]
      have hall := hbefore.trans (shows_perform hstatus happly)
      rw [List.append_nil, State.set, ← withAnswers_set, ← hi, Function.update_eq_self] at hall
      exact hall
    · refine ih late fun j answer hj => ?_
      by_cases hji : j = i
      · subst hji
        exact Or.inl (by_contra fun hnot => hnow ⟨answer, hj, hnot⟩)
      · exact hrest late j answer rfl hji hj

end Possible

end AtomicObject
end ThreadUtils
