import Mathlib.Data.Set.Basic
import ThreadUtils.Transition.System

/-!
# Histories

An observer sees some steps of a run and not others; what he sees of a run is its *history*.
Two systems with the same histories cannot be told apart from outside.

A history is a list of events without states, so that two systems with different states can be
compared.  One inclusion follows from a simulation that matches each step by a run in which the same
is seen; the relation between the states may be any, and the run may be empty.  Where the simulated
system has larger steps than the simulating one, a thread has to make several accesses in place of
one step, and `exists_quiet_path` is the rule for this.

* `Histories` --- the histories of the runs from a state.
* `histories_subset` --- the simulation rule: each step of the one system is matched by a run of
  the other one in which the same is seen.
* `exists_quiet_path` --- a thread that nobody disturbs comes to the end of its work unseen.
-/

namespace ThreadUtils
namespace TransitionSystem

universe u v w w' x

variable {σ : Type u} {α : Type v} {τ : Type w} {β : Type w'} {ε : Type x}
variable {T : TransitionSystem σ α} {U : TransitionSystem τ β}

/-- A run between two states in which the events `h` are seen. -/
def Shows (T : TransitionSystem σ α) (obs : Transition σ α → Option ε) (s : σ) (h : List ε)
    (s' : σ) : Prop :=
  ∃ trace, T.Path (fun _ _ => True) s trace s' ∧ trace.filterMap obs = h

/-- The histories of the runs from `s`. -/
def Histories (T : TransitionSystem σ α) (obs : Transition σ α → Option ε) (s : σ) :
    Set (List ε) :=
  {h | ∃ s', T.Shows obs s h s'}

variable {obs : Transition σ α → Option ε} {obs' : Transition τ β → Option ε}
variable {s s' s'' : σ} {h h' : List ε}

theorem Shows.refl (T : TransitionSystem σ α) (obs : Transition σ α → Option ε) (s : σ) :
    T.Shows obs s [] s :=
  ⟨[], .nil s, rfl⟩

theorem Shows.trans (hs : T.Shows obs s h s') (hs' : T.Shows obs s' h' s'') :
    T.Shows obs s (h ++ h') s'' := by
  obtain ⟨trace, p, rfl⟩ := hs
  obtain ⟨trace', p', rfl⟩ := hs'
  exact ⟨trace ++ trace', p.trans p', List.filterMap_append⟩

/-- What is seen of a single step. -/
theorem Shows.single {a : α} (hstep : T.step s a = some s') :
    T.Shows obs s (obs ⟨s, a, s'⟩).toList s' := by
  refine ⟨_, .single trivial hstep, ?_⟩
  cases hobs : obs ⟨s, a, s'⟩ with
  | none => rw [List.filterMap_cons_none hobs, List.filterMap_nil, Option.toList_none]
  | some e => rw [List.filterMap_cons_some hobs, List.filterMap_nil, Option.toList_some]

/-- A step that is seen, after a run. -/
theorem Shows.event {a : α} {e : ε} (hs : T.Shows obs s h s') (hstep : T.step s' a = some s'')
    (hobs : obs ⟨s', a, s''⟩ = some e) : T.Shows obs s (h ++ [e]) s'' := by
  have hsingle := hs.trans (.single hstep)
  rwa [hobs] at hsingle

/-- A step that is not seen, after a run. -/
theorem Shows.quiet {a : α} (hs : T.Shows obs s h s') (hstep : T.step s' a = some s'')
    (hobs : obs ⟨s', a, s''⟩ = none) : T.Shows obs s h s'' := by
  have hsingle := hs.trans (.single hstep)
  rwa [hobs, Option.toList_none, List.append_nil] at hsingle

/-- The invariant rule for a property of the history and the state. -/
theorem Shows.invariant {I : List ε → σ → Prop} (hs : T.Shows obs s h s') (hstart : I [] s)
    (hstep : ∀ h u a u', I h u → T.step u a = some u' → I (h ++ (obs ⟨u, a, u'⟩).toList) u') :
    I h s' := by
  obtain ⟨trace, p, rfl⟩ := hs
  refine p.invariant (I := fun trace u => I (trace.filterMap obs) u) hstart ?_
  intro trace u a u' ih _ hst
  rw [List.filterMap_append]
  have hlast := hstep _ _ _ _ ih hst
  cases hobs : obs ⟨u, a, u'⟩ with
  | none => rwa [List.filterMap_cons_none hobs, List.filterMap_nil, ← Option.toList_none, ← hobs]
  | some e =>
    rwa [List.filterMap_cons_some hobs, List.filterMap_nil, ← Option.toList_some, ← hobs]

/-- **The simulation rule.** -/
theorem histories_subset {R : σ → τ → Prop} {t : τ} (hR : R s t)
    (hstep : ∀ u a u' v, R u v → T.step u a = some u' →
      ∃ v', U.Shows obs' v (obs ⟨u, a, u'⟩).toList v' ∧ R u' v') :
    T.Histories obs s ⊆ U.Histories obs' t := by
  rintro h ⟨s', hs⟩
  have hsim : ∃ v, U.Shows obs' t h v ∧ R s' v := by
    refine hs.invariant (I := fun h u => ∃ v, U.Shows obs' t h v ∧ R u v)
      ⟨t, .refl U obs' t, hR⟩ ?_
    rintro h u a u' ⟨v, hv, hR'⟩ hst
    obtain ⟨v', hv', hR''⟩ := hstep u a u' v hR' hst
    exact ⟨v', hv.trans hv', hR''⟩
  obtain ⟨v, hv, -⟩ := hsim
  exact ⟨v, hv⟩

/-- **An undisturbed thread.**  As long as `μ` is not zero there is an unseen step that lowers it
and keeps `I`. -/
theorem exists_quiet_path (T : TransitionSystem σ α) (obs : Transition σ α → Option ε)
    (I : σ → Prop) (μ : σ → ℕ) (hs : I s)
    (hstep : ∀ u, I u → 0 < μ u →
      ∃ a u', T.step u a = some u' ∧ obs ⟨u, a, u'⟩ = none ∧ I u' ∧ μ u' < μ u) :
    ∃ s', T.Shows obs s [] s' ∧ I s' ∧ μ s' = 0 := by
  induction hμ : μ s using Nat.strong_induction_on generalizing s with
  | _ n ih =>
    subst hμ
    rcases Nat.eq_zero_or_pos (μ s) with hzero | hpos
    · exact ⟨s, .refl T obs s, hs, hzero⟩
    · obtain ⟨a, u, hst, hobs, hu, hlt⟩ := hstep s hs hpos
      obtain ⟨s', hs', hI, hzero⟩ := ih (μ u) hlt hu rfl
      exact ⟨s', ((Shows.refl T obs s).quiet hst hobs).trans hs', hI, hzero⟩

end TransitionSystem
end ThreadUtils
