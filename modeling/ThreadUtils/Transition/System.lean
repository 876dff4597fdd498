import Mathlib.Data.List.Basic
import Mathlib.Tactic.Basic

/-!
# Transition systems with a partial step function

A system of threads under an interleaving semantics is a set of initial states
and a partial function that performs one action of one thread.  Everything the
scheduler, the operating system or a spurious failure may decide is part of the
action, so the step function itself is deterministic and can be evaluated.

Three notions of run are used.

* `Reaches ok` --- the states of runs whose every step satisfies `ok`, a
  condition on the state before the step and on the action.  `Reachable` is the
  case without a condition, and `Reaches.invariant` is the induction rule.
* `Path` --- a run between two given states together with its steps, for
  statements about what happens between a call and its return.
* `replay` and `replayWithin` --- the evaluators of a list of actions; `traceOf` is the list of
  its steps.  The threads of a concrete run are the only one or have numbers.

## The rules

An invariant is proved with `Reaches.invariant`, and with `Reaches.invariant_within` if it holds
only as long as some number, that never gets smaller along a run, has not reached a bound.

A statement about an instant inside a call, without a name for the instant, goes backwards:
a property that holds at the end and not at the beginning has a step that establishes it
(`Path.exists_establishing`), and one that holds at the beginning is kept, or something has happened
(`Path.exists_or`).

A condition that is not only sufficient for a property of the steps, but necessary, is met by the
exactness rule: if a step has both or neither, and one with both keeps the invariant, then the runs
of the one are the runs of the other.
-/

namespace ThreadUtils

universe u v

/-- A set of initial states and a partial step function.  `step s a = none` means
that the action `a` is not enabled in `s`. -/
structure TransitionSystem (σ : Type u) (α : Type v) where
  /-- The states a run may start from. -/
  init : σ → Prop
  /-- One step of one thread. -/
  step : σ → α → Option σ

namespace TransitionSystem

variable {σ : Type u} {α : Type v} {T : TransitionSystem σ α}

/-! ## Reachable states -/

/-- The states of the runs all of whose steps satisfy `ok`. -/
inductive Reaches (T : TransitionSystem σ α) (ok : σ → α → Prop) : σ → Prop
  | start {s : σ} : T.init s → Reaches T ok s
  | next {s : σ} {a : α} {s' : σ} :
      Reaches T ok s → ok s a → T.step s a = some s' → Reaches T ok s'

/-- The states of all runs. -/
abbrev Reachable (T : TransitionSystem σ α) : σ → Prop :=
  T.Reaches fun _ _ => True

/-- A weaker condition on the steps reaches more states. -/
theorem Reaches.mono {ok ok' : σ → α → Prop} (h : ∀ s a, ok s a → ok' s a) {s : σ}
    (hs : T.Reaches ok s) : T.Reaches ok' s := by
  induction hs with
  | start h₀ => exact .start h₀
  | next _ hok hstep ih => exact .next ih (h _ _ hok) hstep

theorem Reaches.reachable {ok : σ → α → Prop} {s : σ} (hs : T.Reaches ok s) :
    T.Reachable s :=
  hs.mono fun _ _ _ => trivial

/-- **The invariant rule.**  A property of the initial states that every admitted
step out of a reachable state preserves holds in every state reached. -/
theorem Reaches.invariant {ok : σ → α → Prop} {I : σ → Prop}
    (hinit : ∀ s, T.init s → I s)
    (hstep : ∀ s a s', T.Reaches ok s → I s → ok s a → T.step s a = some s' → I s')
    {s : σ} (hs : T.Reaches ok s) : I s := by
  induction hs with
  | start h₀ => exact hinit _ h₀
  | next hr hok hstep' ih => exact hstep _ _ _ hr ih hok hstep'

/-- The invariant rule under a budget: where `B` can only be lost along a run, an
invariant need only be preserved by the steps that end within it. -/
theorem Reaches.invariant_within {ok : σ → α → Prop} {I B : σ → Prop}
    (hB : ∀ s a s', T.step s a = some s' → B s' → B s)
    (hinit : ∀ s, T.init s → I s)
    (hstep : ∀ s a s', I s → B s' → T.step s a = some s' → I s')
    {s : σ} (hs : T.Reaches ok s) : B s → I s := by
  induction hs with
  | start h₀ => exact fun _ => hinit _ h₀
  | next hr hok hstep' ih =>
    intro hb
    exact hstep _ _ _ (ih (hB _ _ _ hstep' hb)) hb hstep'

/-! ## Paths -/

/-- One step of a run. -/
structure Transition (σ : Type u) (α : Type v) where
  source : σ
  action : α
  target : σ

/-- `Path T ok s trace s'`: a run from `s` to `s'` whose steps satisfy `ok`, together
with the list of its steps. -/
inductive Path (T : TransitionSystem σ α) (ok : σ → α → Prop) :
    σ → List (Transition σ α) → σ → Prop
  | nil (s : σ) : Path T ok s [] s
  | snoc {s s' s'' : σ} {a : α} {trace : List (Transition σ α)} :
      Path T ok s trace s' → ok s' a → T.step s' a = some s'' →
      Path T ok s (trace ++ [⟨s', a, s''⟩]) s''

/-- The last state of a path is reachable when the first one is. -/
theorem Path.reachable {ok : σ → α → Prop} {s s' : σ} {trace : List (Transition σ α)}
    (p : T.Path ok s trace s') (hs : T.Reachable s) : T.Reachable s' := by
  induction p with
  | nil => exact hs
  | snoc _ _ hstep ih => exact .next ih trivial hstep

/-- The last state of a path is reached when the first one is. -/
theorem Path.reaches {ok : σ → α → Prop} {s s' : σ} {trace : List (Transition σ α)}
    (p : T.Path ok s trace s') (hs : T.Reaches ok s) : T.Reaches ok s' := by
  induction p with
  | nil => exact hs
  | snoc _ hok hstep ih => exact .next ih hok hstep

/-- A path under a weaker condition on the steps. -/
theorem Path.mono {ok ok' : σ → α → Prop} {s s' : σ} {trace : List (Transition σ α)}
    (p : T.Path ok s trace s') (h : ∀ s a, ok s a → ok' s a) : T.Path ok' s trace s' := by
  induction p with
  | nil => exact .nil s
  | snoc _ hok hstep ih => exact .snoc ih (h _ _ hok) hstep

/-- One path after the other. -/
theorem Path.trans {ok : σ → α → Prop} {s s' s'' : σ} {trace trace' : List (Transition σ α)}
    (p : T.Path ok s trace s') (q : T.Path ok s' trace' s'') :
    T.Path ok s (trace ++ trace') s'' := by
  induction q with
  | nil => rwa [List.append_nil]
  | snoc _ hok hstep ih =>
    rw [← List.append_assoc]
    exact .snoc ih hok hstep

/-- A path of one step. -/
theorem Path.single {ok : σ → α → Prop} {s s' : σ} {a : α} (hok : ok s a)
    (h : T.step s a = some s') : T.Path ok s [⟨s, a, s'⟩] s' :=
  .snoc (.nil s) hok h

/-- The invariant rule along a path, for a property of the steps so far and the state
they lead to. -/
theorem Path.invariant {ok : σ → α → Prop} {I : List (Transition σ α) → σ → Prop} {s s' : σ}
    {trace : List (Transition σ α)} (p : T.Path ok s trace s') (hstart : I [] s)
    (hstep : ∀ tr u a u', I tr u → ok u a → T.step u a = some u' → I (tr ++ [⟨u, a, u'⟩]) u') :
    I trace s' := by
  induction p with
  | nil => exact hstart
  | snoc _ hok hst ih => exact hstep _ _ _ _ ih hok hst

/-- **The potential rule.**  A run whose steps each lose some of `μ` is no longer than what it
loses. -/
theorem Path.length_add_le {ok : σ → α → Prop} {μ : σ → ℕ} {s s' : σ}
    {trace : List (Transition σ α)} (p : T.Path ok s trace s')
    (hstep : ∀ u a u', ok u a → T.step u a = some u' → μ u' < μ u) :
    trace.length + μ s' ≤ μ s := by
  induction p with
  | nil => simp
  | snoc _ hok hst ih =>
    have hlt := hstep _ _ _ hok hst
    rw [List.length_append, List.length_singleton]
    omega

/-- The steps of a path start from states where what they preserve holds. -/
theorem Path.with_invariant {ok : σ → α → Prop} {J : σ → Prop} {s s' : σ}
    {trace : List (Transition σ α)} (p : T.Path ok s trace s') (hJ : J s)
    (hstep : ∀ u a u', J u → ok u a → T.step u a = some u' → J u') :
    T.Path (fun u a => ok u a ∧ J u) s trace s' ∧ J s' := by
  induction p with
  | nil => exact ⟨.nil s, hJ⟩
  | snoc _ hok hst ih =>
    obtain ⟨q, hJ'⟩ := ih
    exact ⟨.snoc q ⟨hok, hJ'⟩ hst, hstep _ _ _ hJ' hok hst⟩

/-- **The instant rule.**  Suppose `R` holds at the start of a path and every step
that falsifies it ends in a state where `E` holds.  Then either `E` held at some
instant of the path, or `R` still holds at its end. -/
theorem Path.exists_or {ok : σ → α → Prop} {E R : σ → Prop}
    (hstep : ∀ s a s', T.Reachable s → R s → ok s a → T.step s a = some s' →
      E s' ∨ R s')
    {s s' : σ} {trace : List (Transition σ α)} (p : T.Path ok s trace s') (hs : T.Reachable s)
    (hR : R s) : (∃ t ∈ trace, E t.target) ∨ R s' := by
  induction p with
  | nil => exact Or.inr hR
  | snoc q hok hst ih =>
    rcases ih with ⟨t, ht, hE⟩ | hR'
    · exact Or.inl ⟨t, List.mem_append_left _ ht, hE⟩
    · rcases hstep _ _ _ (q.reachable hs) hR' hok hst with hE | hR''
      · exact Or.inl ⟨_, List.mem_append_right _ (List.mem_singleton.mpr rfl), hE⟩
      · exact Or.inr hR''

/-- **The change rule.**  A path into a property has a step that establishes it. -/
theorem Path.exists_establishing {ok : σ → α → Prop} {P : σ → Prop} {s s' : σ}
    {trace : List (Transition σ α)} (p : T.Path ok s trace s') (hs : T.Reachable s) (hP : ¬ P s)
    (hP' : P s') : ∃ t ∈ trace, T.Reachable t.source ∧ ok t.source t.action ∧
      T.step t.source t.action = some t.target ∧ ¬ P t.source ∧ P t.target := by
  induction p with
  | nil => exact absurd hP' hP
  | snoc q hok hst ih =>
    rename_i u _ _ _
    by_cases hu : P u
    · obtain ⟨t, ht, hrest⟩ := ih hu
      exact ⟨t, List.mem_append_left _ ht, hrest⟩
    · exact ⟨_, List.mem_append_right _ (List.mem_singleton.mpr rfl), q.reachable hs, hok, hst,
        hu, hP'⟩

/-- What can only be lost along a run holds at every step of a path to a state where it
holds. -/
theorem Path.within {ok : σ → α → Prop} {B : σ → Prop}
    (hB : ∀ s a s', T.step s a = some s' → B s' → B s) {s s' : σ}
    {trace : List (Transition σ α)} (p : T.Path ok s trace s') (hb : B s') :
    T.Path (fun u a => ok u a ∧ B u) s trace s' := by
  induction p with
  | nil => exact .nil s
  | snoc _ hok hst ih => exact .snoc (ih (hB _ _ _ hst hb)) ⟨hok, hB _ _ _ hst hb⟩ hst

/-- The steps of a path satisfy its condition. -/
theorem Path.ok_of_mem {ok : σ → α → Prop} {s s' : σ} {trace : List (Transition σ α)}
    (p : T.Path ok s trace s') {t : Transition σ α} (ht : t ∈ trace) : ok t.source t.action := by
  induction p with
  | nil => exact absurd ht List.not_mem_nil
  | snoc _ hok _ ih =>
    rcases List.mem_append.mp ht with ht' | ht'
    · exact ih ht'
    · rw [List.mem_singleton.mp ht']
      exact hok

/-- **The exactness rule.**  If every step from a state with the invariant has both properties
and keeps the invariant, or has neither, then the paths all of whose steps have the one are those
all of whose steps have the other. -/
theorem Path.forall_iff_forall {ok : σ → α → Prop} {I : σ → Prop} {P Q : Transition σ α → Prop}
    {s s' : σ} {trace : List (Transition σ α)} (p : T.Path ok s trace s') (hI : I s)
    (hstep : ∀ u a u', I u → ok u a → T.step u a = some u' →
      (P ⟨u, a, u'⟩ ∧ Q ⟨u, a, u'⟩ ∧ I u') ∨ (¬ P ⟨u, a, u'⟩ ∧ ¬ Q ⟨u, a, u'⟩)) :
    (∀ t ∈ trace, P t) ↔ ∀ t ∈ trace, Q t := by
  -- as long as all steps have the one, they have the other and the invariant holds
  have hboth : ((∀ t ∈ trace, P t) ∨ (∀ t ∈ trace, Q t)) →
      (∀ t ∈ trace, P t) ∧ (∀ t ∈ trace, Q t) ∧ I s' := by
    induction p with
    | nil => exact fun _ => ⟨by simp, by simp, hI⟩
    | snoc _ hok hst ih =>
      rename_i u u' a trace _
      simp only [List.forall_mem_append, List.forall_mem_singleton]
      intro hor
      obtain ⟨hP, hQ, hu⟩ := ih (hor.imp And.left And.left)
      rcases hstep u a u' hu hok hst with ⟨hp, hq, hu'⟩ | ⟨hp, hq⟩
      · exact ⟨⟨hP, hp⟩, ⟨hQ, hq⟩, hu'⟩
      · exact (hor.elim (fun h => hp h.2) fun h => hq h.2).elim
  exact ⟨fun h => (hboth (Or.inl h)).2.1, fun h => (hboth (Or.inr h)).1⟩

/-! ## Replaying a schedule -/

/-- The state after a list of actions, when each of them satisfies `ok` and is enabled in
its turn. -/
def runWithin (T : TransitionSystem σ α) (ok : σ → α → Prop) [∀ s a, Decidable (ok s a)] (s : σ) :
    List α → Option σ
  | [] => some s
  | a :: as => if ok s a then (T.step s a).bind fun s' => runWithin T ok s' as else none

/-- A schedule that can be run leads to a state that the runs of `ok` reach. -/
theorem Reaches.of_runWithin {ok : σ → α → Prop} [∀ s a, Decidable (ok s a)] {as : List α}
    {s s' : σ} (hs : T.Reaches ok s) (h : T.runWithin ok s as = some s') : T.Reaches ok s' := by
  induction as generalizing s with
  | nil =>
    rw [runWithin, Option.some.injEq] at h
    exact h ▸ hs
  | cons a as ih =>
    unfold runWithin at h
    split at h
    · next hok =>
      obtain ⟨t, ht, hrun⟩ := Option.bind_eq_some_iff.mp h
      exact ih (.next hs hok ht) hrun
    · exact absurd h (by simp)

/-- The state after a list of actions; the state before them when one is refused. -/
def replayWithin (T : TransitionSystem σ α) (ok : σ → α → Prop) [∀ s a, Decidable (ok s a)] (s : σ)
    (as : List α) : σ :=
  (T.runWithin ok s as).getD s

theorem Reaches.replayWithin {ok : σ → α → Prop} [∀ s a, Decidable (ok s a)] {s : σ}
    (hs : T.Reaches ok s) (as : List α) (h : (T.runWithin ok s as).isSome) :
    T.Reaches ok (T.replayWithin ok s as) := by
  obtain ⟨s', hs'⟩ := Option.isSome_iff_exists.mp h
  rw [TransitionSystem.replayWithin, hs', Option.getD_some]
  exact hs.of_runWithin hs'

/-- The state after a list of enabled actions. -/
def run (T : TransitionSystem σ α) (s : σ) (as : List α) : Option σ :=
  T.runWithin (fun _ _ => True) s as

theorem run_cons (s : σ) (a : α) (as : List α) :
    T.run s (a :: as) = (T.step s a).bind fun s' => T.run s' as := by
  unfold run
  rw [runWithin, if_pos trivial]

theorem run_append (s : σ) (as bs : List α) :
    T.run s (as ++ bs) = (T.run s as).bind fun s' => T.run s' bs := by
  induction as generalizing s with
  | nil => rfl
  | cons a as ih =>
    rw [List.cons_append, run_cons, run_cons, Option.bind_assoc]
    exact congrArg (Option.bind _) (funext fun s' => ih s')

/-- The state after a list of actions; the state before them when one is refused. -/
def replay (T : TransitionSystem σ α) (s : σ) (as : List α) : σ :=
  (T.run s as).getD s

/-- A schedule that can be replayed leads to a reachable state. -/
theorem Reachable.replay {s : σ} (hs : T.Reachable s) (as : List α)
    (h : (T.run s as).isSome) : T.Reachable (T.replay s as) :=
  Reaches.replayWithin hs as h

/-- The steps of a list of actions, up to the first that is refused. -/
def traceOf (T : TransitionSystem σ α) (s : σ) : List α → List (Transition σ α)
  | [] => []
  | a :: as =>
      match T.step s a with
      | some s' => ⟨s, a, s'⟩ :: traceOf T s' as
      | none => []

theorem Path.of_runWithin {ok : σ → α → Prop} [∀ s a, Decidable (ok s a)] {as : List α} {s s' : σ}
    (h : T.runWithin ok s as = some s') : T.Path ok s (T.traceOf s as) s' := by
  induction as generalizing s with
  | nil =>
    obtain rfl := Option.some.inj h
    exact .nil s
  | cons a as ih =>
    unfold runWithin at h
    split at h
    · next hok =>
      obtain ⟨t, ht, hrun⟩ := Option.bind_eq_some_iff.mp h
      unfold traceOf
      rw [ht]
      exact (Path.single hok ht).trans (ih hrun)
    · exact absurd h (by simp)

/-- A schedule that can be replayed is a path. -/
theorem Path.replayWithin {ok : σ → α → Prop} [∀ s a, Decidable (ok s a)] {s : σ} (as : List α)
    (h : (T.runWithin ok s as).isSome) :
    T.Path ok s (T.traceOf s as) (T.replayWithin ok s as) := by
  obtain ⟨s', hs'⟩ := Option.isSome_iff_exists.mp h
  rw [TransitionSystem.replayWithin, hs', Option.getD_some]
  exact .of_runWithin hs'

theorem Path.replay {s : σ} (as : List α) (h : (T.run s as).isSome) :
    T.Path (fun _ _ => True) s (T.traceOf s as) (T.replay s as) :=
  Path.replayWithin as h

end TransitionSystem

/-! ## The threads of a concrete run -/

theorem mem_unit (u : Unit) : u ∈ [()] :=
  List.mem_singleton.mpr rfl

instance neZero_two : @NeZero ℕ Zero.ofOfNat0 2 := ⟨by decide⟩

instance neZero_three : @NeZero ℕ Zero.ofOfNat0 3 := ⟨by decide⟩

end ThreadUtils
