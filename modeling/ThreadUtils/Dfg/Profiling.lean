import Mathlib.Algebra.BigOperators.Group.Finset.Piecewise
import Mathlib.Algebra.BigOperators.Group.List.Lemmas
import Mathlib.Algebra.Order.BigOperators.Group.List
import Mathlib.Algebra.Order.Group.Int
import Mathlib.Algebra.Ring.Int.Defs

/-!
# The profile of a worker

A worker of the graph runner tells its profile when it goes to sleep and wakes up, when it begins
and ends to work, and when it begins and ends to execute a node.  The profile measures the time in
between with two stopwatches: `work_sleep_sw` for the sleep and for the work, which alternate, and
`exec_sw` for the executions, which are inside the work.

`exec_end` stops `work_sleep_sw`.  What it adds to the time of the node is the time since the work
began, not since the execution did; `exec_sw` is started and never stopped.

## What the profile shows

The stopwatch is stopped again at the end of the work, and a second stop overwrites the first, so
the time of the work itself is right.  What is wrong are the times of the nodes: the first execution
of a work is charged with the time before it, and each later one with all that came before it in the
work as well (`charged`).  `run_turns` says this for every sequence of turns and every clock.

The clock is part of the events.  It never goes back; nothing else is known of it, and the
executions may take no time.  For such a clock the times are right if and only if no time passes
between the beginning of a work and the beginning of each of its executions.  That each share is too
large and none too small is what makes the condition necessary.

* `attributed_iff` --- the times of the nodes are those of their executions if and only if every
  execution begins when its work begins.
-/

namespace ThreadUtils
namespace Profiling

variable {N : Type*}

/-! ## The stopwatch -/

/-- `TU_Stopwatch`.  Times and durations are in nanoseconds. -/
structure Stopwatch where
  beginTime : ℤ
  endTime : ℤ
  running : Bool

/-- `tu_stopwatch_start`. -/
def tuStopwatchStart (sw : Stopwatch) (now : ℤ) : Stopwatch :=
  { sw with beginTime := now, running := true }

/-- `tu_stopwatch_stop`. -/
def tuStopwatchStop (sw : Stopwatch) (now : ℤ) : Stopwatch :=
  { sw with endTime := now, running := false }

/-- `tu_stopwatch_get_time`. -/
def tuStopwatchGetTime (sw : Stopwatch) : ℤ :=
  sw.endTime - sw.beginTime

/-- `tu_stopwatch_stop_and_get_time`. -/
def tuStopwatchStopAndGetTime (sw : Stopwatch) (now : ℤ) : Stopwatch × ℤ :=
  let sw := tuStopwatchStop sw now
  (sw, tuStopwatchGetTime sw)

/-! ## The hooks -/

/-- `TU_DfgWorkerProfileInfos`.  The map `exec_dur` gives `(0, 0)` for a node without an entry. -/
structure Infos (N : Type*) where
  execDur : N → ℤ × ℕ
  workCount : ℕ
  workTime : ℤ
  sleepTime : ℤ
  workSleepSw : Stopwatch
  execSw : Stopwatch

/-- A profile without entries; the stopwatches have not been started. -/
def initial (workSleepSw execSw : Stopwatch) : Infos N :=
  ⟨fun _ => (0, 0), 0, 0, 0, workSleepSw, execSw⟩

/-- What a worker tells its profile. -/
inductive Event (N : Type*) where
  | sleepBegin
  | sleepEnd
  | workBegin
  | workEnd
  | execBegin (node : N)
  | execEnd (node : N)

variable [DecidableEq N]

/-- The hooks `sleep_begin`, `sleep_end`, `work_begin`, `work_end`, `exec_begin` and `exec_end`,
when the clock shows `now`. -/
def Infos.hook (infos : Infos N) (now : ℤ) : Event N → Infos N
  | .sleepBegin => { infos with workSleepSw := tuStopwatchStart infos.workSleepSw now }
  | .sleepEnd =>
      let r := tuStopwatchStopAndGetTime infos.workSleepSw now
      { infos with workSleepSw := r.1, sleepTime := infos.sleepTime + r.2 }
  | .workBegin =>
      { infos with
        workSleepSw := tuStopwatchStart infos.workSleepSw now
        workCount := infos.workCount + 1 }
  | .workEnd =>
      let r := tuStopwatchStopAndGetTime infos.workSleepSw now
      { infos with workSleepSw := r.1, workTime := infos.workTime + r.2 }
  | .execBegin _ => { infos with execSw := tuStopwatchStart infos.execSw now }
  | .execEnd node =>
      let r := tuStopwatchStopAndGetTime infos.workSleepSw now
      let dur := infos.execDur node
      { infos with
        workSleepSw := r.1
        execDur := Function.update infos.execDur node (dur.1 + r.2, dur.2 + 1) }

/-- The profile after a list of events with their times. -/
def Infos.run (infos : Infos N) (events : List (ℤ × Event N)) : Infos N :=
  events.foldl (fun infos e => infos.hook e.1 e.2) infos

/-! ## The events of a worker -/

/-- An execution of a node, `worker_node_exec`. -/
structure Exec (N : Type*) where
  node : N
  beginTime : ℤ
  endTime : ℤ

/-- A call of `worker_process_queues`, with its executions. -/
structure Work (N : Type*) where
  beginTime : ℤ
  execs : List (Exec N)
  endTime : ℤ

/-- A turn of the loop of `worker_run`.  There is no work when the worker is to terminate. -/
structure Turn (N : Type*) where
  sleepBegin : ℤ
  sleepEnd : ℤ
  work : Option (Work N)

def Exec.events (e : Exec N) : List (ℤ × Event N) :=
  [(e.beginTime, .execBegin e.node), (e.endTime, .execEnd e.node)]

def Work.events (w : Work N) : List (ℤ × Event N) :=
  (w.beginTime, .workBegin) :: w.execs.flatMap Exec.events ++ [(w.endTime, .workEnd)]

def Turn.events (turn : Turn N) : List (ℤ × Event N) :=
  (turn.sleepBegin, .sleepBegin) :: (turn.sleepEnd, .sleepEnd) ::
    turn.work.toList.flatMap Work.events

/-- The works of a worker. -/
def works (turns : List (Turn N)) : List (Work N) :=
  turns.flatMap fun turn => turn.work.toList

/-- The executions of a worker, each with the time when its work began. -/
def executions (turns : List (Turn N)) : List (ℤ × Exec N) :=
  (works turns).flatMap fun w => w.execs.map fun e => (w.beginTime, e)

/-- The clock never goes back. -/
def Nondecreasing (turns : List (Turn N)) : Prop :=
  ((turns.flatMap Turn.events).map Prod.fst).Pairwise (· ≤ ·)

/-- The executions of a node. -/
def executionsOf (n : N) (l : List (ℤ × Exec N)) : List (ℤ × Exec N) :=
  l.filter fun p => p.2.node = n

/-- The time of an execution. -/
def duration (p : ℤ × Exec N) : ℤ :=
  p.2.endTime - p.2.beginTime

/-- The execution time is attributed to the nodes that were executed. -/
structure Attributed (turns : List (Turn N)) (infos : Infos N) : Prop where
  time : ∀ n, (infos.execDur n).1 = ((executionsOf n (executions turns)).map duration).sum
  count : ∀ n, (infos.execDur n).2 = (executionsOf n (executions turns)).length
  total : ∀ nodes : Finset N, ∑ n ∈ nodes, (infos.execDur n).1 ≤ infos.workTime

/-! ## What the profile shows -/

/-- What `exec_end` adds for an execution: the time since its work began. -/
def charged (p : ℤ × Exec N) : ℤ :=
  p.2.endTime - p.1

theorem run_append (infos : Infos N) (l l' : List (ℤ × Event N)) :
    infos.run (l ++ l') = (infos.run l).run l' :=
  List.foldl_append

theorem executionsOf_append (n : N) (l l' : List (ℤ × Exec N)) :
    executionsOf n (l ++ l') = executionsOf n l ++ executionsOf n l' :=
  List.filter_append _ _

/-- The time and the number that are added for a node. -/
def share (n : N) (l : List (ℤ × Exec N)) : ℤ × ℕ :=
  (((executionsOf n l).map charged).sum, (executionsOf n l).length)

theorem share_append (n : N) (l l' : List (ℤ × Exec N)) :
    share n (l ++ l') = share n l + share n l' := by
  unfold share
  rw [executionsOf_append, List.map_append, List.sum_append, List.length_append]
  rfl

/-- One execution. -/
theorem run_exec (infos : Infos N) (e : Exec N) :
    (infos.run e.events).workTime = infos.workTime ∧
      (infos.run e.events).workSleepSw.beginTime = infos.workSleepSw.beginTime ∧
      ∀ n, (infos.run e.events).execDur n =
        infos.execDur n + share n [(infos.workSleepSw.beginTime, e)] := by
  refine ⟨rfl, rfl, fun n => ?_⟩
  change Function.update infos.execDur e.node _ n = _
  unfold share executionsOf
  by_cases h : n = e.node
  · subst h
    rw [Function.update_self, List.filter_cons_of_pos (by simp)]
    simp only [List.filter_nil, List.map_singleton, List.sum_singleton, List.length_singleton]
    rfl
  · rw [Function.update_of_ne h, List.filter_cons_of_neg (by simpa using Ne.symm h)]
    exact (add_zero _).symm

/-- The executions of a work. -/
theorem run_execs (infos : Infos N) (l : List (Exec N)) :
    (infos.run (l.flatMap Exec.events)).workTime = infos.workTime ∧
      (infos.run (l.flatMap Exec.events)).workSleepSw.beginTime = infos.workSleepSw.beginTime ∧
      ∀ n, (infos.run (l.flatMap Exec.events)).execDur n = infos.execDur n +
        share n (l.map fun e => (infos.workSleepSw.beginTime, e)) := by
  induction l generalizing infos with
  | nil => exact ⟨rfl, rfl, fun n => (add_zero _).symm⟩
  | cons e l ih =>
    obtain ⟨htime, hbegin, hdur⟩ := run_exec infos e
    obtain ⟨htime', hbegin', hdur'⟩ := ih (infos.run e.events)
    rw [List.flatMap_cons, run_append]
    refine ⟨htime'.trans htime, hbegin'.trans hbegin, fun n => ?_⟩
    rw [hdur', hdur, hbegin, add_assoc, ← share_append]
    rfl

/-- A turn: the work adds its length, and its executions the times since it began. -/
theorem run_turn (infos : Infos N) (turn : Turn N) :
    (infos.run turn.events).workTime =
        infos.workTime + (turn.work.toList.map fun w => w.endTime - w.beginTime).sum ∧
      ∀ n, (infos.run turn.events).execDur n = infos.execDur n + share n (executions [turn]) := by
  unfold Turn.events executions works
  rw [List.flatMap_singleton]
  cases turn.work with
  | none => exact ⟨(add_zero _).symm, fun n => (add_zero _).symm⟩
  | some w =>
    simp only [Option.toList_some, List.flatMap_singleton, List.map_singleton, List.sum_singleton]
    let infos' := infos.run [(turn.sleepBegin, .sleepBegin), (turn.sleepEnd, .sleepEnd),
      (w.beginTime, .workBegin)]
    obtain ⟨htime, hbegin, hdur⟩ := run_execs infos' w.execs
    have hsplit : infos.run ((turn.sleepBegin, .sleepBegin) :: (turn.sleepEnd, .sleepEnd) ::
        w.events) = (infos'.run (w.execs.flatMap Exec.events)).run [(w.endTime, .workEnd)] := by
      rw [← run_append]
      rfl
    rw [hsplit]
    constructor
    · change (infos'.run (w.execs.flatMap Exec.events)).workTime + (w.endTime -
        (infos'.run (w.execs.flatMap Exec.events)).workSleepSw.beginTime) = _
      rw [htime, hbegin]
      rfl
    · exact hdur

/-- **What the profile shows**: the lengths of the works, and for each node the times from the
beginning of the work to the end of the execution. -/
theorem run_turns (infos : Infos N) (turns : List (Turn N)) :
    (infos.run (turns.flatMap Turn.events)).workTime =
        infos.workTime + ((works turns).map fun w => w.endTime - w.beginTime).sum ∧
      ∀ n, (infos.run (turns.flatMap Turn.events)).execDur n =
        infos.execDur n + share n (executions turns) := by
  induction turns generalizing infos with
  | nil => exact ⟨(add_zero _).symm, fun n => (add_zero _).symm⟩
  | cons turn turns ih =>
    obtain ⟨htime, hdur⟩ := run_turn infos turn
    obtain ⟨htime', hdur'⟩ := ih (infos.run turn.events)
    have hworks : works (turn :: turns) = turn.work.toList ++ works turns := List.flatMap_cons
    have hexecutions : executions (turn :: turns) = executions [turn] ++ executions turns := by
      unfold executions
      rw [hworks, List.flatMap_append]
      simp [works]
    rw [List.flatMap_cons, run_append, hworks, hexecutions, List.map_append, List.sum_append]
    refine ⟨?_, fun n => ?_⟩
    · rw [htime', htime, add_assoc]
    · rw [hdur', hdur, add_assoc, ← share_append]

/-! ## The clock -/

omit [DecidableEq N] in
/-- The executions of a work are inside it, one after the other. -/
theorem execs_within {t u : ℤ} {l : List (Exec N)}
    (h : (t :: (l.flatMap Exec.events).map Prod.fst ++ [u]).Pairwise (· ≤ ·)) :
    (∀ e ∈ l, t ≤ e.beginTime ∧ e.beginTime ≤ e.endTime) ∧
      (l.map fun e => e.endTime - e.beginTime).sum ≤ u - t := by
  induction l generalizing t with
  | nil =>
    refine ⟨fun _ he => absurd he List.not_mem_nil, ?_⟩
    have hle := List.rel_of_pairwise_cons h (List.mem_singleton.mpr rfl)
    simpa using hle
  | cons e l ih =>
    obtain ⟨ht, hrest⟩ := List.pairwise_cons.mp h
    obtain ⟨hbegin, hend⟩ := List.pairwise_cons.mp hrest
    obtain ⟨hin, hsum⟩ := ih hend
    have htb : t ≤ e.beginTime := ht _ List.mem_cons_self
    have hbe : e.beginTime ≤ e.endTime := hbegin _ List.mem_cons_self
    refine ⟨fun e' he' => ?_, ?_⟩
    · rcases List.mem_cons.mp he' with rfl | he'
      · exact ⟨htb, hbe⟩
      · exact ⟨htb.trans (hbe.trans (hin e' he').1), (hin e' he').2⟩
    · rw [List.map_cons, List.sum_cons]
      omega

variable {turns : List (Turn N)}

omit [DecidableEq N] in
/-- The times of a work do not go back. -/
theorem Nondecreasing.work (h : Nondecreasing turns) {w : Work N} (hw : w ∈ works turns) :
    (w.beginTime :: (w.execs.flatMap Exec.events).map Prod.fst ++ [w.endTime]).Pairwise
      (· ≤ ·) := by
  obtain ⟨turn, hturn, hw⟩ := List.mem_flatMap.mp hw
  unfold Nondecreasing at h
  rw [List.map_flatMap, List.pairwise_flatMap] at h
  have hevents := h.1 turn hturn
  rw [Turn.events, Option.mem_toList.mp hw, Option.toList_some, List.flatMap_singleton] at hevents
  have htail := (List.pairwise_cons.mp (List.pairwise_cons.mp hevents).2).2
  rw [Work.events, List.map_append] at htail
  exact htail

omit [DecidableEq N] in
theorem mem_executions {p : ℤ × Exec N} :
    p ∈ executions turns ↔ ∃ w ∈ works turns, p.2 ∈ w.execs ∧ p.1 = w.beginTime := by
  unfold executions
  rw [List.mem_flatMap]
  refine exists_congr fun w => and_congr_right fun _ => ?_
  rw [List.mem_map]
  constructor
  · rintro ⟨e, he, rfl⟩
    exact ⟨he, rfl⟩
  · rintro ⟨he, hp⟩
    exact ⟨p.2, he, Prod.ext hp.symm rfl⟩

omit [DecidableEq N] in
/-- An execution begins after its work, and ends after it began. -/
theorem Nondecreasing.execution (h : Nondecreasing turns) {p : ℤ × Exec N}
    (hp : p ∈ executions turns) : p.1 ≤ p.2.beginTime ∧ 0 ≤ duration p := by
  obtain ⟨w, hw, he, hbegin⟩ := mem_executions.mp hp
  obtain ⟨hle, hend⟩ := (execs_within (h.work hw)).1 p.2 he
  exact ⟨hbegin ▸ hle, Int.sub_nonneg_of_le hend⟩

omit [DecidableEq N] in
/-- The executions of some works take at most the time of the works. -/
theorem sum_duration_le (ws : List (Work N))
    (h : ∀ w ∈ ws, (w.execs.map fun e => e.endTime - e.beginTime).sum ≤ w.endTime - w.beginTime) :
    ((ws.flatMap fun w => w.execs.map fun e => (w.beginTime, e)).map duration).sum ≤
      (ws.map fun w => w.endTime - w.beginTime).sum := by
  induction ws with
  | nil => exact le_rfl
  | cons w ws ih =>
    rw [List.flatMap_cons, List.map_append, List.sum_append, List.map_cons, List.sum_cons,
      List.map_map]
    exact add_le_add (h w List.mem_cons_self) (ih fun w' hw' => h w' (List.mem_cons_of_mem _ hw'))

/-- The executions of some nodes take at most the time of all of them. -/
theorem sum_executionsOf_le {f : ℤ × Exec N → ℤ} {l : List (ℤ × Exec N)} (h : ∀ p ∈ l, 0 ≤ f p)
    (nodes : Finset N) : ∑ n ∈ nodes, ((executionsOf n l).map f).sum ≤ (l.map f).sum := by
  induction l with
  | nil => exact (Finset.sum_const_zero).le
  | cons p l ih =>
    have hcons : ∀ n, ((executionsOf n (p :: l)).map f).sum =
        (if p.2.node = n then f p else 0) + ((executionsOf n l).map f).sum := by
      intro n
      unfold executionsOf
      by_cases hn : p.2.node = n
      · rw [List.filter_cons_of_pos (by simpa using hn), if_pos hn, List.map_cons, List.sum_cons]
      · rw [List.filter_cons_of_neg (by simpa using hn), if_neg hn, zero_add]
    simp only [hcons]
    rw [Finset.sum_add_distrib, Finset.sum_ite_eq, List.map_cons, List.sum_cons]
    refine add_le_add ?_ (ih fun p' hp' => h p' (List.mem_cons_of_mem _ hp'))
    split
    · exact le_rfl
    · exact h p List.mem_cons_self

/-! ## The theorem -/

/-- **The execution time is attributed to the right nodes** if and only if every execution begins
at the time when the work begins in which it is. -/
theorem attributed_iff {turns : List (Turn N)} (hclock : Nondecreasing turns)
    (workSleepSw execSw : Stopwatch) :
    Attributed turns ((initial workSleepSw execSw).run (turns.flatMap Turn.events)) ↔
      ∀ p ∈ executions turns, p.2.beginTime = p.1 := by
  obtain ⟨hwork, hdur⟩ := run_turns (initial workSleepSw execSw : Infos N) turns
  have htime : ∀ n, (((initial workSleepSw execSw).run (turns.flatMap Turn.events)).execDur n).1 =
      ((executionsOf n (executions turns)).map charged).sum := by
    intro n
    rw [hdur]
    exact zero_add _
  constructor
  · intro hattr p hp
    -- what is charged too much for the node is zero, and no execution is charged too little
    have hsum : ((executionsOf p.2.node (executions turns)).map
        fun p => p.2.beginTime - p.1).sum = 0 := by
      have heq := (htime p.2.node).symm.trans (hattr.time p.2.node)
      have hsplit : ((executionsOf p.2.node (executions turns)).map charged) =
          (executionsOf p.2.node (executions turns)).map
            fun p => (p.2.beginTime - p.1) + duration p :=
        List.map_congr_left fun p _ => by
          unfold charged duration
          omega
      rw [hsplit, List.sum_map_add] at heq
      exact add_eq_right.mp heq
    have hzero := List.all_zero_of_le_zero_le_of_sum_eq_zero (fun d hd => ?_) hsum
      (List.mem_map_of_mem (List.mem_filter.mpr ⟨hp, decide_eq_true rfl⟩))
    · exact sub_eq_zero.mp hzero
    · obtain ⟨p', hp', rfl⟩ := List.mem_map.mp hd
      exact Int.sub_nonneg_of_le (hclock.execution (List.mem_filter.mp hp').1).1
  · intro hbegin
    have hsame : ∀ n, (executionsOf n (executions turns)).map charged =
        (executionsOf n (executions turns)).map duration := fun n =>
      List.map_congr_left fun p hp => by
        unfold charged duration
        rw [hbegin p (List.mem_filter.mp hp).1]
    refine ⟨fun n => (htime n).trans (congrArg List.sum (hsame n)), fun n => ?_, fun nodes => ?_⟩
    · rw [hdur]
      exact zero_add _
    · calc ∑ n ∈ nodes, (((initial workSleepSw execSw).run (turns.flatMap Turn.events)).execDur n).1
          = ∑ n ∈ nodes, ((executionsOf n (executions turns)).map duration).sum :=
            Finset.sum_congr rfl fun n _ => (htime n).trans (congrArg List.sum (hsame n))
        _ ≤ ((executions turns).map duration).sum :=
            sum_executionsOf_le (fun p hp => (hclock.execution hp).2) nodes
        _ ≤ ((works turns).map fun w => w.endTime - w.beginTime).sum :=
            sum_duration_le _ fun w hw => (execs_within (hclock.work hw)).2
        _ = _ := by
            rw [hwork]
            exact (zero_add _).symm

/-- Node 7 is executed at the beginning of the work; then the worker sleeps and is stopped. -/
def atOnce : List (Turn ℕ) :=
  [⟨0, 4, some ⟨5, [⟨7, 5, 9⟩], 10⟩⟩, ⟨11, 12, none⟩]

theorem attributed_atOnce :
    Attributed atOnce
      ((initial ⟨0, 0, false⟩ ⟨0, 0, false⟩).run (atOnce.flatMap Turn.events)) :=
  (attributed_iff (by unfold Nondecreasing; decide) _ _).mpr (by decide)

/-- Two executions in one work. -/
def twice : List (Turn ℕ) :=
  [⟨0, 4, some ⟨5, [⟨7, 5, 9⟩, ⟨8, 9, 12⟩], 12⟩⟩]

/-- **The time of one node is charged to another**: the second execution takes 3 and is charged
with 7, and the two nodes together have more time than the worker has worked. -/
theorem not_attributed_twice :
    Nondecreasing twice ∧
      ((initial ⟨0, 0, false⟩ ⟨0, 0, false⟩).run (twice.flatMap Turn.events)).execDur 8 = (7, 1) ∧
      ¬ Attributed twice
        ((initial ⟨0, 0, false⟩ ⟨0, 0, false⟩).run (twice.flatMap Turn.events)) := by
  refine ⟨by unfold Nondecreasing; decide, by decide, fun hattr => ?_⟩
  exact absurd (hattr.time 8) (by decide)

end Profiling
end ThreadUtils
