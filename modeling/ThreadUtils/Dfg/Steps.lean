import ThreadUtils.Dfg.Model

/-!
# What a step does

`Effect` lists once what the threads can do, with the guards under which they do it, so
that an invariant is a case distinction over its constructors and never unfolds the step
function.  Most steps of a worker move nothing but its program counter (`LocalMove`), and most of a
client nothing but its own and the mutex (`ClientMove`).

The three levels are there because the invariants differ in what they look at.  One about the queues
has nothing to say about local moves, and takes them all in one case; one about the progress of a
worker looks at the local moves and takes all clients in one case.

`effect_of_step` is the only proof that goes through the branches of the step function.
-/

namespace ThreadUtils
namespace Dfg

variable {G N W C V : Type*}

/-- The steps of a worker that change nothing but its program counter. -/
inductive LocalMove (dfg : Runner G N W) (s : State G N W C V) (w : W) :
    WorkerPc N V → WorkerPc N V → Prop
  | terminate : s.canTerminate w = true → LocalMove dfg s w .checkTerminate .exited
  | start : ¬ s.canTerminate w = true →
      LocalMove dfg s w .checkTerminate (dfg.enter (dfg.group w) 0 0)
  | below (v : Visit N) :
      s.threadCount v.node < (dfg.graph.node v.node).maxThreadCount →
      LocalMove dfg s w (.load v) (.fetchAdd v)
  | skip (v : Visit N) :
      ¬ s.threadCount v.node < (dfg.graph.node v.node).maxThreadCount →
      LocalMove dfg s w (.load v) (dfg.next (dfg.group w) v)
  | miss (v : Visit N) (i : ℕ) (type : TypeId) (types : List TypeId) :
      s.queue (v.node, type) = [] →
      LocalMove dfg s w (.dequeue v i (type :: types)) (.dequeue v i types)
  | drained (v : Visit N) (i : ℕ) : LocalMove dfg s w (.dequeue v i []) (.decrement v)
  | returned (v : Visit N) (i : ℕ) (data : GraphData V) :
      LocalMove dfg s w (.exec v i data (.run [])) (dfg.afterExec (dfg.group w) v i)
  | null (v : Visit N) (i : ℕ) (data result : GraphData V) (todo : List (GraphData V)) :
      result.data = none →
      LocalMove dfg s w (.exec v i data (.run (result :: todo))) (.exec v i data (.run todo))
  | unsunk (v : Visit N) (i : ℕ) (data result : GraphData V) (todo : List (GraphData V)) :
      result.data ≠ none → dfg.graph.sinkOf v.node result.type = none →
      LocalMove dfg s w (.exec v i data (.run (result :: todo)))
        (.exec v i data (dfg.graph.afterSink v.node result todo))
  | pushed (v : Visit N) (i : ℕ) (data result : GraphData V) (nodes : List N)
      (todo : List (GraphData V)) :
      LocalMove dfg s w (.exec v i data (.push result [] nodes todo))
        (.exec v i data (.release nodes todo))
  | released (v : Visit N) (i : ℕ) (data : GraphData V) (todo : List (GraphData V)) :
      LocalMove dfg s w (.exec v i data (.release [] todo)) (.exec v i data (.run todo))

variable [DecidableEq G] [DecidableEq N] [DecidableEq W] [DecidableEq C] [DecidableEq V]

/-- The steps of a client that change nothing but its program counter and the mutex. -/
inductive ClientMove (dfg : Runner G N W) (s : State G N W C V) (c : C) :
    Action W C V → ClientPc G N W V → Option C → Prop
  | call : s.client c = .idle → ClientMove dfg s c (.waitResult c) .waitLock s.mutex
  | wake : s.client c = .blocked → ClientMove dfg s c (.wake c) .relock s.mutex
  | lock : s.client c = .waitLock ∨ s.client c = .relock → s.mutex = none →
      ClientMove dfg s c (.client c) .waitTest (some c)
  | empty : s.client c = .waitTest → s.resultQueue dfg.graph.id = [] →
      ClientMove dfg s c (.client c) .waitBlock s.mutex
  | block : s.client c = .waitBlock → ClientMove dfg s c (.client c) .blocked none
  | unlock (result : GraphData V) : s.client c = .waitReturn result →
      ClientMove dfg s c (.client c) .idle none
  | term : s.client c = .idle →
      ClientMove dfg s c (.term c) (dfg.termNext dfg.groups) s.mutex
  | stored (g : G) (groups : List G) : s.client c = .termStore [] g groups →
      ClientMove dfg s c (.client c) (.termRelease g groups) s.mutex
  | join (w : W) (rest : List W) (groups : List G) :
      s.client c = .termJoin (w :: rest) groups → s.worker w = .exited →
      ClientMove dfg s c (.client c) (.termJoin rest groups) s.mutex
  | joined (groups : List G) : s.client c = .termJoin [] groups →
      ClientMove dfg s c (.client c) (dfg.termNext groups) s.mutex

/-- The steps of the threads. -/
inductive Effect (dfg : Runner G N W) (s : State G N W C V) :
    Action W C V → State G N W C V → Prop
  | move (w : W) (results : List (GraphData V)) (pc : WorkerPc N V) :
      LocalMove dfg s w (s.worker w) pc → Effect dfg s (.worker w results) (s.goto w pc)
  | acquire (w : W) (results : List (GraphData V)) :
      s.worker w = .acquire → 0 < s.sem (dfg.group w) →
      Effect dfg s (.worker w results)
        { s.goto w .checkTerminate with
          sem := Function.update s.sem (dfg.group w) (s.sem (dfg.group w) - 1) }
  | enter (w : W) (results : List (GraphData V)) (v : Visit N) :
      s.worker w = .fetchAdd v →
      s.threadCount v.node < (dfg.graph.node v.node).maxThreadCount →
      Effect dfg s (.worker w results)
        { s.goto w (dfg.beginDequeue v 0) with
          threadCount := Function.update s.threadCount v.node (s.threadCount v.node + 1) }
  | refuse (w : W) (results : List (GraphData V)) (v : Visit N) :
      s.worker w = .fetchAdd v →
      ¬ s.threadCount v.node < (dfg.graph.node v.node).maxThreadCount →
      Effect dfg s (.worker w results)
        { s.goto w (.decrement v) with
          threadCount := Function.update s.threadCount v.node (s.threadCount v.node + 1) }
  | leave (w : W) (results : List (GraphData V)) (v : Visit N) :
      s.worker w = .decrement v →
      Effect dfg s (.worker w results)
        { s.goto w (dfg.next (dfg.group w) v) with
          threadCount := Function.update s.threadCount v.node (s.threadCount v.node - 1) }
  | pop (w : W) (results : List (GraphData V)) (v : Visit N) (i : ℕ) (type : TypeId)
      (types : List TypeId) (data : GraphData V) (rest : List (GraphData V)) :
      s.worker w = .dequeue v i (type :: types) → s.queue (v.node, type) = data :: rest →
      Effect dfg s (.worker w results)
        { s.goto w (.fetched v i data) with
          queue := Function.update s.queue (v.node, type) rest }
  | exec (w : W) (results : List (GraphData V)) (v : Visit N) (i : ℕ) (data : GraphData V) :
      s.worker w = .fetched v i data →
      Effect dfg s (.worker w results)
        { s.goto w (.exec v i data (.run results)) with
          executed := s.executed ++ [(v.node, data)] }
  | sink (w : W) (results : List (GraphData V)) (v : Visit N) (i : ℕ)
      (data result : GraphData V) (todo : List (GraphData V)) (k : ℕ) :
      s.worker w = .exec v i data (.run (result :: todo)) → result.data ≠ none →
      dfg.graph.sinkOf v.node result.type = some k →
      Effect dfg s (.worker w results)
        { s.goto w (.exec v i data (.notify result todo)) with
          resultQueue := Function.update s.resultQueue k (s.resultQueue k ++ [result])
          sunk := Function.update s.sunk k (s.sunk k ++ [result]) }
  | notify (w : W) (results : List (GraphData V)) (v : Visit N) (i : ℕ)
      (data result : GraphData V) (todo : List (GraphData V)) :
      s.worker w = .exec v i data (.notify result todo) →
      Effect dfg s (.worker w results)
        { s.goto w (.exec v i data (dfg.graph.afterSink v.node result todo)) with
          client := fun c => if s.client c = .blocked then .relock else s.client c }
  | push (w : W) (results : List (GraphData V)) (v : Visit N) (i : ℕ)
      (data result : GraphData V) (q : NodeQueue N) (queues : List (NodeQueue N))
      (nodes : List N) (todo : List (GraphData V)) :
      s.worker w = .exec v i data (.push result (q :: queues) nodes todo) →
      Effect dfg s (.worker w results)
        ((s.push q result).goto w (.exec v i data (.push result queues nodes todo)))
  | release (w : W) (results : List (GraphData V)) (v : Visit N) (i : ℕ)
      (data : GraphData V) (n : N) (nodes : List N) (todo : List (GraphData V)) :
      s.worker w = .exec v i data (.release (n :: nodes) todo) →
      Effect dfg s (.worker w results)
        ((s.release dfg n).goto w (.exec v i data (.release nodes todo)))
  | receive (c : C) (data : GraphData V) : s.client c = .idle →
      Effect dfg s (.pushData c data)
        { s.clientGoto c (pushNext data ((dfg.graph.inputs data.type).getD [])) with
          received := s.received ++ [data] }
  | enqueue (c : C) (data : GraphData V) (n : N) (rest : List N) :
      s.client c = .enqueue data n rest →
      Effect dfg s (.client c)
        ((s.push (n, data.type) data).clientGoto c (.release data n rest))
  | clientRelease (c : C) (data : GraphData V) (n : N) (rest : List N) :
      s.client c = .release data n rest →
      Effect dfg s (.client c) ((s.release dfg n).clientGoto c (pushNext data rest))
  | take (c : C) (result : GraphData V) (rest : List (GraphData V)) :
      s.client c = .waitTest → s.resultQueue dfg.graph.id = result :: rest →
      Effect dfg s (.client c)
        { s.clientGoto c (.waitReturn result) with
          resultQueue := Function.update s.resultQueue dfg.graph.id rest }
  | termStore (c : C) (w : W) (rest : List W) (g : G) (groups : List G) :
      s.client c = .termStore (w :: rest) g groups →
      Effect dfg s (.client c)
        { s.clientGoto c (.termStore rest g groups) with
          canTerminate := Function.update s.canTerminate w true }
  | termRelease (c : C) (g : G) (groups : List G) : s.client c = .termRelease g groups →
      Effect dfg s (.client c)
        { s.clientGoto c (.termJoin (dfg.workers g) groups) with
          sem := Function.update s.sem g (s.sem g + (dfg.workers g).length) }
  | client (c : C) (a : Action W C V) (pc : ClientPc G N W V) (m : Option C) :
      ClientMove dfg s c a pc m → Effect dfg s a { s.clientGoto c pc with mutex := m }

variable {dfg : Runner G N W} {s s' : State G N W C V}

/-- The execution of a node, up to its return. -/
theorem effect_execStep {w : W} (results : List (GraphData V)) {v : Visit N} {i : ℕ}
    {data : GraphData V} {e : ExecPc N V} (hpc : s.worker w = .exec v i data e) :
    Effect dfg s (.worker w results) (s.execStep dfg w v i data e) := by
  cases e with
  | run todo =>
    cases todo with
    | nil => exact .move w results _ (by rw [hpc]; exact .returned v i data)
    | cons result todo =>
      obtain ⟨ptr, type⟩ := result
      cases ptr with
      | none => exact .move w results _ (by rw [hpc]; exact .null v i data _ todo rfl)
      | some x =>
        rw [State.execStep]
        split
        · next k hk => exact .sink w results v i data _ todo k hpc (by simp) hk
        · next hk =>
          exact .move w results _ (by rw [hpc]; exact .unsunk v i data _ todo (by simp) hk)
        · simp
  | notify result todo => exact .notify w results v i data result todo hpc
  | push result queues nodes todo =>
    cases queues with
    | nil => exact .move w results _ (by rw [hpc]; exact .pushed v i data result nodes todo)
    | cons q queues => exact .push w results v i data result q queues nodes todo hpc
  | release nodes todo =>
    cases nodes with
    | nil => exact .move w results _ (by rw [hpc]; exact .released v i data todo)
    | cons n nodes => exact .release w results v i data n nodes todo hpc

theorem effect_workerStep {w : W} {results : List (GraphData V)}
    (h : s.workerStep dfg w results = some s') : Effect dfg s (.worker w results) s' := by
  unfold State.workerStep at h
  split at h
  · next hpc =>
    split at h
    · next hsem =>
      obtain rfl := Option.some.inj h
      exact .acquire w results hpc hsem
    · cases h
  · next hpc =>
    obtain rfl := Option.some.inj h
    refine .move w results _ ?_
    rw [hpc]
    split
    · next hterm => exact .terminate hterm
    · next hterm => exact .start hterm
  · next v hpc =>
    obtain rfl := Option.some.inj h
    refine .move w results _ ?_
    rw [hpc]
    split
    · next hlt => exact .below v hlt
    · next hge => exact .skip v hge
  · next v hpc =>
    obtain rfl := Option.some.inj h
    split
    · next hlt => exact .enter w results v hpc hlt
    · next hge => exact .refuse w results v hpc hge
  · next v i type types hpc =>
    split at h
    · next data rest hq =>
      obtain rfl := Option.some.inj h
      exact .pop w results v i type types data rest hpc hq
    · next hq =>
      obtain rfl := Option.some.inj h
      exact .move w results _ (by rw [hpc]; exact .miss v i type types hq)
  · next v i hpc =>
    obtain rfl := Option.some.inj h
    exact .move w results _ (by rw [hpc]; exact .drained v i)
  · next v i data hpc =>
    obtain rfl := Option.some.inj h
    exact .exec w results v i data hpc
  · next v i data e hpc =>
    obtain rfl := Option.some.inj h
    exact effect_execStep results hpc
  · next v hpc =>
    obtain rfl := Option.some.inj h
    exact .leave w results v hpc
  · cases h
  · cases h

theorem effect_clientStep {c : C} (h : s.clientStep dfg c = some s') :
    Effect dfg s (.client c) s' := by
  unfold State.clientStep at h
  split at h
  · cases h
  · cases h
  · next data n rest hpc =>
    obtain rfl := Option.some.inj h
    exact .enqueue c data n rest hpc
  · next data n rest hpc =>
    obtain rfl := Option.some.inj h
    exact .clientRelease c data n rest hpc
  · next hpc =>
    split at h
    · cases h
    · next hm =>
      obtain rfl := Option.some.inj h
      exact .client c _ _ _ (.lock (Or.inl hpc) hm)
  · next hpc =>
    split at h
    · cases h
    · next hm =>
      obtain rfl := Option.some.inj h
      exact .client c _ _ _ (.lock (Or.inr hpc) hm)
  · next hpc =>
    split at h
    · next result rest hq =>
      obtain rfl := Option.some.inj h
      exact .take c result rest hpc hq
    · next hq =>
      obtain rfl := Option.some.inj h
      exact .client c _ _ _ (.empty hpc hq)
  · next hpc =>
    obtain rfl := Option.some.inj h
    exact .client c _ _ _ (.block hpc)
  · next result hpc =>
    obtain rfl := Option.some.inj h
    exact .client c _ _ _ (.unlock result hpc)
  · next w rest g groups hpc =>
    obtain rfl := Option.some.inj h
    exact .termStore c w rest g groups hpc
  · next g groups hpc =>
    obtain rfl := Option.some.inj h
    exact .client c _ _ _ (.stored g groups hpc)
  · next g groups hpc =>
    obtain rfl := Option.some.inj h
    exact .termRelease c g groups hpc
  · next w rest groups hpc =>
    split at h
    · next hexited =>
      obtain rfl := Option.some.inj h
      exact .client c _ _ _ (.join w rest groups hpc hexited)
    · cases h
  · next groups hpc =>
    obtain rfl := Option.some.inj h
    exact .client c _ _ _ (.joined groups hpc)

/-- **Every step is one of the listed ones.** -/
theorem effect_of_step {a : Action W C V} (h : step dfg s a = some s') : Effect dfg s a s' := by
  cases a with
  | worker w results => exact effect_workerStep h
  | client c => exact effect_clientStep h
  | pushData c data =>
    rw [step] at h
    split at h
    · next hidle =>
      obtain rfl := Option.some.inj h
      exact .receive c data hidle
    · cases h
  | waitResult c =>
    rw [step] at h
    split at h
    · next hidle =>
      obtain rfl := Option.some.inj h
      exact .client c _ _ _ (.call hidle)
    · cases h
  | term c =>
    rw [step] at h
    split at h
    · next hidle =>
      obtain rfl := Option.some.inj h
      exact .client c _ _ _ (.term hidle)
    · cases h
  | wake c =>
    rw [step] at h
    split at h
    · next hblocked =>
      obtain rfl := Option.some.inj h
      exact .client c _ _ _ (.wake hblocked)
    · cases h

end Dfg
end ThreadUtils
