import ThreadUtils.Dfg.StateOrder

/-!
# Stranded data

A permit does not belong to a datum: it wakes a worker, which passes over all nodes of its
group.  What keeps a datum from being stranded is that somebody is in charge of its queue
(`Covered`): a permit that nobody has taken, a push that will still release one, or a worker
that will still pop from the queue.

## The window

A worker that skips a node because `thread_count` is at the limit gives this up.  It relies
on the workers inside the node, but `thread_count` counts a worker up to its decrement,
which comes after its last pop: a worker that has just found the queue empty counts, and
blocks without looking again when its pass has processed nothing.  When the datum and its
permit come between that pop and that decrement, a second worker takes the permit, skips the
node and blocks, and the datum stays (`strandedDatum`).  The comment in
`worker_process_queues` says that a worker starts over `unless all the queues are empty`.

## The watch of a worker

Which queues a worker is in charge of depends on where it is in its pass.  It pops from the nodes
that come behind its node in the list of the group, and from the node itself if it has not tried
this queue yet; and it makes another pass, over all nodes, once it has processed something.  This is
`Runner.watches`.  A worker that executes a node watches everything, since its pass has processed
something by then.  A local move of a worker gives up a queue only by finding it empty, or by
skipping its node (`LocalMove.watches`).

So a step can end the charge of a queue that is not empty in one way only, and `KeepsWatch` excludes
this one: no worker skips a node whose queue nobody else is in charge of, unless it comes back to
the node itself.  The condition is on the state before the step.  To ask for less, for instance that
somebody is inside the node, is what the code does, and it is not enough.

* `Effect.watched` --- every other step keeps the queues covered.
* `not_stranded_of_keepsWatch` --- no datum is stranded in a run that keeps watch.
* `exists_stranded` --- a run that does not, and a datum that stays.
-/

namespace ThreadUtils
namespace Dfg

variable {G N W C V : Type*}

/-! ## Who is in charge of a queue -/

/-- The worker comes to the node `n` after the node of its visit: in the same pass, or in the
next one, which it makes when the pass has processed something. -/
def Runner.ahead (dfg : Runner G N W) (g : G) (n : N) (v : Visit N) : Prop :=
  v.processCount ≠ 0 ∨ n ∈ (dfg.nodes g).drop (v.nodeIdx + 1)

/-- The worker of the group `g` will try to pop from a queue of the node `n`, unless it finds
the node at its limit, before it blocks. -/
def Runner.watches (dfg : Runner G N W) (g : G) (n : N) (type : TypeId) :
    WorkerPc N V → Prop
  | .acquire | .exited | .abort => False
  | .checkTerminate | .fetched _ _ _ | .exec _ _ _ _ => True
  | .load v | .fetchAdd v => v.node = n ∨ dfg.ahead g n v
  | .dequeue v _ types => (v.node = n ∧ type ∈ types) ∨ dfg.ahead g n v
  | .decrement v => dfg.ahead g n v

/-- A node that `tu_result` has pushed to is still to be notified, and is in the group. -/
def Runner.due (dfg : Runner G N W) (g : G) : WorkerPc N V → Prop
  | .exec _ _ _ (.push _ _ nodes _) | .exec _ _ _ (.release nodes _) =>
      ∃ n ∈ nodes, (dfg.graph.node n).group = g
  | _ => False

/-- The same for `tu_internal_node_enqueue`. -/
def Runner.clientDue (dfg : Runner G N W) (g : G) : ClientPc G N W V → Prop
  | .release _ n _ => (dfg.graph.node n).group = g
  | _ => False

/-- Somebody is in charge of a queue: a permit, a push, or a worker that satisfies `P`. -/
def Covered (dfg : Runner G N W) (s : State G N W C V) (g : G) (n : N) (type : TypeId)
    (P : W → Prop) : Prop :=
  0 < s.sem g ∨ (∃ w, P w ∧ dfg.group w = g ∧ dfg.watches g n type (s.worker w)) ∨
    (∃ w, dfg.due g (s.worker w)) ∨ ∃ c, dfg.clientDue g (s.client c)

/-! ## The property and its condition -/

/-- A datum is in a queue, and no thread is left that would pop it. -/
structure Stranded (dfg : Runner G N W) (s : State G N W C V) (g : G) (n : N) (type : TypeId) :
    Prop where
  mem : n ∈ dfg.nodes g
  input : type ∈ (dfg.graph.node n).inputs
  acquire : ∀ w, dfg.group w = g → s.worker w = .acquire
  sem : s.sem g = 0
  worker : ∀ w, ¬ dfg.due g (s.worker w)
  client : ∀ c, ¬ dfg.clientDue g (s.client c)
  queue : s.queue (n, type) ≠ []

/-- `tu_dfg_term` is not called. -/
def BeforeTerm (_ : State G N W C V) : Action W C V → Prop
  | .term _ => False
  | _ => True

/-- The visit of a worker whose next access decides whether it skips the node. -/
def WorkerPc.deciding : WorkerPc N V → Option (Visit N)
  | .load v | .fetchAdd v => some v
  | _ => none

/-- The worker skips a node with a datum in a queue only if it comes back to the node, or if
somebody else is in charge of the queue.  Nobody calls `tu_dfg_term`. -/
def KeepsWatch (dfg : Runner G N W) (s : State G N W C V) : Action W C V → Prop
  | .worker w _ => ∀ v ∈ (s.worker w).deciding,
      ¬ s.threadCount v.node < (dfg.graph.node v.node).maxThreadCount →
      ∀ type ∈ (dfg.graph.node v.node).inputs, s.queue (v.node, type) ≠ [] →
        dfg.ahead (dfg.group w) v.node v ∨
          Covered dfg s (dfg.group w) v.node type fun w' => w' ≠ w
  | .term _ => False
  | _ => True

section Decidable

variable [DecidableEq G] [DecidableEq N]

instance (dfg : Runner G N W) (g : G) (n : N) (v : Visit N) : Decidable (dfg.ahead g n v) :=
  inferInstanceAs (Decidable (_ ∨ _))

instance (dfg : Runner G N W) (g : G) (n : N) (type : TypeId) (pc : WorkerPc N V) :
    Decidable (dfg.watches g n type pc) :=
  match pc with
  | .acquire | .exited | .abort => inferInstanceAs (Decidable False)
  | .checkTerminate | .fetched _ _ _ | .exec _ _ _ _ => inferInstanceAs (Decidable True)
  | .load v | .fetchAdd v => inferInstanceAs (Decidable (v.node = n ∨ dfg.ahead g n v))
  | .dequeue v _ types =>
      inferInstanceAs (Decidable ((v.node = n ∧ type ∈ types) ∨ dfg.ahead g n v))
  | .decrement v => inferInstanceAs (Decidable (dfg.ahead g n v))

instance (dfg : Runner G N W) (g : G) (pc : WorkerPc N V) : Decidable (dfg.due g pc) :=
  match pc with
  | .exec _ _ _ (.push _ _ nodes _) | .exec _ _ _ (.release nodes _) =>
      inferInstanceAs (Decidable (∃ n ∈ nodes, (dfg.graph.node n).group = g))
  | .exec _ _ _ (.run _) | .exec _ _ _ (.notify _ _) | .acquire | .checkTerminate | .load _
  | .fetchAdd _ | .dequeue _ _ _ | .fetched _ _ _ | .decrement _ | .exited | .abort =>
      inferInstanceAs (Decidable False)

instance (dfg : Runner G N W) (g : G) (pc : ClientPc G N W V) : Decidable (dfg.clientDue g pc) :=
  match pc with
  | .release _ n _ => inferInstanceAs (Decidable ((dfg.graph.node n).group = g))
  | .idle | .enqueue _ _ _ | .waitLock | .waitTest | .waitBlock | .blocked | .relock
  | .waitReturn _ | .termStore _ _ _ | .termRelease _ _ | .termJoin _ _ =>
      inferInstanceAs (Decidable False)

instance (s : State G N W C V) (a : Action W C V) : Decidable (BeforeTerm s a) :=
  match a with
  | .term _ => inferInstanceAs (Decidable False)
  | .worker _ _ | .pushData _ _ | .waitResult _ | .client _ | .wake _ =>
      inferInstanceAs (Decidable True)

variable [Fintype W] [Fintype C] [DecidableEq W] [DecidableEq V]

instance (dfg : Runner G N W) (s : State G N W C V) (g : G) (n : N) (type : TypeId)
    (P : W → Prop) [DecidablePred P] : Decidable (Covered dfg s g n type P) :=
  inferInstanceAs (Decidable (_ ∨ _))

instance (dfg : Runner G N W) (s : State G N W C V) (a : Action W C V) :
    Decidable (KeepsWatch dfg s a) :=
  match a with
  | .worker w _ => inferInstanceAs (Decidable (∀ v ∈ (s.worker w).deciding, _))
  | .term _ => inferInstanceAs (Decidable False)
  | .pushData _ _ | .waitResult _ | .client _ | .wake _ => inferInstanceAs (Decidable True)

end Decidable

/-! ## The passes of a worker -/

section Passes

variable {dfg : Runner G N W} {g : G} {n : N}

theorem watches_enter (type : TypeId) {k : ℕ} (p : ℕ) (h : n ∈ (dfg.nodes g).drop k) :
    dfg.watches g n type (dfg.enter g k p : WorkerPc N V) := by
  have hlt : k < (dfg.nodes g).length := by
    by_contra hge
    rw [List.drop_eq_nil_of_le (Nat.le_of_not_lt hge)] at h
    cases h
  rw [Runner.enter, List.getElem?_eq_getElem hlt]
  rw [List.drop_eq_getElem_cons hlt] at h
  rcases List.mem_cons.mp h with heq | hmem
  · exact Or.inl heq.symm
  · exact Or.inr (Or.inr hmem)

/-- A worker that comes to the node later does so after every other node. -/
theorem watches_next (type : TypeId) {v : Visit N} (hn : n ∈ dfg.nodes g)
    (h : dfg.ahead g n v) : dfg.watches g n type (dfg.next g v : WorkerPc N V) := by
  unfold Runner.next
  split
  · next hend =>
    have hne : v.processCount ≠ 0 := by
      rcases h with hne | hmem
      · exact hne
      · rw [List.drop_eq_nil_of_le hend] at hmem
        cases hmem
    rw [if_neg hne]
    exact watches_enter type 0 hn
  · next hlt =>
    rcases h with hne | hmem
    · rw [Runner.enter, List.getElem?_eq_getElem (Nat.lt_of_not_le hlt)]
      exact Or.inr (Or.inl hne)
    · exact watches_enter type _ hmem

/-- After an execution the worker makes another pass. -/
theorem watches_afterExec (type : TypeId) (v : Visit N) (i : ℕ) :
    dfg.watches g n type (dfg.afterExec g v i : WorkerPc N V) := by
  have hne : v.processCount + 1 ≠ 0 := Nat.succ_ne_zero _
  unfold Runner.afterExec
  split
  · exact Or.inr (Or.inl hne)
  · split
    · exact Or.inr (Or.inl hne)
    · exact Or.inl hne

end Passes

/-! ## The steps -/

variable {dfg : Runner G N W} {s s' : State G N W C V} {g : G} {n : N} {type : TypeId}

/-- A local move keeps the watch over a queue that is not empty, unless it skips the node. -/
theorem LocalMove.watches {w : W} {pc pc' : WorkerPc N V} (h : LocalMove dfg s w pc pc')
    (hn : n ∈ dfg.nodes (dfg.group w)) (hterm : s.canTerminate w = false)
    (hqueue : s.queue (n, type) ≠ [])
    (hskip : ∀ v ∈ pc.deciding, ¬ s.threadCount v.node <
      (dfg.graph.node v.node).maxThreadCount → v.node = n → dfg.ahead (dfg.group w) n v)
    (hpc : dfg.watches (dfg.group w) n type pc) : dfg.watches (dfg.group w) n type pc' := by
  cases h with
  | terminate h =>
    rw [hterm] at h
    cases h
  | start h => exact watches_enter type 0 hn
  | below v hlt => exact hpc
  | skip v hge =>
    refine watches_next type hn ?_
    rcases hpc with hv | hahead
    · exact hskip v rfl hge hv
    · exact hahead
  | miss v i t types hq =>
    rcases hpc with ⟨hv, hmem⟩ | hahead
    · rcases List.mem_cons.mp hmem with rfl | hmem
      · subst hv
        exact absurd hq hqueue
      · exact Or.inl ⟨hv, hmem⟩
    · exact Or.inr hahead
  | drained v i =>
    rcases hpc with ⟨-, hmem⟩ | hahead
    · cases hmem
    · exact hahead
  | returned v i data => exact watches_afterExec type v i
  | null v i data result todo hnull => trivial
  | unsunk v i data result todo hne hk => trivial
  | pushed v i data result nodes todo => trivial
  | released v i data todo => trivial

theorem LocalMove.due {w : W} {pc pc' : WorkerPc N V} (h : LocalMove dfg s w pc pc')
    (hpc : dfg.due g pc) : dfg.due g pc' := by
  cases h with
  | pushed v i data result nodes todo => exact hpc
  | released v i data todo =>
    obtain ⟨m, hm, -⟩ := hpc
    cases hm
  | _ => exact hpc.elim

/-- What is left of the charge after a step of a worker. -/
theorem Covered.goto [DecidableEq W] {P : W → Prop} (hC : Covered dfg s g n type P) {w : W}
    {pc : WorkerPc N V} (hw : s'.worker = Function.update s.worker w pc)
    (hsem : 0 < s.sem g → 0 < s'.sem g)
    (hclient : ∀ c, dfg.clientDue g (s.client c) → dfg.clientDue g (s'.client c))
    (hwatch : P w → dfg.group w = g → dfg.watches g n type (s.worker w) →
      dfg.watches g n type pc)
    (hdue : dfg.due g (s.worker w) → dfg.due g pc) :
    Covered dfg s' g n type fun _ => True := by
  rcases hC with h | ⟨w', hP, hgroup, hw'⟩ | ⟨w', hw'⟩ | ⟨c, hc⟩
  · exact Or.inl (hsem h)
  · refine Or.inr (Or.inl ⟨w', trivial, hgroup, ?_⟩)
    rw [hw]
    by_cases h : w' = w
    · subst h
      rw [Function.update_self]
      exact hwatch hP hgroup hw'
    · rw [Function.update_of_ne h]
      exact hw'
  · refine Or.inr (Or.inr (Or.inl ⟨w', ?_⟩))
    rw [hw]
    by_cases h : w' = w
    · subst h
      rw [Function.update_self]
      exact hdue hw'
    · rw [Function.update_of_ne h]
      exact hw'
  · exact Or.inr (Or.inr (Or.inr ⟨c, hclient c hc⟩))

/-- What is left of the charge after a step of a client. -/
theorem Covered.client [DecidableEq C] {P : W → Prop} (hC : Covered dfg s g n type P) {c : C}
    {pc : ClientPc G N W V} (hc : s'.client = Function.update s.client c pc)
    (hw : s'.worker = s.worker) (hsem : s.sem g ≤ s'.sem g)
    (hdue : dfg.clientDue g (s.client c) → 0 < s'.sem g) : Covered dfg s' g n type P := by
  rcases hC with h | hwatch | hworker | ⟨c', hc'⟩
  · exact Or.inl (Nat.lt_of_lt_of_le h hsem)
  · exact Or.inr (Or.inl (by rw [hw]; exact hwatch))
  · exact Or.inr (Or.inr (Or.inl (by rw [hw]; exact hworker)))
  · by_cases h : c' = c
    · subst h
      exact Or.inl (hdue hc')
    · refine Or.inr (Or.inr (Or.inr ⟨c', ?_⟩))
      rw [hc, Function.update_of_ne h]
      exact hc'

/-- A worker that may skip the node goes on.  If it gives up the queue, somebody else is in
charge of it. -/
theorem Covered.decide [DecidableEq W] (hC : Covered dfg s g n type fun _ => True) {w : W}
    {results : List (GraphData V)} {pc : WorkerPc N V}
    (hok : KeepsWatch dfg s (.worker w results : Action W C V))
    (htype : type ∈ (dfg.graph.node n).inputs) (hqueue : s.queue (n, type) ≠ [])
    (hw : s'.worker = Function.update s.worker w pc) (hsem : s'.sem = s.sem)
    (hclient : s'.client = s.client)
    (hwatch : (∀ v ∈ (s.worker w).deciding, ¬ s.threadCount v.node <
        (dfg.graph.node v.node).maxThreadCount → v.node = n → dfg.ahead g n v) →
      dfg.group w = g → dfg.watches g n type (s.worker w) → dfg.watches g n type pc)
    (hdue : dfg.due g (s.worker w) → dfg.due g pc) :
    Covered dfg s' g n type fun _ => True := by
  have hsem' : 0 < s.sem g → 0 < s'.sem g := by
    rw [hsem]
    exact id
  have hclient' : ∀ c, dfg.clientDue g (s.client c) → dfg.clientDue g (s'.client c) := by
    rw [hclient]
    exact fun _ => id
  by_cases hback : ∀ v ∈ (s.worker w).deciding, ¬ s.threadCount v.node <
      (dfg.graph.node v.node).maxThreadCount → v.node = n → dfg.ahead g n v
  · exact hC.goto hw hsem' hclient' (fun _ => hwatch hback) hdue
  · by_cases hgroup : dfg.group w = g
    · push Not at hback
      obtain ⟨v, hv, hge, rfl, hnot⟩ := hback
      subst hgroup
      rcases hok v hv (not_lt.mpr hge) type htype hqueue with hahead | hothers
      · exact absurd hahead hnot
      · exact hothers.goto hw hsem' hclient' (fun hP => absurd rfl hP) hdue
    · exact hC.goto hw hsem' hclient' (fun _ h => absurd h hgroup) hdue

/-- The client is inside `tu_dfg_term`. -/
def ClientPc.inTerm : ClientPc G N W V → Prop
  | .termStore _ _ _ | .termRelease _ _ | .termJoin _ _ => True
  | _ => False

/-- Nobody shuts the runner down. -/
structure Running (s : State G N W C V) : Prop where
  canTerminate : ∀ w, s.canTerminate w = false
  client : ∀ c, ¬ (s.client c).inTerm

/-- Somebody is in charge of every queue of a registered node that is not empty. -/
def Watched (dfg : Runner G N W) (s : State G N W C V) : Prop :=
  ∀ g, ∀ n ∈ dfg.nodes g, ∀ type ∈ (dfg.graph.node n).inputs, s.queue (n, type) ≠ [] →
    Covered dfg s g n type fun _ => True

theorem not_inTerm_pushNext (data : GraphData V) (rest : List N) :
    ¬ (pushNext data rest : ClientPc G N W V).inTerm := by
  cases rest <;> exact id

/-- A client on its way to the mutex or to the condition variable is not due. -/
theorem ClientMove.not_due {c : C} {a : Action W C V} {pc : ClientPc G N W V} {m : Option C}
    (h : ClientMove dfg s c a pc m) : ¬ dfg.clientDue g (s.client c) := by
  cases h with
  | lock hc hm => rcases hc with hc | hc <;> rw [hc] <;> exact id
  | call hc | wake hc | empty hc hq | block hc | unlock result hc | term hc | stored g' groups hc
  | join w rest groups hc hw | joined groups hc =>
    rw [hc]
    exact id

theorem Running.goto [DecidableEq C] (hR : Running s) {c : C} {pc : ClientPc G N W V}
    (hterm : s'.canTerminate = s.canTerminate)
    (hc : s'.client = Function.update s.client c pc) (hpc : ¬ pc.inTerm) : Running s' := by
  refine ⟨by rw [hterm]; exact hR.canTerminate, ?_⟩
  rw [hc]
  exact forall_update (P := fun _ pc => ¬ ClientPc.inTerm pc) hR.client hpc

theorem KeepsWatch.beforeTerm {a : Action W C V} (h : KeepsWatch dfg s a) : BeforeTerm s a := by
  cases a with
  | term c => exact h
  | _ => trivial

section Effects

variable [DecidableEq G] [DecidableEq N] [DecidableEq W] [DecidableEq C] [DecidableEq V]

theorem Effect.running {a : Action W C V} (h : Effect dfg s a s') (hok : BeforeTerm s a)
    (hR : Running s) : Running s' := by
  cases h with
  | notify w results v i data result todo hpc =>
    refine ⟨hR.canTerminate, fun c hc => ?_⟩
    change (if s.client c = .blocked then .relock else s.client c : ClientPc G N W V).inTerm at hc
    split at hc
    · exact hc
    · exact hR.client c hc
  | receive c data hpc => exact hR.goto rfl rfl (not_inTerm_pushNext data _)
  | enqueue c data n rest hpc => exact hR.goto rfl rfl id
  | clientRelease c data n rest hpc => exact hR.goto rfl rfl (not_inTerm_pushNext data rest)
  | take c result rest hpc hq => exact hR.goto rfl rfl id
  | termStore c w rest g groups hpc => exact absurd (by rw [hpc]; trivial) (hR.client c)
  | termRelease c g groups hpc => exact absurd (by rw [hpc]; trivial) (hR.client c)
  | client c a pc m hmove =>
    refine hR.goto (c := c) rfl rfl ?_
    cases hmove with
    | term hc => exact hok.elim
    | stored g groups hc => exact absurd (by rw [hc]; trivial) (hR.client c)
    | join w rest groups hc hw => exact absurd (by rw [hc]; trivial) (hR.client c)
    | joined groups hc => exact absurd (by rw [hc]; trivial) (hR.client c)
    | _ => exact id
  | _ => exact ⟨hR.canTerminate, hR.client⟩

/-- **Every step keeps the queues covered**, but for a skip that leaves nobody in charge. -/
theorem Effect.watched {a : Action W C V} (h : Effect dfg s a s') (hok : KeepsWatch dfg s a)
    (hR : Running s) (hT : Typed dfg.graph s) (hW : Watched dfg s) : Watched dfg s' := by
  intro g n hn type htype hne
  cases h with
  | move w results pc hmove =>
    refine (hW g n hn type htype hne).decide hok htype hne rfl rfl rfl ?_ hmove.due
    rintro hback rfl
    exact hmove.watches hn (hR.canTerminate w) hne hback
  | acquire w results hpc hsem =>
    have hC := hW g n hn type htype hne
    by_cases hgroup : dfg.group w = g
    · refine Or.inr (Or.inl ⟨w, trivial, hgroup, ?_⟩)
      show dfg.watches g n type (Function.update s.worker w .checkTerminate w)
      rw [Function.update_self]
      trivial
    · refine hC.goto rfl (fun hpos => ?_) (fun _ => id) (fun _ h => absurd h hgroup)
        fun h => by rw [hpc] at h; exact h.elim
      show 0 < Function.update s.sem (dfg.group w) _ g
      rw [Function.update_of_ne fun h => hgroup h.symm]
      exact hpos
  | enter w results v hpc hlt =>
    refine (hW g n hn type htype hne).goto rfl id (fun _ => id) (fun _ _ hw => ?_)
      fun h => by rw [hpc] at h; exact h.elim
    rw [hpc] at hw
    rcases hw with rfl | hahead
    · exact Or.inl ⟨rfl, htype⟩
    · exact Or.inr hahead
  | refuse w results v hpc hge =>
    refine (hW g n hn type htype hne).decide hok htype hne rfl rfl rfl (fun hback _ hw => ?_)
      fun h => by rw [hpc] at h; exact h.elim
    rw [hpc] at hw hback
    rcases hw with hv | hahead
    · exact hback v rfl hge hv
    · exact hahead
  | leave w results v hpc =>
    refine (hW g n hn type htype hne).goto rfl id (fun _ => id) ?_
      fun h => by rw [hpc] at h; exact h.elim
    rintro - rfl hw
    rw [hpc] at hw
    exact watches_next type hn hw
  | pop w results v i t types data rest hpc hq =>
    have hold : s.queue (n, type) ≠ [] := by
      by_cases h : (n, type) = (v.node, t)
      · rw [h, hq]
        exact List.cons_ne_nil _ _
      · change Function.update s.queue (v.node, t) rest (n, type) ≠ [] at hne
        rwa [Function.update_of_ne h] at hne
    exact (hW g n hn type htype hold).goto rfl id (fun _ => id) (fun _ _ _ => trivial)
      fun h => by rw [hpc] at h; exact h.elim
  | exec w results v i data hpc =>
    exact (hW g n hn type htype hne).goto rfl id (fun _ => id) (fun _ _ _ => trivial)
      fun h => by rw [hpc] at h; exact h.elim
  | sink w results v i data result todo k hpc hnull hk =>
    exact (hW g n hn type htype hne).goto rfl id (fun _ => id) (fun _ _ _ => trivial)
      fun h => by rw [hpc] at h; exact h.elim
  | notify w results v i data result todo hpc =>
    refine (hW g n hn type htype hne).goto rfl id (fun c hc => ?_) (fun _ _ _ => trivial)
      fun h => by rw [hpc] at h; exact h.elim
    show dfg.clientDue g (if s.client c = .blocked then .relock else s.client c)
    split
    · next hblocked =>
      rw [hblocked] at hc
      exact hc.elim
    · exact hc
  | push w results v i data result q queues nodes todo hpc =>
    by_cases h : (n, type) = q
    · -- the node of the queue is still to be notified
      have hmem : n ∈ nodes := by
        have htyped := hT.worker w
        rw [hpc] at htyped
        have hq := (htyped q List.mem_cons_self).2.2
        rwa [← h] at hq
      refine Or.inr (Or.inr (Or.inl ⟨w, ?_⟩))
      show dfg.due g (Function.update s.worker w _ w)
      rw [Function.update_self]
      exact ⟨n, hmem, dfg.group_of_mem g n hn⟩
    · have hold : s.queue (n, type) ≠ [] := by
        change Function.update s.queue q (s.queue q ++ [result]) (n, type) ≠ [] at hne
        rwa [Function.update_of_ne h] at hne
      exact (hW g n hn type htype hold).goto rfl id (fun _ => id) (fun _ _ _ => trivial)
        fun h => by rw [hpc] at h; exact h
  | release w results v i data m nodes todo hpc =>
    have hC := hW g n hn type htype hne
    by_cases hgroup : (dfg.graph.node m).group = g
    · refine Or.inl ?_
      show 0 < Function.update s.sem (dfg.graph.node m).group _ g
      rw [hgroup, Function.update_self]
      exact Nat.succ_pos _
    · refine hC.goto rfl (fun hpos => ?_) (fun _ => id) (fun _ _ _ => trivial) fun h => ?_
      · show 0 < Function.update s.sem (dfg.graph.node m).group _ g
        rw [Function.update_of_ne fun h => hgroup h.symm]
        exact hpos
      · rw [hpc] at h
        obtain ⟨m', hm', hg⟩ := h
        rcases List.mem_cons.mp hm' with rfl | hm'
        · exact absurd hg hgroup
        · exact ⟨m', hm', hg⟩
  | receive c data hpc =>
    exact (hW g n hn type htype hne).client rfl rfl le_rfl
      fun h => by rw [hpc] at h; exact h.elim
  | enqueue c data m rest hpc =>
    by_cases h : (n, type) = (m, data.type)
    · refine Or.inr (Or.inr (Or.inr ⟨c, ?_⟩))
      show dfg.clientDue g (Function.update s.client c _ c)
      obtain ⟨rfl, -⟩ := Prod.ext_iff.mp h
      rw [Function.update_self]
      exact dfg.group_of_mem g _ hn
    · have hold : s.queue (n, type) ≠ [] := by
        change Function.update s.queue (m, data.type) _ (n, type) ≠ [] at hne
        rwa [Function.update_of_ne h] at hne
      exact (hW g n hn type htype hold).client rfl rfl le_rfl
        fun h => by rw [hpc] at h; exact h.elim
  | clientRelease c data m rest hpc =>
    refine (hW g n hn type htype hne).client rfl rfl ?_ fun h => ?_
    · exact le_update_add _ _ _ _
    · rw [hpc] at h
      show 0 < Function.update s.sem (dfg.graph.node m).group _ g
      rw [show (dfg.graph.node m).group = g from h, Function.update_self]
      exact Nat.succ_pos _
  | take c result rest hpc hq =>
    exact (hW g n hn type htype hne).client rfl rfl le_rfl
      fun h => by rw [hpc] at h; exact h.elim
  | termStore c w rest g' groups hpc =>
    exact (hW g n hn type htype hne).client rfl rfl le_rfl
      fun h => by rw [hpc] at h; exact h.elim
  | termRelease c g' groups hpc =>
    exact (hW g n hn type htype hne).client rfl rfl (le_update_add _ _ _ _)
      fun h => by rw [hpc] at h; exact h.elim
  | client c a pc m hmove =>
    exact (hW g n hn type htype hne).client rfl rfl le_rfl fun h => absurd h hmove.not_due

theorem watched_of_reaches (hs : (system dfg C V).Reaches (KeepsWatch dfg) s) :
    Running s ∧ Watched dfg s := by
  refine hs.invariant (I := fun s => Running s ∧ Watched dfg s) ?_ ?_
  · rintro s rfl
    exact ⟨⟨fun w => rfl, fun c => id⟩, fun g n _ type _ hne => absurd rfl hne⟩
  · rintro s a s' hr ⟨hR, hW⟩ hok h
    have heffect := effect_of_step h
    exact ⟨heffect.running hok.beforeTerm hR, heffect.watched hok hR (typed_of_reaches hr) hW⟩

/-- **No datum is stranded while no worker gives up a queue that nobody else is in charge
of**, for any graph, groups, workers, clients and results. -/
theorem not_stranded_of_keepsWatch (dfg : Runner G N W) (s : State G N W C V)
    (hs : (system dfg C V).Reaches (KeepsWatch dfg) s) (g : G) (n : N) (type : TypeId) :
    ¬ Stranded dfg s g n type := by
  intro hstranded
  obtain ⟨-, hW⟩ := watched_of_reaches hs
  rcases hW g n hstranded.mem type hstranded.input hstranded.queue with
    hsem | ⟨w, -, hgroup, hw⟩ | ⟨w, hw⟩ | ⟨c, hc⟩
  · rw [hstranded.sem] at hsem
    exact absurd hsem (Nat.lt_irrefl 0)
  · rw [hstranded.acquire w hgroup] at hw
    exact hw
  · exact hstranded.worker w hw
  · exact hstranded.client c hc

end Effects

/-! ## The window -/

/-- A worker skips the state while the other one executes, and finds the next datum. -/
def skipWhileBusy : List (Action Bool Unit ℕ) :=
  pushByClient 7 ++ List.replicate 6 (.worker false []) ++
    pushByClient 8 ++ List.replicate 3 (.worker true []) ++ List.replicate 12 (.worker false [])

theorem not_stranded_skipWhileBusy :
    let dfg := oneNode (tuState 0 [0] [1] ()) rfl rfl
    let s := (system dfg Unit ℕ).replayWithin (KeepsWatch dfg) initial skipWhileBusy
    (s.executedOf () 0 = [⟨some 7, 0⟩, ⟨some 8, 0⟩] ∧ ∀ w, s.worker w = .acquire) ∧
      ¬ Stranded dfg s () () 0 := by
  exact ⟨by decide, not_stranded_of_keepsWatch _ _
    (TransitionSystem.Reaches.replayWithin (.start rfl) skipWhileBusy (by decide)) () () 0⟩

/-- A worker skips the state after the last pop of the other one and before its decrement. -/
def strandedDatum : List (Action Bool Unit ℕ) :=
  pushByClient 7 ++ List.replicate 13 (.worker false []) ++
    pushByClient 8 ++ List.replicate 3 (.worker true []) ++ List.replicate 2 (.worker false [])

/-- **A stranded datum**: a state that is reached without `tu_dfg_term`, in which both workers
are blocked without a permit, nobody pushes, and there is a datum in the queue. -/
theorem exists_stranded :
    ∃ s, (system (oneNode (tuState 0 [0] [1] ()) rfl rfl) Unit ℕ).Reaches BeforeTerm s ∧
      Stranded (oneNode (tuState 0 [0] [1] ()) rfl rfl) s () () 0 := by
  refine ⟨(system (oneNode (tuState 0 [0] [1] ()) rfl rfl) Unit ℕ).replayWithin BeforeTerm initial
    strandedDatum, TransitionSystem.Reaches.replayWithin (.start rfl) strandedDatum (by decide), ?_⟩
  exact ⟨by decide, by decide, by decide, by decide, by decide, by decide, by decide⟩

end Dfg
end ThreadUtils
