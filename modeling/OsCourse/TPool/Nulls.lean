import OsCourse.TPool.Barrier
import OsCourse.TPool.Progress

/-! Work items without a function. `tp_submit` queues what it is given, and a worker takes
such an item for the pill of a shutdown. -/
namespace OsCourse.TPool
open Function Transition Wakeup
variable {W S D F A : Type*}

def WorkerPc.Serving : WorkerPc F A → Prop
  | .top | .blocked | .woken | .running _ => True
  | .took wi | .fetched wi => wi.func ≠ none
  | .leaving | .exited => False

/-- No worker has gone before a shutdown. -/
def State.Undisturbed (s : State W S D F A) : Prop :=
  s.pool.inShutdown = false →
    s.pool.remainingThreads = s.pool.nthreads ∧ s.pool.shutdownDone = false ∧
      ∀ w, (s.worker w).Serving

def QueuesFunc (s : State W S D F A) (l : Label W S D F A) : Prop :=
  ∀ u arg, l = .lockSubmit u → s.submitter u = .entering none arg → s.pool.inShutdown = true

def Label.ofWorkers : Label W S D F A → Bool
  | .check _ | .start _ | .comeBack _ | .terminate _ | .spuriousWorker _ => true
  | l => l.unlocks

structure Functional (s : State W S D F A) : Prop where
  queue : s.pool.inShutdown = false → ∀ wi ∈ s.pool.workQueue, wi.func ≠ none
  undisturbed : s.Undisturbed

theorem init_functional (n : Int) : Functional (init n : State W S D F A) := by
  refine ⟨?_, ?_⟩
  · intro _ wi hwi
    cases hwi
  · intro _
    exact ⟨rfl, rfl, fun _ => trivial⟩

theorem WorkerPc.serving_wake (p q : WorkerPc F A) (h : p.wake = some q) :
    q.Serving = p.Serving := by
  cases p <;> cases h
  rfl

section Steps
variable [DecidableEq W] [DecidableEq S] [DecidableEq D]
  {s s' : State W S D F A} {l : Label W S D F A}

theorem Step.functional (h : Step s l s') (hl : QueuesFunc s l) (hi : Functional s) :
    Functional s' := by
  have move {w : W} {p : WorkerPc F A} (hp : s.pool.inShutdown = false → p.Serving) :
      s.pool.inShutdown = false → s.pool.remainingThreads = s.pool.nthreads ∧
        s.pool.shutdownDone = false ∧ ∀ v, (update s.worker w p v).Serving := by
    intro hopen
    obtain ⟨hr, hd, hw⟩ := hi.undisturbed hopen
    refine ⟨hr, hd, ?_⟩
    rw [forall_update_iff s.worker fun _ q => q.Serving]
    exact ⟨hp hopen, fun v _ => hw v⟩
  have at_worker {w : W} {p : WorkerPc F A} (hp : s.worker w = p) :
      s.pool.inShutdown = false → p.Serving := by
    intro hopen
    rw [← hp]
    exact (hi.undisturbed hopen).2.2 w
  cases h with
  | wait | comeBack | spuriousWorker | start => exact ⟨hi.queue, move fun _ => trivial⟩
  | @take w wi p _ _ htake =>
    obtain ⟨hqueue, hp⟩ := takeWork_some htake
    have hfunc : s.pool.inShutdown = false → ∀ x ∈ wi :: p.workQueue, x.func ≠ none := by
      rw [← hqueue]
      exact hi.queue
    rw [hp]
    refine ⟨?_, move fun hopen => hfunc hopen wi (by simp)⟩
    intro hopen x hx
    exact hfunc hopen x (List.mem_cons_of_mem wi hx)
  | unlockTaken hpc =>
    have hw := at_worker hpc
    exact ⟨hi.queue, move hw⟩
  | @terminate w wi hpc hnull _ =>
    have hshut : s.pool.inShutdown = true := by
      by_contra hopen
      exact at_worker hpc (Bool.eq_false_iff.mpr hopen) hnull
    have hstays : (workerTerminate s.pool).inShutdown = true := by
      rw [workerTerminate_inShutdown, hshut]
    refine ⟨?_, ?_⟩
    · intro hopen
      exact absurd (hstays.symm.trans hopen) (by simp)
    · intro hopen
      exact absurd (hstays.symm.trans hopen) (by simp)
  | unlockLeaving hpc =>
    have hw := at_worker hpc
    exact ⟨hi.queue, move hw⟩
  | @accept u func arg p hpc _ hsub =>
    obtain ⟨hopen, hp⟩ := tpSubmit_some hsub
    have hfunc : func ≠ none := by
      intro hnull
      have hshut := hl u arg rfl (hnull ▸ hpc)
      rw [hopen] at hshut
      cases hshut
    rw [hp]
    refine ⟨?_, hi.undisturbed⟩
    intro _ wi hwi
    cases List.mem_append.mp hwi with
    | inl hold => exact hi.queue hopen wi hold
    | inr hnew =>
      rw [List.mem_singleton.mp hnew]
      exact hfunc
  | signal _ hsig =>
    refine ⟨hi.queue, ?_⟩
    intro hopen
    obtain ⟨hr, hd, hw⟩ := hi.undisturbed hopen
    refine ⟨hr, hd, ?_⟩
    intro w
    rw [hsig.apply WorkerPc.Serving WorkerPc.serving_wake w]
    exact hw w
  | beginWait _ _ hbegin _ | beginDone _ _ hbegin _ =>
    rw [(tpShutdown_some hbegin).2]
    refine ⟨?_, ?_⟩
    · intro hopen
      cases hopen
    · intro hopen
      cases hopen
  | submit | reject | unlockRejected | unlockAccepted | shutdown | refuse | recheckWait
  | recheckDone | spuriousCloser | unlockRefused | unlockShutdown | destroyHasWork
  | destroyTerminated | destroyMutex => exact ⟨hi.queue, hi.undisturbed⟩

/-- The workers can go from `s` to `t`, with no new call and no signal. -/
def WorkersReach (s t : State W S D F A) : Prop :=
  ∃ ms, Runs Step s ms t ∧ ∀ m ∈ ms, m.ofWorkers = true

theorem WorkersReach.refl (s : State W S D F A) : WorkersReach s s :=
  ⟨[], Runs.nil s, by simp⟩

theorem WorkersReach.step {t u : State W S D F A} (h : WorkersReach s t) (hs : Step t l u)
    (hl : l.ofWorkers = true) : WorkersReach s u := by
  obtain ⟨ms, hrun, hms⟩ := h
  refine ⟨ms ++ [l], hrun.snoc hs, ?_⟩
  intro m hm
  cases List.mem_append.mp hm with
  | inl hold => exact hms m hold
  | inr hnew =>
    rw [List.mem_singleton.mp hnew]
    exact hl

theorem WorkersReach.trans {t u : State W S D F A} (h : WorkersReach s t)
    (h' : WorkersReach t u) : WorkersReach s u := by
  obtain ⟨ms, hrun, hms⟩ := h
  obtain ⟨ns, hmore, hns⟩ := h'
  refine ⟨ms ++ ns, hrun.append hmore, ?_⟩
  intro m hm
  cases List.mem_append.mp hm with
  | inl hold => exact hms m hold
  | inr hnew => exact hns m hnew

theorem WorkersReach.owned {t : State W S D F A} (h : WorkersReach s t)
    (ho : Owned s.held s.holder) : Owned t.held t.holder := by
  obtain ⟨ms, hrun, _⟩ := h
  exact hrun.invariant (P := fun a : State W S D F A => Owned a.held a.holder) ho
    fun _ _ _ ha hs => hs.owned ha

/-- Whatever the workers do next, none of them goes before a shutdown. -/
def StaysUndisturbed (s : State W S D F A) : Prop := ∀ t, WorkersReach s t → t.Undisturbed

theorem Functional.stays (hi : Functional s) : StaysUndisturbed s := by
  intro t ht
  obtain ⟨ms, hrun, hms⟩ := ht
  have hend := hrun.invariant_of (P := Functional) (Q := fun m => m.ofWorkers = true) hms hi
    fun a m b hm ha hstep => by
      apply hstep.functional _ ha
      intro u arg hl
      rw [hl] at hm
      cases hm
  exact hend.undisturbed

theorem Step.unlock {t : State W S D F A} (h : Step s l t) (hl : l.unlocks = true) :
    t.pool = s.pool ∧ t.holder = none ∧ ∀ w, (s.worker w).Serving → (t.worker w).Serving := by
  have at_worker {v : W} {p : WorkerPc F A} (hp : (s.worker v).Serving → p.Serving) :
      ∀ w, (s.worker w).Serving → (update s.worker v p w).Serving := by
    rw [forall_update_iff s.worker fun w q => (s.worker w).Serving → q.Serving]
    exact ⟨hp, fun w _ hw => hw⟩
  cases h with
  | unlockTaken hpc | unlockLeaving hpc =>
    refine ⟨rfl, rfl, at_worker ?_⟩
    rw [hpc]
    exact fun hw => hw
  | unlockRejected | unlockAccepted | unlockRefused | unlockShutdown =>
    exact ⟨rfl, rfl, fun _ hw => hw⟩
  | wait | take | start | comeBack | terminate | spuriousWorker | submit | reject | accept | signal
  | shutdown | refuse | beginWait | beginDone | recheckWait | recheckDone | spuriousCloser
  | destroyHasWork | destroyTerminated | destroyMutex => cases hl

theorem reach_free (ho : Owned s.held s.holder) {w : W} (hw : (s.worker w).Serving) :
    ∃ t, WorkersReach s t ∧ t.pool = s.pool ∧ t.holder = none ∧ (t.worker w).Serving := by
  cases hx : s.holder with
  | none => exact ⟨s, WorkersReach.refl s, rfl, hx, hw⟩
  | some x =>
    obtain ⟨l, t, hstep, hl⟩ := exists_unlock ho hx
    obtain ⟨hpool, hfree, hserving⟩ := hstep.unlock hl
    have hworkers : l.ofWorkers = true := by
      unfold Label.ofWorkers
      split <;> first | rfl | exact hl
    exact ⟨t, (WorkersReach.refl s).step hstep hworkers, hpool, hfree, hserving w hw⟩

theorem reach_check (ho : Owned s.held s.holder) {w : W} (hw : (s.worker w).Serving) :
    ∃ t, WorkersReach s t ∧ t.pool = s.pool ∧ t.holder = none ∧
      (t.worker w).checks = true := by
  obtain ⟨t, hreach, hpool, hfree, hserving⟩ := reach_free ho hw
  cases hpc : t.worker w with
  | top | woken => exact ⟨t, hreach, hpool, hfree, congrArg WorkerPc.checks hpc⟩
  | blocked =>
    have hwoken := hreach.step (Step.spuriousWorker hpc) rfl
    exact ⟨_, hwoken, hpool, hfree, by simp [WorkerPc.checks]⟩
  | running wi =>
    have hback := hreach.step (Step.comeBack hpc) rfl
    exact ⟨_, hback, hpool, hfree, by simp [WorkerPc.checks]⟩
  | fetched wi =>
    rw [hpc] at hserving
    have hcall := hreach.step (Step.start hpc hserving) rfl
    have hback := hcall.step (Step.comeBack (update_self _ _ _)) rfl
    exact ⟨_, hback, hpool, hfree, by simp [WorkerPc.checks]⟩
  | took wi =>
    have hnot := (hfree ▸ hreach.owned ho).free (.worker w)
    simp [State.held, heldBy, hpc, WorkerPc.holds] at hnot
  | leaving | exited =>
    rw [hpc] at hserving
    exact hserving.elim

theorem reach_take (ho : Owned s.held s.holder) {w : W} (hw : (s.worker w).Serving)
    {wi : WorkItem F A} {rest : List (WorkItem F A)} (hqueue : s.pool.workQueue = wi :: rest) :
    ∃ t, WorkersReach s t ∧ t.pool = { s.pool with workQueue := rest } ∧
      t.worker w = .took wi := by
  obtain ⟨t, hreach, hpool, hfree, hchecks⟩ := reach_check ho hw
  have htake : takeWork t.pool = some (wi, { s.pool with workQueue := rest }) := by
    unfold takeWork
    rw [hpool, hqueue]
  exact ⟨_, hreach.step (Step.take hchecks hfree htake) rfl, rfl, update_self _ _ _⟩

/-- An item without a function that is queued comes to a worker. -/
theorem not_stays_of_null [Nonempty W] {wi : WorkItem F A} (hnull : wi.func = none)
    (front back : List (WorkItem F A)) (ho : Owned s.held s.holder)
    (hqueue : s.pool.workQueue = front ++ wi :: back) (hopen : s.pool.inShutdown = false) :
    ¬ StaysUndisturbed s := by
  intro hstays
  obtain ⟨w⟩ := ‹Nonempty W›
  have hserving := (hstays s (WorkersReach.refl s) hopen).2.2 w
  induction front generalizing s with
  | nil =>
    obtain ⟨t, hreach, hpool, htook⟩ := reach_take ho hserving hqueue
    have ht := (hstays t hreach (by rw [hpool]; exact hopen)).2.2 w
    rw [htook] at ht
    exact ht hnull
  | cons x front ih =>
    obtain ⟨t, hreach, hpool, _⟩ := reach_take ho hserving hqueue
    have hopen' : t.pool.inShutdown = false := by
      rw [hpool]
      exact hopen
    have hqueue' : t.pool.workQueue = front ++ wi :: back := by
      rw [hpool]
      rfl
    apply ih (hreach.owned ho) hqueue' hopen' fun u hu => hstays u (hreach.trans hu)
    exact (hstays t hreach hopen').2.2 w

/-- No call of `tp_submit` queues an item without a function. -/
def FuncStep (s : State W S D F A) (l : Label W S D F A) (s' : State W S D F A) : Prop :=
  Step s l s' ∧ QueuesFunc s l

/-- The step leads to a state where, and from which on, the workers stay. -/
def UndisturbedStep (s : State W S D F A) (l : Label W S D F A) (s' : State W S D F A) : Prop :=
  Step s l s' ∧ StaysUndisturbed s'

theorem queuesFunc_of_stays [Nonempty W] (h : Step s l s') (ho : Owned s.held s.holder)
    (hstays : StaysUndisturbed s') : QueuesFunc s l := by
  intro u arg hl hpc
  subst hl
  by_contra hnot
  have hopen : s.pool.inShutdown = false := Bool.eq_false_iff.mpr hnot
  have ho' := h.owned ho
  cases h with
  | reject hpc' _ hsub =>
    rw [tpSubmit, hopen] at hsub
    cases hsub
  | @accept _ func arg' p hpc' _ hsub =>
    rw [hpc] at hpc'
    cases hpc'
    have hp := (tpSubmit_some hsub).2
    have hnull : (⟨none, some arg⟩ : WorkItem F A).func = none := rfl
    exact not_stays_of_null hnull s.pool.workQueue [] ho' (by rw [hp]) (by rw [hp]; exact hopen)
      hstays

end Steps

section Runs
variable [DecidableEq W] [Fintype W] [Nonempty W] [DecidableEq S] [DecidableEq D]

/-- The runs in which `tp_submit` queues no item without a function are those that keep,
in every state reached and in every state that the workers can go on to, all workers and
the counters as they were before a shutdown. -/
theorem clients_harmless_iff (ls : List (Label W S D F A)) (s : State W S D F A) :
    Runs FuncStep (init (Fintype.card W)) ls s ↔
      Runs UndisturbedStep (init (Fintype.card W)) ls s := by
  apply Runs.iff_of (P := Functional) (Q := fun s => Owned s.held s.holder)
    (init_functional _) (init_owned _)
  · intro a l b ha hstep
    have hb := hstep.1.functional hstep.2 ha
    exact ⟨⟨hstep.1, hb.stays⟩, hb⟩
  · intro a l b ha hstep
    exact ⟨⟨hstep.1, queuesFunc_of_stays hstep.1 ha hstep.2⟩, hstep.1.owned ha⟩

end Runs

/-- A task is submitted to a pool of one worker, which executes it. -/
theorem clients_harmless_one : ∃ s : State Unit Unit Unit Unit Unit,
    Runs UndisturbedStep (init (Fintype.card Unit))
      [.submit () (some ()) (), .lockSubmit (), .unlockSubmit (), .check (), .unlockTaken (),
        .start ()] s := by
  have hasked : Runs FuncStep (init 1 : State Unit Unit Unit Unit Unit)
      [.submit () (some ()) ()] _ := Runs.single ⟨Step.submit rfl, nofun⟩
  have hlocked := hasked.snoc (l := .lockSubmit ()) ⟨Step.accept rfl rfl rfl, fun _ _ _ => nofun⟩
  have hqueued := hlocked.snoc (l := .unlockSubmit ()) ⟨Step.unlockAccepted rfl, nofun⟩
  have htook := hqueued.snoc (l := .check ()) ⟨Step.take rfl rfl rfl, nofun⟩
  have hfetched := htook.snoc (l := .unlockTaken ()) ⟨Step.unlockTaken rfl, nofun⟩
  have hstarted := hfetched.snoc (l := .start ()) ⟨Step.start rfl (by decide), nofun⟩
  exact ⟨_, (clients_harmless_iff _ _).mp hstarted⟩

/-- A client submits NULL to a pool of one worker: the worker is gone. -/
theorem null_ends_worker : ∃ s : State Unit Unit Unit Unit Unit,
    Runs Step (init (Fintype.card Unit))
      [.submit () none (), .lockSubmit (), .unlockSubmit (), .check (), .unlockTaken (),
        .terminate (), .unlockLeaving ()] s ∧
      s.pool.inShutdown = false ∧ s.pool.remainingThreads = 0 ∧ s.pool.nthreads = 1 ∧
      s.pool.shutdownDone = true ∧ s.worker () = .exited ∧ ¬ s.Undisturbed := by
  have hasked := Runs.single (s := (init 1 : State Unit Unit Unit Unit Unit))
    (l := Label.submit () none ()) (Step.submit rfl)
  have hlocked := hasked.snoc (l := .lockSubmit ()) (Step.accept rfl rfl rfl)
  have hqueued := hlocked.snoc (l := .unlockSubmit ()) (Step.unlockAccepted rfl)
  have htook := hqueued.snoc (l := .check ()) (Step.take rfl rfl rfl)
  have hfetched := htook.snoc (l := .unlockTaken ()) (Step.unlockTaken rfl)
  have hset := hfetched.snoc (l := .terminate ()) (Step.terminate rfl rfl rfl)
  have hgone := hset.snoc (l := .unlockLeaving ()) (Step.unlockLeaving rfl)
  refine ⟨_, hgone, rfl, rfl, rfl, rfl, rfl, ?_⟩
  intro hsame
  cases (hsame rfl).2.1

end OsCourse.TPool
