import OsCourse.TPool.Model

/-! Who holds the mutex of the pool, and how many workers `remaining_threads` counts. -/
namespace OsCourse.TPool
open Function Transition Wakeup Tally
variable {W S D F A : Type*}

def heldBy (worker : W → WorkerPc F A) (submitter : S → SubmitterPc F A)
    (closer : D → CloserPc) : Party W S D → Bool
  | .worker w => (worker w).holds
  | .submitter u => (submitter u).holds
  | .closer d => (closer d).holds

def State.held (s : State W S D F A) : Party W S D → Bool :=
  heldBy s.worker s.submitter s.closer

theorem WorkerPc.holds_wake (p q : WorkerPc F A) (h : p.wake = some q) : q.holds = p.holds := by
  cases p <;> cases h
  rfl

theorem CloserPc.holds_wake (p q : CloserPc) (h : p.wake = some q) : q.holds = p.holds := by
  cases p <;> cases h
  rfl

theorem heldBy_broadcast_worker (worker : W → WorkerPc F A) (submitter : S → SubmitterPc F A)
    (closer : D → CloserPc) : heldBy (broadcast WorkerPc.wake worker) submitter closer =
      heldBy worker submitter closer := by
  funext x
  cases x with
  | worker w => exact broadcast_iff WorkerPc.holds WorkerPc.holds_wake w
  | submitter u => rfl
  | closer d => rfl

theorem heldBy_broadcast_closer (worker : W → WorkerPc F A) (submitter : S → SubmitterPc F A)
    (closer : D → CloserPc) : heldBy worker submitter (broadcast CloserPc.wake closer) =
      heldBy worker submitter closer := by
  funext x
  cases x with
  | worker w => rfl
  | submitter u => rfl
  | closer d => exact broadcast_iff CloserPc.holds CloserPc.holds_wake d

theorem init_owned (n : Int) : Owned (init n : State W S D F A).held
    (init n : State W S D F A).holder := by
  intro x
  cases x <;> simp [State.held, heldBy, init, WorkerPc.holds, SubmitterPc.holds, CloserPc.holds]

section Mutex
variable [DecidableEq W]

theorem heldBy_signal {worker worker' : W → WorkerPc F A} {o : Option W}
    (submitter : S → SubmitterPc F A) (closer : D → CloserPc)
    (h : Signal WorkerPc.wake worker o worker') :
    heldBy worker' submitter closer = heldBy worker submitter closer := by
  funext x
  cases x with
  | worker w => exact h.apply WorkerPc.holds WorkerPc.holds_wake w
  | submitter u => rfl
  | closer d => rfl

variable [DecidableEq S] [DecidableEq D]

@[simp] theorem heldBy_worker (worker : W → WorkerPc F A) (submitter : S → SubmitterPc F A)
    (closer : D → CloserPc) (w : W) (p : WorkerPc F A) :
    heldBy (update worker w p) submitter closer =
      update (heldBy worker submitter closer) (.worker w) p.holds := by
  funext x
  cases x with
  | worker v => by_cases h : v = w <;> simp [heldBy, h]
  | submitter u => simp [heldBy]
  | closer d => simp [heldBy]

@[simp] theorem heldBy_submitter (worker : W → WorkerPc F A) (submitter : S → SubmitterPc F A)
    (closer : D → CloserPc) (u : S) (p : SubmitterPc F A) :
    heldBy worker (update submitter u p) closer =
      update (heldBy worker submitter closer) (.submitter u) p.holds := by
  funext x
  cases x with
  | worker w => simp [heldBy]
  | submitter v => by_cases h : v = u <;> simp [heldBy, h]
  | closer d => simp [heldBy]

@[simp] theorem heldBy_closer (worker : W → WorkerPc F A) (submitter : S → SubmitterPc F A)
    (closer : D → CloserPc) (d : D) (p : CloserPc) :
    heldBy worker submitter (update closer d p) =
      update (heldBy worker submitter closer) (.closer d) p.holds := by
  funext x
  cases x with
  | worker w => simp [heldBy]
  | submitter u => simp [heldBy]
  | closer e => by_cases h : e = d <;> simp [heldBy, h]

variable {s s' : State W S D F A} {l : Label W S D F A}

theorem WorkerPc.holds_of_checks {p : WorkerPc F A} (h : p.checks = true) : p.holds = false := by
  cases p with
  | top | woken => rfl
  | blocked | took | fetched | running | leaving | exited => cases h

theorem Step.owned (h : Step s l s') (ho : Owned s.held s.holder) :
    Owned s'.held s'.holder := by
  cases h with
  | wait hpc hfree _ =>
    rw [State.held, heldBy_worker]
    exact ho.keep (WorkerPc.holds_of_checks hpc)
  | @take w wi p hpc hfree _ =>
    rw [State.held, heldBy_worker]
    rw [hfree] at ho
    exact ho.acquire (.worker w)
  | @unlockTaken w wi hpc =>
    rw [State.held, heldBy_worker]
    exact ho.release (by simp [State.held, heldBy, hpc, WorkerPc.holds])
  | start hpc _ | comeBack hpc | spuriousWorker hpc =>
    rw [State.held, heldBy_worker]
    exact ho.keep (by simp [State.held, heldBy, hpc, WorkerPc.holds])
  | @terminate w wi hpc _ hfree =>
    have hheld : heldBy (update s.worker w .leaving) s.submitter
        (if (workerTerminate s.pool).remainingThreads = 0
          then broadcast CloserPc.wake s.closer else s.closer) =
        update s.held (.worker w) true := by
      split
      · rw [heldBy_broadcast_closer, heldBy_worker]
        rfl
      · rw [heldBy_worker]
        rfl
    rw [State.held, hheld]
    rw [hfree] at ho
    exact ho.acquire (.worker w)
  | unlockLeaving hpc =>
    rw [State.held, heldBy_worker]
    exact ho.release (by simp [State.held, heldBy, hpc, WorkerPc.holds])
  | submit hpc =>
    rw [State.held, heldBy_submitter]
    exact ho.keep (by simp [State.held, heldBy, hpc, SubmitterPc.holds])
  | @reject u _ _ hpc hfree _ | @accept u _ _ _ hpc hfree _ =>
    rw [State.held, heldBy_submitter]
    rw [hfree] at ho
    exact ho.acquire (.submitter u)
  | unlockRejected hpc | unlockAccepted hpc =>
    rw [State.held, heldBy_submitter]
    exact ho.release (by simp [State.held, heldBy, hpc, SubmitterPc.holds])
  | signal hpc hsig =>
    rw [State.held, heldBy_submitter, heldBy_signal _ _ hsig]
    exact ho.keep (by simp [State.held, heldBy, hpc, SubmitterPc.holds])
  | shutdown hpc | recheckWait hpc | spuriousCloser hpc | destroyHasWork hpc
  | destroyTerminated hpc | destroyMutex hpc =>
    rw [State.held, heldBy_closer]
    exact ho.keep (by simp [State.held, heldBy, hpc, CloserPc.holds])
  | @refuse d hpc hfree _ | @recheckDone d hpc hfree _ =>
    rw [State.held, heldBy_closer]
    rw [hfree] at ho
    exact ho.acquire (.closer d)
  | beginWait hpc hfree _ _ =>
    rw [State.held, heldBy_closer, heldBy_broadcast_worker]
    exact ho.keep (by simp [State.held, heldBy, hpc, CloserPc.holds])
  | @beginDone d p hpc hfree _ _ =>
    rw [State.held, heldBy_closer, heldBy_broadcast_worker]
    rw [hfree] at ho
    exact ho.acquire (.closer d)
  | unlockRefused hpc | unlockShutdown hpc =>
    rw [State.held, heldBy_closer]
    exact ho.release (by simp [State.held, heldBy, hpc, CloserPc.holds])

end Mutex

section Code
variable {p p' : Pool F A}

theorem takeWork_none (h : takeWork p = none) : p.workQueue = [] := by
  unfold takeWork at h
  split at h
  · assumption
  · cases h

theorem takeWork_some {wi : WorkItem F A} (h : takeWork p = some (wi, p')) :
    p.workQueue = wi :: p'.workQueue ∧ p' = { p with workQueue := p'.workQueue } := by
  unfold takeWork at h
  split at h
  · cases h
  · cases h
    exact ⟨by assumption, rfl⟩

theorem workerTerminate_workQueue : (workerTerminate p).workQueue = p.workQueue := by
  unfold workerTerminate
  dsimp only
  split <;> rfl

theorem workerTerminate_inShutdown : (workerTerminate p).inShutdown = p.inShutdown := by
  unfold workerTerminate
  dsimp only
  split <;> rfl

theorem workerTerminate_done (h : p.shutdownDone = true) :
    (workerTerminate p).shutdownDone = true := by
  unfold workerTerminate
  dsimp only
  split
  · rfl
  · exact h

theorem tpSubmit_some {func : Option F} {arg : A} (h : tpSubmit func arg p = some p') :
    p.inShutdown = false ∧ p' = { p with workQueue := p.workQueue ++ [⟨func, some arg⟩] } := by
  unfold tpSubmit at h
  split at h
  · cases h
  · rename_i hopen
    cases h
    exact ⟨by simpa using hopen, rfl⟩

theorem tpShutdown_some (h : tpShutdown p = some p') :
    p.inShutdown = false ∧ p' = { p with
      inShutdown := true
      workQueue := p.workQueue ++ List.replicate p.nthreads.toNat pill } := by
  unfold tpShutdown at h
  split at h
  · cases h
  · rename_i hopen
    cases h
    exact ⟨by simpa using hopen, rfl⟩

end Code

section Count

def WorkerPc.alive : WorkerPc F A → Nat
  | .leaving | .exited => 0
  | _ => 1

theorem WorkerPc.alive_wake (p q : WorkerPc F A) (h : p.wake = some q) : q.alive = p.alive := by
  cases p <;> cases h
  rfl

theorem WorkerPc.alive_of_checks {p : WorkerPc F A} (h : p.checks = true) : p.alive = 1 := by
  cases p with
  | top | woken => rfl
  | blocked | took | fetched | running | leaving | exited => cases h

/-- The counters of a pool with `n` workers, `alive` of which have not terminated. -/
structure Counted (n alive : Nat) (p : Pool F A) : Prop where
  nthreads : p.nthreads = n
  remaining : p.remainingThreads = alive
  done : p.shutdownDone = true ↔ alive = 0

theorem Counted.terminate {n alive : Nat} {p : Pool F A} (h : Counted n (alive + 1) p) :
    Counted n alive (workerTerminate p) := by
  have hr := h.remaining
  unfold workerTerminate
  dsimp only
  split
  · exact ⟨h.nthreads, by simp only; omega, by simp only [true_iff]; omega⟩
  · have hd : p.shutdownDone = false := by
      have := h.done
      simpa using this
    refine ⟨h.nthreads, by simp only; omega, ?_⟩
    simp only [hd, Bool.false_eq_true, false_iff]
    omega

theorem init_counted [Fintype W] [Nonempty W] : Counted (Fintype.card W)
    (tally WorkerPc.alive (init (Fintype.card W) : State W S D F A).worker)
    (init (Fintype.card W) : State W S D F A).pool := by
  have hcard := Fintype.card_pos (α := W)
  have htally := tally_const (T := W) WorkerPc.alive (WorkerPc.top : WorkerPc F A)
  refine ⟨rfl, ?_, ?_⟩
  · simp [init, htally, tpInit1, WorkerPc.alive]
  · simp [init, htally, tpInit1, WorkerPc.alive]

variable [Fintype W] [DecidableEq W] [DecidableEq S] [DecidableEq D]
  {s s' : State W S D F A} {l : Label W S D F A}

theorem Step.counted {n : Nat} (h : Step s l s')
    (hc : Counted n (tally WorkerPc.alive s.worker) s.pool) :
    Counted n (tally WorkerPc.alive s'.worker) s'.pool := by
  cases h with
  | wait hpc _ _ =>
    rw [tally_same (WorkerPc.alive_of_checks hpc)]
    exact hc
  | take hpc _ htake =>
    rw [tally_same (WorkerPc.alive_of_checks hpc), (takeWork_some htake).2]
    exact ⟨hc.nthreads, hc.remaining, hc.done⟩
  | unlockTaken hpc | start hpc _ | comeBack hpc | spuriousWorker hpc | unlockLeaving hpc =>
    rw [tally_same (by rw [hpc]; rfl)]
    exact hc
  | @terminate w wi hpc _ _ =>
    have hw := tally_update WorkerPc.alive s.worker w .leaving
    rw [hpc] at hw
    apply Counted.terminate
    rw [show tally WorkerPc.alive (update s.worker w .leaving) + 1 =
      tally WorkerPc.alive s.worker from hw]
    exact hc
  | accept _ _ hsub =>
    rw [(tpSubmit_some hsub).2]
    exact ⟨hc.nthreads, hc.remaining, hc.done⟩
  | signal _ hsig =>
    rw [tally_congr (hsig.apply WorkerPc.alive WorkerPc.alive_wake)]
    exact hc
  | beginWait _ _ hbegin _ | beginDone _ _ hbegin _ =>
    rw [tally_congr (broadcast_iff WorkerPc.alive WorkerPc.alive_wake), (tpShutdown_some hbegin).2]
    exact ⟨hc.nthreads, hc.remaining, hc.done⟩
  | submit | reject | unlockRejected | unlockAccepted | shutdown | refuse | recheckWait
  | recheckDone | spuriousCloser | unlockRefused | unlockShutdown | destroyHasWork
  | destroyTerminated | destroyMutex => exact hc

end Count

section Closers

/-- The call of `tp_shutdown` is the one that set `in_shutdown`. -/
def CloserPc.began : CloserPc → Bool
  | .idle | .entering | .refused | .turnedAway => false
  | _ => true

theorem CloserPc.began_wake (p q : CloserPc) (h : p.wake = some q) : q.began = p.began := by
  cases p <;> cases h
  rfl

variable [DecidableEq W] [DecidableEq S] [DecidableEq D]
  {s s' : State W S D F A} {l : Label W S D F A}

theorem Step.began (h : Step s l s')
    (hi : ∀ d, (s.closer d).began = true → s.pool.inShutdown = true) :
    ∀ d, (s'.closer d).began = true → s'.pool.inShutdown = true := by
  have move {d : D} {p : CloserPc} (hp : p.began = true → s.pool.inShutdown = true) (e : D) :
      (update s.closer d p e).began = true → s.pool.inShutdown = true := by
    rw [update_apply]
    split
    · exact hp
    · exact hi e
  cases h with
  | take _ _ htake =>
    rw [(takeWork_some htake).2]
    exact hi
  | @terminate w wi _ _ _ =>
    intro d hd
    dsimp only at hd ⊢
    rw [workerTerminate_inShutdown]
    split at hd
    · rw [broadcast_iff CloserPc.began CloserPc.began_wake d] at hd
      exact hi d hd
    · exact hi d hd
  | accept _ _ hsub =>
    rw [(tpSubmit_some hsub).2]
    exact hi
  | beginWait _ _ hbegin _ | beginDone _ _ hbegin _ =>
    rw [(tpShutdown_some hbegin).2]
    exact fun _ _ => rfl
  | shutdown | refuse | unlockRefused =>
    apply move
    intro hp
    cases hp
  | recheckWait hpc | recheckDone hpc | spuriousCloser hpc | unlockShutdown hpc
  | destroyHasWork hpc | destroyTerminated hpc | destroyMutex hpc =>
    apply move
    intro _
    exact hi _ (by rw [hpc]; rfl)
  | wait | unlockTaken | start | comeBack | unlockLeaving | spuriousWorker | submit | reject
  | unlockRejected | unlockAccepted | signal => exact hi

end Closers

end OsCourse.TPool
