import OsCourse.TPool.Progress

/-! The objects that `tp_shutdown` destroys, with one call of `tp_shutdown`, and the
runs in which no thread uses one of them afterwards. -/
namespace OsCourse.TPool
open Function Transition Wakeup Tally
variable {W S F A : Type*}

/-- What the code of a step locks, unlocks, waits on, signals or destroys. -/
def uses (s : State W S Unit F A) : Label W S Unit F A → List Obj
  | .check _ => if s.pool.workQueue.isEmpty then [.mutex, .hasWork] else [.mutex]
  | .unlockTaken _ | .unlockLeaving _ | .lockSubmit _ | .unlockSubmit _
  | .unlockShutdown _ => [.mutex]
  | .start _ | .comeBack _ | .submit _ _ _ | .shutdown _ => []
  | .terminate _ =>
    if s.pool.remainingThreads - 1 = 0 then [.mutex, .workersTerminated] else [.mutex]
  | .spuriousWorker _ => [.hasWork]
  | .signal _ _ => [.hasWork]
  | .lockShutdown _ =>
    if s.pool.inShutdown then [.mutex] else [.mutex, .hasWork, .workersTerminated]
  | .recheck _ => if s.pool.shutdownDone then [.mutex] else [.mutex, .workersTerminated]
  | .spuriousCloser _ => [.workersTerminated]
  | .destroy _ o => [o]

/-- What the call of `tp_shutdown` has destroyed so far. -/
def CloserPc.hasDestroyed : CloserPc → Obj → Bool
  | .freeTerminated, .hasWork | .freeMutex, .hasWork | .freeMutex, .workersTerminated
  | .finished, _ => true
  | _, _ => false

def CloserPc.past : CloserPc → Bool
  | .freeHasWork | .freeTerminated | .freeMutex | .finished => true
  | _ => false

def WorkerPc.isExited : WorkerPc F A → Bool
  | .exited => true
  | _ => false

theorem WorkerPc.isExited_wake (p q : WorkerPc F A) (h : p.wake = some q) :
    q.isExited = p.isExited := by
  cases p <;> cases h
  rfl

theorem CloserPc.past_of_destroyed {p : CloserPc} {o : Obj} (h : p.hasDestroyed o = true) :
    p.past = true := by
  cases p with
  | freeHasWork | freeTerminated | freeMutex | finished => rfl
  | idle | entering | refused | turnedAway | blocked | woken | leaving => cases h

section Steps
variable {s s' : State W S Unit F A} {l : Label W S Unit F A}

/-- When the call has passed its last unlock, the workers are gone. -/
structure Closed (s : State W S Unit F A) : Prop where
  flags : ∀ o, s.destroyed o = (s.closer ()).hasDestroyed o
  done : s.closer () = .leaving → s.pool.shutdownDone = true
  gone : (s.closer ()).past = true → ∀ w, (s.worker w).isExited = true

theorem CloserPc.closed_wake (p q : CloserPc) (h : p.wake = some q) :
    (q.hasDestroyed, q.past, decide (q = .leaving)) =
      (p.hasDestroyed, p.past, decide (p = .leaving)) := by
  cases p <;> cases h
  rfl

theorem Closed.worker_move (hi : Closed s) {w : W} (hw : (s.worker w).isExited = false) :
    (s.closer ()).past = false := by
  by_contra hp
  have := hi.gone (by simpa using hp) w
  rw [hw] at this
  cases this

theorem workers_gone [Fintype W] {n : Nat} (ho : Owned s.held s.holder)
    (hc : Counted n (tally WorkerPc.alive s.worker) s.pool) (hi : Closed s)
    (hpc : s.closer () = .leaving) (w : W) : (s.worker w).isExited = true := by
  have hdead : (s.worker w).alive = 0 := tally_eq_zero.mp (hc.done.mp (hi.done hpc)) w
  have hcloser : s.holder = some (.closer ()) := by
    apply (ho (.closer ())).mp
    simp [State.held, heldBy, hpc, CloserPc.holds]
  cases hw : s.worker w with
  | exited => rfl
  | leaving =>
    have hworker : s.holder = some (.worker w) := by
      apply (ho (.worker w)).mp
      simp [State.held, heldBy, hw, WorkerPc.holds]
    rw [hcloser] at hworker
    cases hworker
  | top | blocked | woken | took | fetched | running =>
    rw [hw] at hdead
    cases hdead

structure Sound [Fintype W] (s : State W S Unit F A) : Prop where
  owned : Owned s.held s.holder
  counted : Counted (Fintype.card W) (tally WorkerPc.alive s.worker) s.pool
  began : ∀ d, (s.closer d).began = true → s.pool.inShutdown = true
  closed : Closed s
  queued : s.pool.inShutdown = true → ∀ u, s.submitter u ≠ .accepted

theorem init_sound [Fintype W] [Nonempty W] :
    Sound (init (Fintype.card W) : State W S Unit F A) := by
  refine ⟨init_owned _, init_counted, ?_, ⟨?_, ?_, ?_⟩, ?_⟩
  · intro d hd
    cases hd
  · intro o
    cases o <;> rfl
  · intro h
    cases h
  · intro h
    cases h
  · intro h
    cases h

theorem Sound.refuses [Fintype W] {o : Obj} (hs : Sound s) (hd : s.destroyed o = true) :
    s.pool.inShutdown = true ∧ (s.closer ()).past = true := by
  rw [hs.closed.flags o] at hd
  have hpast := CloserPc.past_of_destroyed hd
  refine ⟨hs.began () ?_, hpast⟩
  cases hpc : s.closer () with
  | freeHasWork | freeTerminated | freeMutex | finished => rfl
  | idle | entering | refused | turnedAway | blocked | woken | leaving =>
    rw [hpc] at hpast
    cases hpast

variable [DecidableEq W] [DecidableEq S]

theorem Step.closed [Fintype W] {n : Nat} (h : Step s l s') (ho : Owned s.held s.holder)
    (hc : Counted n (tally WorkerPc.alive s.worker) s.pool) (hi : Closed s) : Closed s' := by
  cases h with
  | @wait w hpc _ _ =>
    have hnot : (s.worker w).isExited = false := by
      cases hw : s.worker w <;> first | rfl | (rw [hw] at hpc; cases hpc)
    exact ⟨hi.flags, hi.done, fun hp => by rw [hi.worker_move hnot] at hp; cases hp⟩
  | @take w wi p hpc _ htake =>
    have hnot : (s.worker w).isExited = false := by
      cases hw : s.worker w <;> first | rfl | (rw [hw] at hpc; cases hpc)
    refine ⟨hi.flags, ?_, fun hp => by rw [hi.worker_move hnot] at hp; cases hp⟩
    rw [(takeWork_some htake).2]
    exact hi.done
  | unlockTaken hpc | start hpc _ | comeBack hpc | unlockLeaving hpc | spuriousWorker hpc =>
    exact ⟨hi.flags, hi.done, fun hp => by
      rw [hi.worker_move (by rw [hpc]; rfl)] at hp
      cases hp⟩
  | terminate hpc _ _ =>
    have hpast := hi.worker_move (w := _) (by rw [hpc]; rfl)
    have hsame : ∀ c : Unit → CloserPc, (c = s.closer ∨ c = broadcast CloserPc.wake s.closer) →
        ((c ()).hasDestroyed, (c ()).past, decide (c () = .leaving)) =
          ((s.closer ()).hasDestroyed, (s.closer ()).past, decide (s.closer () = .leaving)) := by
      rintro c (rfl | rfl)
      · rfl
      · exact broadcast_iff (fun p => (p.hasDestroyed, p.past, decide (p = CloserPc.leaving)))
          CloserPc.closed_wake ()
    have hcases := hsame (if (workerTerminate s.pool).remainingThreads = 0
      then broadcast CloserPc.wake s.closer else s.closer) (by
        split
        · exact Or.inr rfl
        · exact Or.inl rfl)
    obtain ⟨hd, hrest⟩ := Prod.mk.inj hcases
    obtain ⟨hp, hl⟩ := Prod.mk.inj hrest
    refine ⟨fun o => ?_, fun hpl => workerTerminate_done (hi.done ?_), fun hpp => ?_⟩
    · exact (hi.flags o).trans (congrFun hd o).symm
    · have hdec := decide_eq_true hpl
      rw [hl] at hdec
      exact of_decide_eq_true hdec
    · dsimp only at hpp
      rw [hp, hpast] at hpp
      cases hpp
  | accept _ _ hsub =>
    refine ⟨hi.flags, ?_, hi.gone⟩
    rw [(tpSubmit_some hsub).2]
    exact hi.done
  | signal _ hsig =>
    refine ⟨hi.flags, hi.done, fun hp w => ?_⟩
    exact (hsig.apply WorkerPc.isExited WorkerPc.isExited_wake w).trans (hi.gone hp w)
  | shutdown hpc | refuse hpc _ _ | recheckWait hpc _ _ | spuriousCloser hpc
  | unlockRefused hpc =>
    refine ⟨fun o => ?_, fun hpl => ?_, fun hpp => ?_⟩
    · exact (hi.flags o).trans (by rw [hpc]; rfl)
    · cases hpl
    · cases hpp
  | beginWait hpc _ _ _ =>
    refine ⟨fun o => ?_, fun hpl => ?_, fun hpp => ?_⟩
    · exact (hi.flags o).trans (by rw [hpc]; rfl)
    · cases hpl
    · cases hpp
  | beginDone hpc _ _ hset =>
    refine ⟨fun o => ?_, fun _ => hset, fun hpp => ?_⟩
    · exact (hi.flags o).trans (by rw [hpc]; rfl)
    · cases hpp
  | recheckDone hpc _ hset =>
    refine ⟨fun o => ?_, fun _ => hset, fun hpp => ?_⟩
    · exact (hi.flags o).trans (by rw [hpc]; rfl)
    · cases hpp
  | unlockShutdown hpc =>
    have hgone := workers_gone ho hc hi hpc
    refine ⟨fun o => ?_, fun hpl => ?_, fun _ => hgone⟩
    · exact (hi.flags o).trans (by rw [hpc]; rfl)
    · cases hpl
  | destroyHasWork hpc | destroyTerminated hpc | destroyMutex hpc =>
    refine ⟨fun o => ?_, fun hpl => ?_, fun _ => hi.gone (by rw [hpc]; rfl)⟩
    · have ho' := hi.flags o
      rw [hpc] at ho'
      cases o <;> first | rfl | exact ho'
    · cases hpl
  | submit | reject | unlockRejected | unlockAccepted => exact ⟨hi.flags, hi.done, hi.gone⟩

theorem Step.queued_before (h : Step s l s') (ho : Owned s.held s.holder)
    (hi : s.pool.inShutdown = true → ∀ u, s.submitter u ≠ .accepted) :
    s'.pool.inShutdown = true → ∀ u, s'.submitter u ≠ .accepted := by
  have move {u : S} {p : SubmitterPc F A} (hp : p ≠ .accepted)
      (hshut : s.pool.inShutdown = true) : ∀ v, update s.submitter u p v ≠ .accepted := by
    rw [forall_update_iff s.submitter fun _ q => q ≠ .accepted]
    exact ⟨hp, fun v _ => hi hshut v⟩
  cases h with
  | take _ _ htake =>
    rw [(takeWork_some htake).2]
    exact hi
  | terminate =>
    dsimp only [workerTerminate]
    split <;> exact hi
  | accept _ _ hsub =>
    obtain ⟨hopen, hp⟩ := tpSubmit_some hsub
    rw [hp]
    intro hshut
    dsimp only at hshut
    rw [hopen] at hshut
    cases hshut
  | beginWait _ hfree _ _ | beginDone _ hfree _ _ =>
    intro _ u hu
    dsimp only at hu
    have hnot := (hfree ▸ ho).free (.submitter u)
    simp [State.held, heldBy, hu, SubmitterPc.holds] at hnot
  | submit | reject | unlockRejected | unlockAccepted | signal => exact move (by simp)
  | wait | unlockTaken | start | comeBack | unlockLeaving | spuriousWorker | shutdown | refuse
  | recheckWait | recheckDone | spuriousCloser | unlockRefused | unlockShutdown | destroyHasWork
  | destroyTerminated | destroyMutex => exact hi

theorem Step.sound [Fintype W] (h : Step s l s') (hi : Sound s) : Sound s' :=
  ⟨h.owned hi.owned, h.counted hi.counted, h.began hi.began, h.closed hi.owned hi.counted hi.closed,
    h.queued_before hi.owned hi.queued⟩

/-- No step that can be taken now uses an object that has been destroyed. -/
def Safe (s : State W S Unit F A) : Prop :=
  ∀ l t, Step s l t → ∀ o ∈ uses s l, s.destroyed o = false

/-- `has_work` is destroyed when no call of `tp_submit` is still to signal it, the mutex when
no call is about to lock or to unlock it, and no call starts after that. -/
def Orderly (s : State W S Unit F A) : Label W S Unit F A → Prop
  | .destroy _ .hasWork => ∀ u, s.submitter u ≠ .signalling
  | .destroy _ .mutex =>
    ∀ u, (∀ func arg, s.submitter u ≠ .entering func arg) ∧ s.submitter u ≠ .rejected
  | .submit _ _ _ => s.destroyed .mutex = false
  | _ => True

/-- The calls of `tp_submit` that the destroyed objects leave. -/
structure Settled (s : State W S Unit F A) : Prop where
  unsent : s.destroyed .hasWork = true → ∀ u, (s.submitter u).toSignal = 0
  idle : s.destroyed .mutex = true → ∀ u, s.submitter u = .idle

theorem Step.settled [Fintype W] (h : Step s l s') (hl : Orderly s l) (hs : Sound s)
    (hi : Settled s) : Settled s' := by
  have move {u : S} {p : SubmitterPc F A} (hsig : s.destroyed .hasWork = true → p.toSignal = 0)
      (hidle : s.destroyed .mutex = true → p = .idle) :
      (s.destroyed .hasWork = true → ∀ v, (update s.submitter u p v).toSignal = 0) ∧
        (s.destroyed .mutex = true → ∀ v, update s.submitter u p v = .idle) := by
    refine ⟨fun hd => ?_, fun hd => ?_⟩
    · rw [forall_update_iff s.submitter fun _ q => q.toSignal = 0]
      exact ⟨hsig hd, fun v _ => hi.unsent hd v⟩
    · rw [forall_update_iff s.submitter fun _ q => q = .idle]
      exact ⟨hidle hd, fun v _ => hi.idle hd v⟩
  have busy {u : S} {p q : SubmitterPc F A} (hpc : s.submitter u = q) (hq : q ≠ .idle)
      (hd : s.destroyed .mutex = true) : p = .idle :=
    absurd (hpc.symm.trans (hi.idle hd u)) hq
  cases h with
  | submit hpc =>
    obtain ⟨h1, h2⟩ := move (p := .entering _ _) (fun _ => rfl)
      (fun hd => by rw [show s.destroyed .mutex = false from hl] at hd; cases hd)
    exact ⟨h1, h2⟩
  | reject hpc _ _ =>
    obtain ⟨h1, h2⟩ := move (p := .rejected) (fun _ => rfl) (busy hpc (by simp))
    exact ⟨h1, h2⟩
  | accept hpc _ hsub =>
    have hnot : s.destroyed .hasWork = true → SubmitterPc.accepted.toSignal (F := F) (A := A) = 0 :=
      fun hd => by
        have hopen := (tpSubmit_some hsub).1
        rw [(hs.refuses hd).1] at hopen
        cases hopen
    obtain ⟨h1, h2⟩ := move hnot (busy hpc (by simp))
    exact ⟨h1, h2⟩
  | unlockRejected hpc =>
    obtain ⟨h1, h2⟩ := move (p := .idle) (fun _ => rfl) (fun _ => rfl)
    exact ⟨h1, h2⟩
  | @unlockAccepted u hpc =>
    have hnot : s.destroyed .hasWork = true →
        SubmitterPc.signalling.toSignal (F := F) (A := A) = 0 := fun hd => by
      have := hi.unsent hd u
      rw [hpc] at this
      exact this
    obtain ⟨h1, h2⟩ := move hnot (busy hpc (by simp))
    exact ⟨h1, h2⟩
  | signal hpc _ =>
    obtain ⟨h1, h2⟩ := move (p := .idle) (fun _ => rfl) (fun _ => rfl)
    exact ⟨h1, h2⟩
  | destroyHasWork hpc =>
    refine ⟨fun _ u => ?_, hi.idle⟩
    have hshut := hs.began () (by rw [hpc]; rfl)
    cases hu : s.submitter u with
    | accepted => exact absurd hu (hs.queued hshut u)
    | signalling => exact absurd hu (hl u)
    | idle | entering | rejected => rfl
  | destroyTerminated => exact ⟨hi.unsent, hi.idle⟩
  | destroyMutex hpc =>
    refine ⟨hi.unsent, fun _ u => ?_⟩
    have hsent := hi.unsent (by rw [hs.closed.flags, hpc]; rfl) u
    cases hu : s.submitter u with
    | idle => rfl
    | entering func arg => exact absurd hu ((hl u).1 func arg)
    | rejected => exact absurd hu (hl u).2
    | accepted | signalling =>
      rw [hu] at hsent
      cases hsent
  | wait | take | unlockTaken | start | comeBack | terminate | unlockLeaving | spuriousWorker
  | shutdown | refuse | beginWait | beginDone | recheckWait | recheckDone | spuriousCloser
  | unlockRefused | unlockShutdown => exact ⟨hi.unsent, hi.idle⟩

theorem safe_of_settled [Fintype W] (hs : Sound s) (hi : Settled s) : Safe s := by
  intro l t hstep o ho
  by_contra hne
  have hd : s.destroyed o = true := by simpa using hne
  have hpast := (hs.refuses hd).2
  have worker {w : W} {p : WorkerPc F A} (hpc : s.worker w = p) (hp : p.isExited = false) :
      False := by
    rw [hs.closed.worker_move (w := w) (by rw [hpc]; exact hp)] at hpast
    cases hpast
  have closer {d : Unit} {p : CloserPc} (hpc : s.closer d = p) (hp : p.past = false) : False := by
    rw [hpc, hp] at hpast
    cases hpast
  cases hstep with
  | @wait w hpc _ _ | @take w _ _ hpc _ _ =>
    cases hw : s.worker w with
    | top | woken => exact worker hw rfl
    | blocked | took | fetched | running | leaving | exited =>
      rw [hw] at hpc
      cases hpc
  | unlockTaken hpc | terminate hpc _ _ | unlockLeaving hpc | spuriousWorker hpc =>
    exact worker hpc rfl
  | start | comeBack | submit | shutdown => cases ho
  | @reject u _ _ hpc _ _ | @accept u _ _ _ hpc _ _ | @unlockRejected u hpc
  | @unlockAccepted u hpc =>
    rw [List.mem_singleton.mp ho] at hd
    rw [hi.idle hd u] at hpc
    cases hpc
  | @signal u _ _ hpc _ =>
    rw [List.mem_singleton.mp ho] at hd
    have hsent := hi.unsent hd u
    rw [hpc] at hsent
    cases hsent
  | refuse hpc _ _ | beginWait hpc _ _ _ | beginDone hpc _ _ _ | recheckWait hpc _ _
  | recheckDone hpc _ _ | spuriousCloser hpc | unlockRefused hpc | unlockShutdown hpc =>
    exact closer hpc rfl
  | destroyHasWork hpc | destroyTerminated hpc | destroyMutex hpc =>
    rw [List.mem_singleton.mp ho, hs.closed.flags, hpc] at hd
    cases hd

/-- A call that still has to lock or unlock a destroyed mutex leads to a use of it. -/
theorem not_safe_of_entering [Fintype W] (hs : Sound s) (hd : s.destroyed .mutex = true) {u : S}
    (hu : (∃ func arg, s.submitter u = .entering func arg) ∨ s.submitter u = .rejected) :
    ¬Safe s := by
  intro hsafe
  have unused {l : Label W S Unit F A} {t : State W S Unit F A} (hstep : Step s l t)
      (hl : .mutex ∈ uses s l) : False := by
    have := hsafe l t hstep .mutex hl
    rw [hd] at this
    cases this
  cases hholder : s.holder with
  | some x =>
    obtain ⟨l, t, hstep, hl⟩ := exists_unlock hs.owned hholder
    apply unused hstep
    cases l <;> first | exact List.mem_singleton.mpr rfl | cases hl
  | none =>
    obtain ⟨func, arg, hpc⟩ | hpc := hu
    · cases hsub : tpSubmit func arg s.pool with
      | none => exact unused (Step.reject hpc hholder hsub) (List.mem_singleton.mpr rfl)
      | some p => exact unused (Step.accept hpc hholder hsub) (List.mem_singleton.mpr rfl)
    · have hnot := (hholder ▸ hs.owned).free (.submitter u)
      simp [State.held, heldBy, hpc, SubmitterPc.holds] at hnot

/-- A step that is not orderly leads to a state where a destroyed object can be used. -/
theorem orderly_of_safe [Fintype W] (h : Step s l s') (hs : Sound s) (hsafe : Safe s') :
    Orderly s l := by
  have hs' := h.sound hs
  cases h with
  | destroyHasWork hpc =>
    intro u hu
    obtain ⟨o, worker', hsignal⟩ := exists_signal WorkerPc.wake s.worker
    have hunused := hsafe _ _ (Step.signal hu hsignal) .hasWork (List.mem_singleton.mpr rfl)
    cases hunused
  | destroyMutex hpc =>
    intro u
    refine ⟨fun func arg hu => ?_, fun hu => ?_⟩
    · exact not_safe_of_entering hs' rfl (Or.inl ⟨func, arg, hu⟩) hsafe
    · exact not_safe_of_entering hs' rfl (Or.inr hu) hsafe
  | @submit u func arg hpc =>
    by_contra hd
    have hmutex : s.destroyed .mutex = true := by simpa [Orderly] using hd
    refine not_safe_of_entering hs' hmutex (u := u) (Or.inl ⟨func, arg, ?_⟩) hsafe
    exact update_self u _ _
  | wait | take | unlockTaken | start | comeBack | terminate | unlockLeaving | spuriousWorker
  | reject | accept | unlockRejected | unlockAccepted | signal | shutdown | refuse | beginWait
  | beginDone | recheckWait | recheckDone | spuriousCloser | unlockRefused | unlockShutdown
  | destroyTerminated => trivial

/-- The orderly runs are those in which no step uses an object that `tp_shutdown` has
destroyed, and which reach no state where such a step could be taken. -/
theorem destroyed_unused_iff [Fintype W] [Nonempty W] (ls : List (Label W S Unit F A))
    (s : State W S Unit F A) :
    Runs (fun a l b => Step a l b ∧ Orderly a l) (init (Fintype.card W)) ls s ↔
      Runs (fun a l b => (Step a l b ∧ ∀ o ∈ uses a l, a.destroyed o = false) ∧ Safe b)
        (init (Fintype.card W)) ls s := by
  have hinit : Settled (init (Fintype.card W) : State W S Unit F A) := by
    constructor <;> (intro h; cases h)
  apply Runs.iff_of (P := fun a : State W S Unit F A => Sound a ∧ Settled a) (Q := Sound)
  · exact ⟨init_sound, hinit⟩
  · exact init_sound
  · rintro a l b ⟨hs, hi⟩ hstep
    have hs' := hstep.1.sound hs
    have hi' := hstep.1.settled hstep.2 hs hi
    have hunused := safe_of_settled hs hi _ _ hstep.1
    exact ⟨⟨⟨hstep.1, hunused⟩, safe_of_settled hs' hi'⟩, hs', hi'⟩
  · intro a l b hs hstep
    exact ⟨⟨hstep.1.1, orderly_of_safe hstep.1.1 hs hstep.2⟩, hstep.1.1.sound hs⟩

end Steps

/-- A late call of `tp_submit` is turned away, and then everything is destroyed. -/
theorem destroyed_unused_one : ∃ (ls : List (Label Unit Unit Unit Unit Unit))
    (s : State Unit Unit Unit Unit Unit), Runs (fun a l b =>
      (Step a l b ∧ ∀ o ∈ uses a l, a.destroyed o = false) ∧ Safe b) (init 1) ls s ∧
      s.closer () = .finished := by
  have hclosing : Runs (fun a l b => Step a l b ∧ Orderly a l)
      (init 1 : State Unit Unit Unit Unit Unit) [.shutdown ()] _ :=
    Runs.single ⟨Step.shutdown rfl, trivial⟩
  have hwaits := hclosing.snoc (l := Label.lockShutdown ())
    ⟨Step.beginWait rfl rfl rfl rfl, trivial⟩
  have hasked := hwaits.snoc (l := Label.submit () (some ()) ()) ⟨Step.submit rfl, rfl⟩
  have hlocked := hasked.snoc (l := Label.lockSubmit ()) ⟨Step.reject rfl rfl rfl, trivial⟩
  have hturned := hlocked.snoc (l := Label.unlockSubmit ()) ⟨Step.unlockRejected rfl, trivial⟩
  have htook := hturned.snoc (l := Label.check ()) ⟨Step.take rfl rfl rfl, trivial⟩
  have hpill := htook.snoc (l := Label.unlockTaken ()) ⟨Step.unlockTaken rfl, trivial⟩
  have hset := hpill.snoc (l := Label.terminate ()) ⟨Step.terminate rfl rfl rfl, trivial⟩
  have hexited := hset.snoc (l := Label.unlockLeaving ()) ⟨Step.unlockLeaving rfl, trivial⟩
  have hseen := hexited.snoc (l := Label.recheck ()) ⟨Step.recheckDone rfl rfl rfl, trivial⟩
  have hunlocked := hseen.snoc (l := Label.unlockShutdown ()) ⟨Step.unlockShutdown rfl, trivial⟩
  have hfirst := hunlocked.snoc (l := Label.destroy () .hasWork)
    ⟨Step.destroyHasWork rfl, fun _ hu => by cases hu⟩
  have hsecond := hfirst.snoc (l := Label.destroy () .workersTerminated)
    ⟨Step.destroyTerminated rfl, trivial⟩
  have hlast := hsecond.snoc (l := Label.destroy () .mutex) ⟨Step.destroyMutex rfl, fun _ => by
    constructor
    · intro func arg hu
      cases hu
    · intro hu
      cases hu⟩
  exact ⟨_, _, (destroyed_unused_iff _ _).mp hlast, rfl⟩

/-- A call of `tp_submit` that has unlocked the mutex is overtaken by a whole shutdown and
then signals `has_work`. -/
theorem signal_after_destroy : ¬∀ (ls : List (Label Unit Unit Unit Unit Unit))
    (s : State Unit Unit Unit Unit Unit), Runs Step (init 1) ls s → Safe s := by
  intro hall
  have hasked := Runs.single (s := (init 1 : State Unit Unit Unit Unit Unit))
    (l := Label.submit () (some ()) ()) (Step.submit rfl)
  have hlocked := hasked.snoc (l := .lockSubmit ()) (Step.accept rfl rfl rfl)
  have hqueued := hlocked.snoc (l := .unlockSubmit ()) (Step.unlockAccepted rfl)
  have htook := hqueued.snoc (l := .check ()) (Step.take rfl rfl rfl)
  have hfetched := htook.snoc (l := .unlockTaken ()) (Step.unlockTaken rfl)
  have hcalled := hfetched.snoc (l := .start ()) (Step.start rfl (by simp))
  have hback := hcalled.snoc (l := .comeBack ()) (Step.comeBack rfl)
  have hclosing := hback.snoc (l := .shutdown ()) (Step.shutdown rfl)
  have hwaits := hclosing.snoc (l := .lockShutdown ()) (Step.beginWait rfl rfl rfl rfl)
  have htook' := hwaits.snoc (l := .check ()) (Step.take rfl rfl rfl)
  have hpill := htook'.snoc (l := .unlockTaken ()) (Step.unlockTaken rfl)
  have hset := hpill.snoc (l := .terminate ()) (Step.terminate rfl rfl rfl)
  have hexited := hset.snoc (l := .unlockLeaving ()) (Step.unlockLeaving rfl)
  have hseen := hexited.snoc (l := .recheck ()) (Step.recheckDone rfl rfl rfl)
  have hunlocked := hseen.snoc (l := .unlockShutdown ()) (Step.unlockShutdown rfl)
  have hgone := hunlocked.snoc (l := .destroy () .hasWork) (Step.destroyHasWork rfl)
  -- the submitter is still to signal
  have hunused := hall _ _ hgone (.signal () none) _
    (Step.signal rfl (Signal.nobody fun _ => rfl)) .hasWork (List.mem_singleton.mpr rfl)
  cases hunused

end OsCourse.TPool
