import Mathlib.Data.Multiset.AddSub
import OsCourse.Lib.Calls
import OsCourse.Lib.Exchange
import OsCourse.TPool.Barrier
import OsCourse.TPool.Destroy

/-! Threads that submit a number of tasks each while others shut the pool down: some call of
`tp_shutdown` comes out of its wait. -/
namespace OsCourse.TPool
open Calls Exchange Function Transition Wakeup Tally History
variable {W S D F A : Type*}

def Label.isSpurious : Label W S D F A → Bool
  | .spuriousWorker _ | .spuriousCloser _ => true
  | _ => false

/-- The step begins a call of `tp_submit` or of `tp_shutdown`. -/
def Label.isCall : Label W S D F A → Bool
  | .submit _ _ _ | .shutdown _ => true
  | _ => false

section Weights

def WorkerPc.weight : WorkerPc F A → Nat
  | .blocked | .exited => 0
  | .top | .woken | .leaving => 1
  | .running _ => 2
  | .fetched _ => 3
  | .took _ => 4

def SubmitterPc.weight : SubmitterPc F A → Nat
  | .idle => 0
  | .rejected => 1
  | .signalling => 2
  | .accepted => 3
  | .entering _ _ => 8

/-- The call that begins the shutdown of `n` workers queues the pills and wakes the workers. One
that waits wakes up to wait again, until `done` is set. -/
def CloserPc.weight (n : Nat) (done : Bool) : CloserPc → Nat
  | .idle | .turnedAway | .finished => 0
  | .refused | .freeMutex => 1
  | .freeTerminated => 2
  | .freeHasWork => 3
  | .leaving => 4
  | .woken => if done then 5 else 7
  | .blocked => 6
  | .entering => 5 * n + 7

/-- A bound for the steps of the calls that have begun: an item in the queue is worth those of
the worker that takes it. -/
def State.ahead [Fintype W] [Fintype S] [Fintype D] (s : State W S D F A) : Nat :=
  tally WorkerPc.weight s.worker + 4 * s.pool.workQueue.length +
    tally SubmitterPc.weight s.submitter +
      tally (CloserPc.weight (Fintype.card W) s.pool.shutdownDone) s.closer

def Label.adds (n : Nat) : Label W S D F A → Nat
  | .submit _ _ _ => 9
  | .shutdown _ => 5 * n + 8
  | .spuriousWorker _ | .spuriousCloser _ => 2
  | _ => 0

theorem WorkerPc.weight_of_checks {p : WorkerPc F A} (h : p.checks = true) : p.weight = 1 := by
  cases p with
  | top | woken => rfl
  | blocked | took | fetched | running | leaving | exited => cases h

theorem WorkerPc.weight_wake (p q : WorkerPc F A) (h : p.wake = some q) :
    q.weight ≤ p.weight + 1 := by
  cases p <;> cases h
  exact Nat.le_refl _

theorem CloserPc.weight_done (n : Nat) (p : CloserPc) :
    CloserPc.weight n true (p.wake.getD p) ≤ CloserPc.weight n false p := by
  cases p with
  | blocked => exact Nat.le_succ 5
  | woken => exact (by decide : 5 ≤ 7)
  | idle | entering | refused | turnedAway | leaving | freeHasWork | freeTerminated | freeMutex
  | finished => exact Nat.le_refl _

variable [Fintype W]

theorem tally_broadcast (worker : W → WorkerPc F A) :
    tally WorkerPc.weight (broadcast WorkerPc.wake worker) ≤
      tally WorkerPc.weight worker + Fintype.card W := by
  have hle : ∀ w, (broadcast WorkerPc.wake worker w).weight ≤ (worker w).weight + 1 := by
    intro w
    obtain ⟨_, he⟩ | ⟨p, hp, he⟩ := broadcast_cases WorkerPc.wake worker w
    · rw [he]
      exact Nat.le_succ _
    · rw [he]
      exact WorkerPc.weight_wake _ _ hp
  calc tally WorkerPc.weight (broadcast WorkerPc.wake worker)
      ≤ tally (fun p : WorkerPc F A => p.weight + 1) worker := tally_le hle
    _ = tally WorkerPc.weight worker + Fintype.card W := by simp [tally, Finset.sum_add_distrib]

variable [DecidableEq W]

theorem tally_signal {worker worker' : W → WorkerPc F A} {o : Option W}
    (h : Signal WorkerPc.wake worker o worker') :
    tally WorkerPc.weight worker' ≤ tally WorkerPc.weight worker + 1 := by
  cases h with
  | nobody => omega
  | @one w p hp =>
    have hmove := tally_update WorkerPc.weight worker w p
    have hwake := WorkerPc.weight_wake _ _ hp
    omega

variable [DecidableEq S] [DecidableEq D] [Fintype S] [Fintype D]
  {s s' : State W S D F A} {l : Label W S D F A}

omit [DecidableEq S] [DecidableEq D] in
theorem ahead_worker {w : W} {p : WorkerPc F A} {k : Nat}
    (h : p.weight + 1 ≤ (s.worker w).weight + k) :
    { s with worker := update s.worker w p }.ahead + 1 ≤ s.ahead + k := by
  have := tally_update WorkerPc.weight s.worker w p
  unfold State.ahead
  dsimp only
  omega

omit [DecidableEq W] [DecidableEq D] in
theorem ahead_submitter {u : S} {p : SubmitterPc F A} {k : Nat}
    (h : p.weight + 1 ≤ (s.submitter u).weight + k) :
    { s with submitter := update s.submitter u p }.ahead + 1 ≤ s.ahead + k := by
  have := tally_update SubmitterPc.weight s.submitter u p
  unfold State.ahead
  dsimp only
  omega

omit [DecidableEq W] [DecidableEq S] in
theorem ahead_closer {d : D} {p : CloserPc} {k : Nat}
    (h : p.weight (Fintype.card W) s.pool.shutdownDone + 1 ≤
      (s.closer d).weight (Fintype.card W) s.pool.shutdownDone + k) :
    { s with closer := update s.closer d p }.ahead + 1 ≤ s.ahead + k := by
  have := tally_update (CloserPc.weight (Fintype.card W) s.pool.shutdownDone) s.closer d p
  unfold State.ahead
  dsimp only
  omega

omit [DecidableEq S] [DecidableEq D] in
theorem ahead_terminate {w : W} {wi : WorkItem F A} (hpc : s.worker w = .fetched wi)
    (hdone : s.pool.shutdownDone = false) :
    { s with
      pool := workerTerminate s.pool
      worker := update s.worker w .leaving
      closer := if (workerTerminate s.pool).remainingThreads = 0
        then broadcast CloserPc.wake s.closer else s.closer }.ahead + 1 ≤ s.ahead := by
  have hw := tally_update WorkerPc.weight s.worker w .leaving
  rw [hpc] at hw
  unfold State.ahead
  dsimp only
  rw [workerTerminate_workQueue]
  by_cases hlast : (workerTerminate s.pool).remainingThreads = 0
  · have hset : (workerTerminate s.pool).shutdownDone = true := by
      unfold workerTerminate at hlast ⊢
      dsimp only at hlast ⊢
      split_ifs at hlast ⊢ with hzero
      · rfl
      · exact absurd hlast hzero
    have hclosers : tally (CloserPc.weight (Fintype.card W) true)
        (broadcast CloserPc.wake s.closer) ≤
          tally (CloserPc.weight (Fintype.card W) false) s.closer :=
      tally_le fun d => CloserPc.weight_done _ (s.closer d)
    rw [if_pos hlast, hset, hdone]
    simp only [WorkerPc.weight] at hw
    omega
  · have hset : (workerTerminate s.pool).shutdownDone = s.pool.shutdownDone := by
      unfold workerTerminate at hlast ⊢
      dsimp only at hlast ⊢
      split_ifs at hlast ⊢ with hzero
      · exact absurd hzero hlast
      · rfl
    rw [if_neg hlast, hset]
    simp only [WorkerPc.weight] at hw
    omega

theorem Step.ahead (h : Step s l s')
    (hc : Counted (Fintype.card W) (tally WorkerPc.alive s.worker) s.pool) :
    s'.ahead + 1 ≤ s.ahead + l.adds (Fintype.card W) := by
  have hn := hc.nthreads
  cases h with
  | wait hpc _ _ =>
    exact ahead_worker (by rw [WorkerPc.weight_of_checks hpc]; exact Nat.le_refl _)
  | @take w wi p hpc _ htake =>
    have hw := tally_update WorkerPc.weight s.worker w (.took wi)
    rw [WorkerPc.weight_of_checks hpc] at hw
    obtain ⟨hqueue, hp⟩ := takeWork_some htake
    have hlen := congrArg List.length hqueue
    have hdone : p.shutdownDone = s.pool.shutdownDone := by rw [hp]
    simp only [State.ahead, WorkerPc.weight, Label.adds, List.length_cons, hdone] at hw hlen ⊢
    omega
  | unlockTaken hpc | start hpc _ | comeBack hpc | unlockLeaving hpc | spuriousWorker hpc =>
    exact ahead_worker (by simp [hpc, WorkerPc.weight, Label.adds])
  | @terminate w wi hpc hnull _ =>
    have halive := le_tally WorkerPc.alive s.worker w
    rw [hpc] at halive
    have hdone : s.pool.shutdownDone = false := by
      by_contra hset
      have hzero := hc.done.mp (by simpa using hset)
      rw [hzero] at halive
      exact absurd halive (by simp [WorkerPc.alive])
    exact ahead_terminate hpc hdone
  | submit hpc | reject hpc _ _ | unlockRejected hpc | unlockAccepted hpc =>
    exact ahead_submitter (by simp [hpc, SubmitterPc.weight, Label.adds])
  | @accept u func arg p hpc _ hsub =>
    have hu := tally_update SubmitterPc.weight s.submitter u .accepted
    rw [hpc] at hu
    rw [(tpSubmit_some hsub).2]
    simp only [State.ahead, SubmitterPc.weight, Label.adds, List.length_append,
      List.length_singleton] at hu ⊢
    omega
  | @signal u o worker' hpc hsig =>
    have hu := tally_update SubmitterPc.weight s.submitter u .idle
    rw [hpc] at hu
    have hwake := tally_signal hsig
    simp only [State.ahead, SubmitterPc.weight, Label.adds] at hu ⊢
    omega
  | @beginWait d p hpc _ hbegin _ | @beginDone d p hpc _ hbegin _ =>
    have hwait := tally_update (CloserPc.weight (Fintype.card W) s.pool.shutdownDone) s.closer d
    have hblocked := hwait .blocked
    have hleaving := hwait .leaving
    rw [hpc] at hblocked hleaving
    have hwoken := tally_broadcast s.worker
    rw [(tpShutdown_some hbegin).2]
    simp only [State.ahead, CloserPc.weight, Label.adds, List.length_append,
      List.length_replicate, hn, Int.toNat_natCast] at hblocked hleaving ⊢
    omega
  | recheckWait hpc _ hdone | recheckDone hpc _ hdone =>
    exact ahead_closer (by simp [hpc, hdone, CloserPc.weight, Label.adds])
  | spuriousCloser hpc =>
    refine ahead_closer ?_
    simp only [hpc, CloserPc.weight, Label.adds]
    split_ifs <;> omega
  | shutdown hpc | refuse hpc _ _ | unlockRefused hpc | unlockShutdown hpc | destroyHasWork hpc
  | destroyTerminated hpc | destroyMutex hpc =>
    exact ahead_closer (by simp [hpc, CloserPc.weight, Label.adds])

end Weights

theorem CloserMove.began_stays {s s' : State W S D F A} {l : Label W S D F A} {d : D}
    (h : CloserMove s s' l d) (hd : (s.closer d).began = true) : (s'.closer d).began = true := by
  cases h with
  | stay h => rwa [h]
  | wait _ h => exact (CloserPc.of_waits h).1
  | free _ h => exact (CloserPc.of_served h).1
  | leave _ h _ => rw [h]; rfl
  | enter hp _ | refuse hp _ _ | begins _ hp _ _ | turnAway hp _ =>
    rw [hp] at hd
    cases hd

theorem Step.idle_before [DecidableEq W] [DecidableEq S] [DecidableEq D]
    {s s' : State W S D F A} {l : Label W S D F A} (h : Step s l s') {d : D}
    (hidle : s'.closer d = .idle) : s.closer d = .idle := by
  cases h.closer_move d with
  | stay hsame => rw [← hsame, hidle]
  | enter hp _ => exact hp
  | refuse _ _ hq | leave _ hq _ | turnAway _ hq =>
    rw [hq] at hidle
    cases hidle
  | begins _ _ _ hq => obtain hq | ⟨hq, _⟩ := hq <;> rw [hq] at hidle <;> cases hidle
  | wait _ hq | free _ hq =>
    rw [hidle] at hq
    cases hq

section Kept
variable [Fintype W] [Fintype S] [DecidableEq W]

structure Kept (s : State W S D F A) : Prop where
  owned : Owned s.held s.holder
  covered : (gauge s).Covered
  ledger : Ledger (Fintype.card W) s
  counted : Counted (Fintype.card W) (tally WorkerPc.alive s.worker) s.pool
  attended : Attended s
  seen : s.pool.shutdownDone = true → ∀ d, s.closer d ≠ .blocked
  caller : s.pool.inShutdown = true → ∃ d, (s.closer d).began = true

theorem init_kept [Nonempty W] : Kept (init (Fintype.card W) : State W S D F A) := by
  refine ⟨init_owned _, fun hb => ?_, init_ledger _, init_counted, init_attended _, ?_, ?_⟩
  · exact absurd ((tally_const WorkerPc.isBlocked WorkerPc.top).trans (Nat.mul_zero _))
      (Nat.pos_iff_ne_zero.mp hb)
  · intro h
    cases h
  · intro h
    cases h

variable [DecidableEq S] [DecidableEq D] {s s' : State W S D F A} {l : Label W S D F A}

omit [Fintype W] [Fintype S] in
theorem Step.seen (h : Step s l s')
    (hi : s.pool.shutdownDone = true → ∀ d, s.closer d ≠ .blocked) :
    s'.pool.shutdownDone = true → ∀ d, s'.closer d ≠ .blocked := by
  have hmove : ∀ {d : D} {p : CloserPc}, p ≠ .blocked → s.pool.shutdownDone = true →
      ∀ e, update s.closer d p e ≠ .blocked := by
    intro d p hp hdone
    rw [forall_update_iff s.closer fun _ q => q ≠ .blocked]
    exact ⟨hp, fun e _ => hi hdone e⟩
  cases h with
  | @take w wi p _ _ htake =>
    rw [(takeWork_some htake).2]
    exact hi
  | terminate =>
    intro hdone e
    dsimp only
    split_ifs with hlast
    · intro he
      obtain ⟨hnone, hkeep⟩ | ⟨p, hp, hkeep⟩ := broadcast_cases CloserPc.wake s.closer e
      · rw [← hkeep, he] at hnone
        cases hnone
      · rw [hkeep] at he
        subst he
        cases hpc : s.closer e <;> rw [hpc] at hp <;> cases hp
    · apply hi
      unfold workerTerminate at hdone hlast
      dsimp only at hdone hlast
      split_ifs at hdone hlast with hzero
      · exact absurd hzero hlast
      · exact hdone
  | accept _ _ hsub =>
    rw [(tpSubmit_some hsub).2]
    exact hi
  | beginWait _ _ _ hnot =>
    intro hdone
    rw [hnot] at hdone
    cases hdone
  | beginDone _ _ hbegin _ =>
    rw [(tpShutdown_some hbegin).2]
    exact hmove nofun
  | recheckWait _ _ hnot =>
    intro hdone
    rw [hnot] at hdone
    cases hdone
  | shutdown | refuse | recheckDone | spuriousCloser | unlockRefused | unlockShutdown
  | destroyHasWork | destroyTerminated | destroyMutex => exact hmove nofun
  | wait | unlockTaken | start | comeBack | unlockLeaving | spuriousWorker | submit | reject
  | unlockRejected | unlockAccepted | signal => exact hi

omit [Fintype W] [Fintype S] in
theorem Step.caller (h : Step s l s')
    (hi : s.pool.inShutdown = true → ∃ d, (s.closer d).began = true) :
    s'.pool.inShutdown = true → ∃ d, (s'.closer d).began = true := by
  have hkeep : s'.pool.inShutdown = s.pool.inShutdown →
      s'.pool.inShutdown = true → ∃ d, (s'.closer d).began = true := by
    intro hsame hshut
    obtain ⟨d, hd⟩ := hi (hsame ▸ hshut)
    exact ⟨d, (h.closer_move d).began_stays hd⟩
  cases h with
  | take _ _ htake => exact hkeep (by rw [(takeWork_some htake).2])
  | terminate => exact hkeep workerTerminate_inShutdown
  | accept _ _ hsub => exact hkeep (by rw [(tpSubmit_some hsub).2])
  | @beginWait d | @beginDone d =>
    intro _
    exact ⟨d, by dsimp only; rw [update_self]; rfl⟩
  | wait | unlockTaken | start | comeBack | unlockLeaving | spuriousWorker | submit | reject
  | unlockRejected | unlockAccepted | signal | shutdown | refuse | recheckWait | recheckDone
  | spuriousCloser | unlockRefused | unlockShutdown | destroyHasWork | destroyTerminated
  | destroyMutex => exact hkeep rfl

theorem Step.kept (h : Step s l s') (hl : l.HasFunc) (hi : Kept s) : Kept s' :=
  ⟨h.owned hi.owned, h.move.covered hi.covered, h.ledger hl hi.counted.nthreads hi.ledger,
    h.counted hi.counted, h.attended hi.attended, h.seen hi.seen, h.caller hi.caller⟩

omit [Fintype W] [Fintype S] in
theorem closer_enabled (ho : Owned s.held s.holder) {d : D} (hpc : s.closer d = .entering) :
    Enabled s := by
  cases hholder : s.holder with
  | some x => exact enabled_of_holder ho hholder
  | none =>
    cases hbegin : tpShutdown s.pool with
    | none => exact ⟨_, _, Step.refuse hpc hholder hbegin, rfl⟩
    | some p =>
      cases hdone : p.shutdownDone with
      | false => exact ⟨_, _, Step.beginWait hpc hholder hbegin hdone, rfl⟩
      | true => exact ⟨_, _, Step.beginDone hpc hholder hbegin hdone, rfl⟩

/-- While a shutdown has begun and no call has come out of its wait, the pool can go on or a
task is running. -/
theorem Kept.goes_on (hi : Kept s) (hshut : s.pool.inShutdown = true)
    (hnot : ∀ d, (s.closer d).past = false) :
    Enabled s ∨ ∃ w wi, s.worker w = .running wi := by
  cases hholder : s.holder with
  | some x => exact Or.inl (enabled_of_holder hi.owned hholder)
  | none =>
    obtain ⟨d, hd⟩ := hi.caller hshut
    have hpast := hnot d
    cases hpc : s.closer d with
    | idle | entering | refused | turnedAway =>
      rw [hpc] at hd
      cases hd
    | freeHasWork | freeTerminated | freeMutex | finished =>
      rw [hpc] at hpast
      cases hpast
    | leaving =>
      have hfree := (hholder ▸ hi.owned).free (.closer d)
      simp [State.held, heldBy, hpc, CloserPc.holds] at hfree
    | woken =>
      cases hdone : s.pool.shutdownDone with
      | false => exact Or.inl ⟨_, _, Step.recheckWait hpc hholder hdone, rfl⟩
      | true => exact Or.inl ⟨_, _, Step.recheckDone hpc hholder hdone, rfl⟩
    | blocked =>
      have halive : 0 < tally WorkerPc.alive s.worker := by
        by_contra hzero
        exact hi.seen (hi.counted.done.mpr (by omega)) d hpc
      obtain ⟨w, hw⟩ := exists_of_tally halive
      cases hpw : s.worker w with
      | top => exact Or.inl (enabled_of_checks hholder (w := w) (by rw [hpw]; rfl))
      | woken => exact Or.inl (enabled_of_checks hholder (w := w) (by rw [hpw]; rfl))
      | blocked =>
        have hcarried : (s.worker w).carried = [] := by
          rw [hpw]
          rfl
        exact Or.inl (enabled_of_covered hi.owned hi.covered hholder
          (hi.ledger.queue_ne_nil hshut hcarried) hpw)
      | took wi =>
        have hfree := (hholder ▸ hi.owned).free (.worker w)
        simp [State.held, heldBy, hpw, WorkerPc.holds] at hfree
      | fetched wi =>
        by_cases hnull : wi.func = none
        · exact Or.inl ⟨_, _, Step.terminate hpw hnull hholder, rfl⟩
        · exact Or.inl ⟨_, _, Step.start hpw hnull, rfl⟩
      | running wi => exact Or.inr ⟨w, wi, hpw⟩
      | leaving | exited =>
        rw [hpw] at hw
        cases hw

omit [DecidableEq S] [DecidableEq D] in
theorem Kept.returned_perm [Nonempty W] (hi : Kept s) {d : D} (hd : (s.closer d).past = true) :
    (s.returned.map Prod.snd).Perm s.accepted ∧ ∀ w, (s.worker w).alive = 0 := by
  have hserved : (s.closer d).served = true := by
    cases hpc : s.closer d <;> rw [hpc] at hd <;> first | rfl | cases hd
  have hdead := tally_eq_zero.mp (hi.counted.done.mp (hi.attended.served d hserved))
  exact ⟨hi.ledger.returned_perm hdead, hdead⟩

/-- While a call of `tp_shutdown` has begun and none has come out of its wait, the pool can go on
without a new call. -/
theorem Kept.exists_step (hi : Kept s) (hcalled : ∃ d, s.closer d ≠ .idle)
    (hnot : ∀ d, (s.closer d).past = false) :
    ∃ l t, Step s l t ∧ l.isCall = false ∧ l.isSpurious = false := by
  have hpool : Enabled s → ∃ l t, Step s l t ∧ l.isCall = false ∧ l.isSpurious = false := by
    rintro ⟨l, t, hstep, hl⟩
    refine ⟨l, t, hstep, ?_⟩
    cases l <;> first | exact ⟨rfl, rfl⟩ | cases hl
  by_cases hshut : s.pool.inShutdown = true
  · obtain hgo | ⟨w, wi, hrun⟩ := hi.goes_on hshut hnot
    · exact hpool hgo
    · exact ⟨_, _, Step.comeBack hrun, rfl, rfl⟩
  · obtain ⟨d, hd⟩ := hcalled
    cases hpc : s.closer d with
    | idle => exact absurd hpc hd
    | entering => exact hpool (closer_enabled hi.owned hpc)
    | refused | turnedAway => exact absurd (hi.attended.late d (by rw [hpc]; rfl)) hshut
    | blocked | woken | leaving | freeHasWork | freeTerminated | freeMutex | finished =>
      exact absurd (hi.attended.began d (by rw [hpc]; rfl)) hshut

end Kept

/-- A step of a pool whose callers of `tp_submit` pass functions. -/
def TaskStep [DecidableEq W] [DecidableEq S] [DecidableEq D] (s : State W S D F A)
    (l : Label W S D F A) (s' : State W S D F A) : Prop :=
  Step s l s' ∧ l.HasFunc

def State.result (s : State W S D F A) : Option Unit :=
  if s.pool.shutdownDone then some () else none

section Tasks
variable [DecidableEq W] [DecidableEq S] [DecidableEq D] [Fintype W] [Fintype S]
  {s s' : State W S D F A}

omit [Fintype W] [Fintype S] in
theorem TaskStep.called {l : Label W S D F A} (h : TaskStep s l s')
    (hcalled : ∃ d, s.closer d ≠ .idle) : ∃ d, s'.closer d ≠ .idle :=
  hcalled.imp fun _ hd hidle => hd (h.1.idle_before hidle)

theorem Kept.shutdown_done [Fintype D] (hi : Kept s) (hcalled : ∃ d, s.closer d ≠ .idle) :
    Returns TaskStep s (fun l => l.isCall || l.isSpurious) State.result () := by
  have hinit : Kept s ∧ ∃ d, s.closer d ≠ .idle := ⟨hi, hcalled⟩
  have hkeep : ∀ (a : State W S D F A) l b, (Kept a ∧ ∃ d, a.closer d ≠ .idle) →
      TaskStep a l b → Kept b ∧ ∃ d, b.closer d ≠ .idle :=
    fun a l b ha h => ⟨h.1.kept h.2 ha.1, h.called ha.2⟩
  refine ⟨fun _ _ _ _ _ => rfl, ?_, ?_⟩
  · intro ls a hrun hnone
    obtain ⟨hk, hd⟩ := hrun.invariant hinit hkeep
    have hnot : ∀ d, (a.closer d).past = false := by
      intro d
      by_contra hpast
      have hserved : (a.closer d).served = true := by
        cases hpc : a.closer d <;> rw [hpc] at hpast <;> first | rfl | exact absurd rfl hpast
      rw [State.result, if_pos (hk.attended.served d hserved)] at hnone
      cases hnone
    obtain ⟨l, u, hstep, hcall, hspurious⟩ := hk.exists_step hd hnot
    refine ⟨l, u, ⟨hstep, ?_⟩, by rw [hcall, hspurious]; rfl⟩
    cases l with
    | submit => cases hcall
    | _ => trivial
  · apply @bounded_of_invariant _ _ _ _ _ _ State.ahead (5 * Fintype.card W + 9) hinit hkeep
    intro a l b ha h
    have hahead := h.1.ahead ha.1.counted
    cases l <;> simp only [Label.adds, Label.isCall, Label.isSpurious, Bool.or_false,
      Bool.or_true, Bool.false_eq_true, if_true, if_false] at hahead ⊢ <;> omega

/-- In every run of a pool whose tasks have a function: items leave the queue in the order they
came in, the accepted tasks before the pills, and the accepted tasks are those of the calls that
found `in_shutdown` false; each worker calls what it took, in that order and once, and takes one
pill at most. When `shutdown_done` is set each accepted task has been called once and has
returned, each worker has taken one pill, the queue is empty, and no worker takes another item.
Once `tp_shutdown` is called, whatever calls and spurious wakeups come, `shutdown_done` is set in
the end. -/
theorem tasks_run_once [Nonempty W] [Fintype D] (ls : List (Label W S D F A))
    (s : State W S D F A) (hrun : Runs TaskStep (init (Fintype.card W)) ls s) :
    s.taken.map Prod.snd ++ s.pool.workQueue =
        s.accepted ++ pills (Fintype.card W) s.pool.inShutdown ∧
      (∀ l t, Step s l t → t.accepted = s.accepted ++ s.admitted l) ∧
      (∀ wi ∈ s.accepted, wi.func ≠ none) ∧
      (∀ w, entries w s.taken = entries w s.started ++ (s.worker w).carried ∧
        entries w s.started = entries w s.returned ++ (s.worker w).current ∧
        (entries w s.taken).countP (·.func.isNone) ≤ 1) ∧
      (∀ e ∈ s.started, e.2 ∈ s.accepted) ∧
      (s.pool.inShutdown = true → ∀ ms t, Runs Step s ms t → t.accepted = s.accepted) ∧
      (s.pool.shutdownDone = true →
        s.pool.workQueue = [] ∧
          (s.started.map Prod.snd).Perm s.accepted ∧
          (∀ w, entries w s.returned = entries w s.started ∧
            (entries w s.taken).countP (·.func.isNone) = 1) ∧
          ∀ ms t, Runs Step s ms t → t.taken = s.taken) ∧
      ((∃ d, s.closer d ≠ .idle) →
        Returns TaskStep s (fun l => l.isCall || l.isSpurious) State.result ()) := by
  have hi : Kept s := hrun.invariant init_kept fun a l b ha h => h.1.kept h.2 ha
  have hl := hi.ledger
  refine ⟨hl.queue, fun l t hstep => hstep.accepted, hl.real, ?_, fun e => hl.started_accepted,
    ?_, ?_, hi.shutdown_done⟩
  · intro w
    exact ⟨(hl.carries w).carry, (hl.carries w).call, hl.pills_le w⟩
  · intro hshut ms t hmore
    exact accepted_frozen hmore hshut
  · intro hdone
    have hdead : ∀ w, (s.worker w).alive = 0 := tally_eq_zero.mp (hi.counted.done.mp hdone)
    have hempty := (hl.drained hdead).1
    exact ⟨hempty, hl.started_perm hempty hdead, fun w => hl.of_dead (hdead w),
      fun ms t hmore => taken_frozen hmore hdead⟩

end Tasks

/-- One worker runs one task, and then the pool is shut down. -/
theorem tasks_run_once_one : ∃ (ls : List (Label Unit Unit Unit Unit Unit))
    (s : State Unit Unit Unit Unit Unit), Runs TaskStep (init (Fintype.card Unit)) ls s ∧
      s.pool.shutdownDone = true ∧ s.accepted = [⟨some (), some ()⟩] ∧ s.pool.workQueue = [] ∧
      (s.started.map Prod.snd).Perm s.accepted ∧
      Returns TaskStep s (fun l => l.isCall || l.isSpurious) State.result () := by
  have hasked := Runs.single (s := (init 1 : State Unit Unit Unit Unit Unit))
    (l := Label.submit () (some ()) ()) (Step.submit rfl)
  have hlocked := hasked.snoc (l := .lockSubmit ()) (Step.accept rfl rfl rfl)
  have hqueued := hlocked.snoc (l := .unlockSubmit ()) (Step.unlockAccepted rfl)
  have hsent := hqueued.snoc (l := .signal () none) (Step.signal rfl (Signal.nobody fun _ => rfl))
  have htook := hsent.snoc (l := .check ()) (Step.take rfl rfl rfl)
  have hfetched := htook.snoc (l := .unlockTaken ()) (Step.unlockTaken rfl)
  have hcalled := hfetched.snoc (l := .start ()) (Step.start rfl (by simp))
  have hback := hcalled.snoc (l := .comeBack ()) (Step.comeBack rfl)
  have hclosing := hback.snoc (l := .shutdown ()) (Step.shutdown rfl)
  have hwaits := hclosing.snoc (l := .lockShutdown ()) (Step.beginWait rfl rfl rfl rfl)
  have htook' := hwaits.snoc (l := .check ()) (Step.take rfl rfl rfl)
  have hpill := htook'.snoc (l := .unlockTaken ()) (Step.unlockTaken rfl)
  have hset := hpill.snoc (l := .terminate ()) (Step.terminate rfl rfl rfl)
  have hgone := hset.snoc (l := .unlockLeaving ()) (Step.unlockLeaving rfl)
  have hdone : Runs TaskStep _ _ _ := hgone.mono_labels (Q := Label.HasFunc)
    (by simp [Label.HasFunc]) fun a l b hl h => ⟨h, hl⟩
  obtain ⟨_, _, _, _, _, _, hend, hreturns⟩ := tasks_run_once _ _ hdone
  obtain ⟨hempty, hperm, _⟩ := hend rfl
  have hcalls : CloserPc.woken ≠ .idle := by decide
  exact ⟨_, _, hdone, rfl, rfl, hempty, hperm, hreturns ⟨(), hcalls⟩⟩

/-- `todo` is what each thread has not begun to submit, and `closing` says which threads have
still to call `tp_shutdown`. -/
structure Program (W S D F A : Type*) where
  state : State W S D F A
  todo : S → List (F × A)
  closing : D → Bool

def task (t : F × A) : WorkItem F A := ⟨some t.1, some t.2⟩

/-- What a call of `tp_submit` still has to queue. -/
def SubmitterPc.pending : SubmitterPc F A → List (WorkItem F A)
  | .entering func arg => [⟨func, some arg⟩]
  | _ => []

def Program.left (a : Program W S D F A) (u : S) : List (WorkItem F A) :=
  (a.state.submitter u).pending ++ (a.todo u).map task

/-- Some call of `tp_shutdown` has come out of its wait. -/
def Program.Shut (a : Program W S D F A) : Prop := ∃ d, (a.state.closer d).past = true

section Programs
variable [DecidableEq W] [DecidableEq S] [DecidableEq D]

inductive PStep : Program W S D F A → Label W S D F A → Program W S D F A → Prop
  | submit {a : Program W S D F A} {s' : State W S D F A} {u : S} {func : F} {arg : A}
      {rest : List (F × A)} : a.todo u = (func, arg) :: rest →
      Step a.state (.submit u (some func) arg) s' →
      PStep a (.submit u (some func) arg) { a with state := s', todo := update a.todo u rest }
  | shutdown {a : Program W S D F A} {s' : State W S D F A} {d : D} : a.closing d = true →
      Step a.state (.shutdown d) s' →
      PStep a (.shutdown d) { a with state := s', closing := update a.closing d false }
  | run {a : Program W S D F A} {s' : State W S D F A} {l : Label W S D F A} :
      l.isCall = false → Step a.state l s' → PStep a l { a with state := s' }

variable {a b : Program W S D F A} {l : Label W S D F A}

theorem PStep.step (h : PStep a l b) : Step a.state l b.state ∧ l.HasFunc := by
  cases h with
  | submit _ hs => exact ⟨hs, Option.some_ne_none _⟩
  | shutdown _ hs => exact ⟨hs, trivial⟩
  | run hl hs =>
    refine ⟨hs, ?_⟩
    cases l with
    | submit => cases hl
    | _ => trivial

variable [Fintype W] [Fintype S] [Fintype D]

instance (a : Program W S D F A) : Decidable a.Shut :=
  inferInstanceAs (Decidable (∃ d, (a.state.closer d).past = true))

def Program.result (a : Program W S D F A) : Option Unit := if a.Shut then some () else none

def Program.ahead (a : Program W S D F A) : Nat :=
  a.state.ahead + 9 * tally List.length a.todo +
    (5 * Fintype.card W + 8) * tally Bool.toNat a.closing

def Program.items (a : Program W S D F A) : Multiset (WorkItem F A) :=
  (a.state.accepted : Multiset (WorkItem F A)) +
    Finset.univ.sum fun u => (a.left u : Multiset (WorkItem F A))

structure Program.Inv (items : Multiset (WorkItem F A)) (a : Program W S D F A) : Prop where
  kept : Kept a.state
  items : a.items ≤ items
  closer : ∃ d, a.closing d = true ∧ a.state.closer d = .idle ∨ a.state.closer d ≠ .idle

omit [Fintype W] [Fintype S] [Fintype D] in
theorem PStep.left (h : PStep a l b) :
    ((∀ v, b.left v = a.left v) ∧ b.state.accepted = a.state.accepted) ∨
      ∃ u x, a.left u = x :: b.left u ∧ (∀ v, v ≠ u → b.left v = a.left v) ∧
        (b.state.accepted = a.state.accepted ++ [x] ∨ b.state.accepted = a.state.accepted) := by
  have hsame : ∀ {submitter : S → SubmitterPc F A} {u : S} {p : SubmitterPc F A} (v : S),
      p.pending = (submitter u).pending →
        (update submitter u p v).pending = (submitter v).pending := by
    intro submitter u p v hp
    by_cases hv : v = u
    · rw [hv, update_self, hp]
    · rw [update_of_ne hv]
  cases h with
  | @submit s' u func arg rest htodo hs =>
    cases hs with
    | submit hpc =>
      refine Or.inl ⟨fun v => ?_, rfl⟩
      by_cases hv : v = u
      · subst hv
        simp [Program.left, hpc, htodo, SubmitterPc.pending, task]
      · simp [Program.left, hv]
  | shutdown _ hs =>
    cases hs with
    | shutdown => exact Or.inl ⟨fun _ => rfl, rfl⟩
  | run hl hs =>
    cases hs with
    | submit | shutdown => cases hl
    | @accept u func arg p hpc _ hsub =>
      refine Or.inr ⟨u, ⟨func, some arg⟩, ?_, fun v hv => ?_, Or.inl rfl⟩
      · simp [Program.left, hpc, SubmitterPc.pending]
      · simp [Program.left, hv]
    | @reject u func arg hpc _ _ =>
      refine Or.inr ⟨u, ⟨func, some arg⟩, ?_, fun v hv => ?_, Or.inr rfl⟩
      · simp [Program.left, hpc, SubmitterPc.pending]
      · simp [Program.left, hv]
    | unlockRejected hpc | unlockAccepted hpc | signal hpc _ =>
      refine Or.inl ⟨fun v => ?_, rfl⟩
      exact congrArg (· ++ _) (hsame v (by rw [hpc]; rfl))
    | wait | take | unlockTaken | start | comeBack | terminate | unlockLeaving | spuriousWorker
    | refuse | beginWait | beginDone | recheckWait | recheckDone | spuriousCloser | unlockRefused
    | unlockShutdown | destroyHasWork | destroyTerminated | destroyMutex =>
      exact Or.inl ⟨fun _ => rfl, rfl⟩

omit [Fintype W] [Fintype D] in
theorem PStep.items (h : PStep a l b) : b.items ≤ a.items := by
  obtain ⟨hsame, hacc⟩ | ⟨u, x, hu, hothers, hacc⟩ := h.left
  · simp only [Program.items, hsame, hacc, le_refl]
  · unfold Program.items
    rw [sum_cons (Finset.mem_univ u) hu hothers, Multiset.add_cons]
    obtain hacc | hacc := hacc
    · rw [hacc, ← Multiset.coe_add, Multiset.coe_singleton, Multiset.add_assoc,
        Multiset.singleton_add, Multiset.add_cons]
    · rw [hacc]
      exact Multiset.le_cons_self _ x

theorem PStep.ahead (h : PStep a l b)
    (hc : Counted (Fintype.card W) (tally WorkerPc.alive a.state.worker) a.state.pool) :
    b.ahead + 1 ≤ a.ahead + if l.isSpurious then 2 else 0 := by
  have hstate := h.step.1.ahead hc
  unfold Program.ahead
  cases h with
  | @submit s' u func arg rest htodo hs =>
    have hleft := tally_update List.length a.todo u rest
    rw [htodo] at hleft
    simp only [Label.adds, Label.isSpurious, List.length_cons] at hstate hleft ⊢
    omega
  | @shutdown s' d hclosing hs =>
    have hleft := tally_update Bool.toNat a.closing d false
    rw [hclosing] at hleft
    have hone : tally Bool.toNat a.closing = tally Bool.toNat (update a.closing d false) + 1 :=
      hleft.symm
    simp only [Label.adds, Label.isSpurious, hone, Nat.mul_add] at hstate ⊢
    omega
  | run hl hs =>
    have hadds : l.adds (Fintype.card W) = if l.isSpurious then 2 else 0 := by
      cases l <;> first | rfl | cases hl
    rw [hadds] at hstate
    dsimp only at hstate ⊢
    omega

omit [Fintype W] [Fintype S] [Fintype D] in
theorem PStep.closer (h : PStep a l b)
    (hi : ∃ d, a.closing d = true ∧ a.state.closer d = .idle ∨ a.state.closer d ≠ .idle) :
    ∃ d, b.closing d = true ∧ b.state.closer d = .idle ∨ b.state.closer d ≠ .idle := by
  obtain ⟨d, hd⟩ := hi
  refine ⟨d, ?_⟩
  by_cases hidle : b.state.closer d = .idle
  · refine Or.inl ⟨?_, hidle⟩
    have hbefore := h.step.1.idle_before hidle
    have hclosing : a.closing d = true := (hd.resolve_right fun hne => hne hbefore).1
    cases h with
    | submit | run => exact hclosing
    | @shutdown s' e _ hs =>
      cases hs with
      | shutdown =>
        by_cases he : d = e
        · subst he
          dsimp only at hidle
          rw [update_self] at hidle
          cases hidle
        · exact (update_of_ne he _ _).trans hclosing
  · exact Or.inr hidle

omit [Fintype D] in
theorem PStep.inv {items : Multiset (WorkItem F A)} (h : PStep a l b) (hi : a.Inv items) :
    b.Inv items :=
  ⟨h.step.1.kept h.step.2 hi.kept, h.items.trans hi.items, h.closer hi.closer⟩

omit [Fintype D] in
theorem exists_step {items : Multiset (WorkItem F A)} (hi : a.Inv items) (hnot : ¬ a.Shut) :
    ∃ l b, PStep a l b ∧ l.isSpurious = false := by
  obtain ⟨d, hd⟩ := hi.closer
  obtain ⟨hclosing, hidle⟩ | hbusy := hd
  · exact ⟨_, _, PStep.shutdown hclosing (Step.shutdown hidle), rfl⟩
  · have hpast : ∀ d, (a.state.closer d).past = false := by
      intro d
      by_contra hd
      exact hnot ⟨d, by simpa using hd⟩
    obtain ⟨l, t, hstep, hcall, hspurious⟩ := hi.kept.exists_step ⟨d, hbusy⟩ hpast
    exact ⟨l, _, PStep.run hcall hstep, hspurious⟩

/-- Threads submit a number of tasks each and some threads call `tp_shutdown`, in any order of
their steps and those of the workers and with any spurious wakeups: if the tasks return, one of
the calls comes out of its wait; then all accepted tasks have returned, each as often as it was
accepted, no worker takes another, and each task accepted was submitted. -/
theorem shutdown_completes [Nonempty W] (script : S → List (F × A)) {closing : D → Bool}
    (hcloses : ∃ d, closing d = true) :
    Returns PStep (Program.mk (init (Fintype.card W) : State W S D F A) script closing)
        Label.isSpurious Program.result () ∧
      ∀ ls (a : Program W S D F A), Runs PStep (Program.mk (init (Fintype.card W)) script closing)
        ls a → a.Shut → (a.state.returned.map Prod.snd).Perm a.state.accepted ∧
          (∀ w, (a.state.worker w).alive = 0) ∧ (a.state.accepted : Multiset (WorkItem F A)) ≤
            Finset.univ.sum fun u => ((script u).map task : Multiset (WorkItem F A)) := by
  have hinit : (Program.mk (init (Fintype.card W) : State W S D F A) script closing).Inv
      (Finset.univ.sum fun u => ((script u).map task : Multiset (WorkItem F A))) :=
    ⟨init_kept, (zero_add _).le, hcloses.imp fun d hd => Or.inl ⟨hd, rfl⟩⟩
  have hkeep : ∀ {items} (a : Program W S D F A) l b, a.Inv items → PStep a l b → b.Inv items :=
    fun _ _ _ hi h => h.inv hi
  refine ⟨⟨fun _ _ _ _ _ => rfl, ?_, ?_⟩, ?_⟩
  · intro ls a hrun hnone
    apply exists_step (hrun.invariant hinit hkeep)
    intro hshut
    rw [Program.result, if_pos hshut] at hnone
    cases hnone
  · exact bounded_of_invariant (c := 2) hinit hkeep fun a l b hi h => h.ahead hi.kept.counted
  · rintro ls a hrun ⟨e, he⟩
    have hi := hrun.invariant hinit hkeep
    obtain ⟨hperm, hdead⟩ := hi.kept.returned_perm he
    exact ⟨hperm, hdead, (Multiset.le_add_right _ _).trans hi.items⟩

end Programs

/-- Two threads submit a task each to a pool of one worker, and a third shuts it down. -/
theorem shutdown_completes_two : Returns PStep
    (Program.mk (init (Fintype.card Unit) : State Unit Bool Unit Unit Nat)
      (fun u => if u then [((), 1)] else [((), 2)]) fun _ => true)
    Label.isSpurious Program.result () := by
  have hcloses : ∃ d, (fun _ : Unit => true) d = true := ⟨(), rfl⟩
  exact (shutdown_completes (fun u : Bool => if u then [((), 1)] else [((), 2)]) hcloses).1

end OsCourse.TPool
