import OsCourse.TPool.Shutdown

/-! No wakeup of a worker is lost, and a shutdown that waits is never stuck. -/
namespace OsCourse.TPool
open Function Transition Wakeup Tally History
variable {W S D F A : Type*}

def WorkerPc.isBlocked : WorkerPc F A → Nat
  | .blocked => 1
  | _ => 0

def WorkerPc.isWoken : WorkerPc F A → Nat
  | .woken => 1
  | _ => 0

def SubmitterPc.toSignal : SubmitterPc F A → Nat
  | .accepted | .signalling => 1
  | _ => 0

section Gauge
variable [Fintype W] [Fintype S]

def gauge (s : State W S D F A) : Gauge :=
  { items := s.pool.workQueue.length
    blocked := tally WorkerPc.isBlocked s.worker
    woken := tally WorkerPc.isWoken s.worker
    signals := tally SubmitterPc.toSignal s.submitter }

theorem broadcast_blocked (worker : W → WorkerPc F A) :
    tally WorkerPc.isBlocked (broadcast WorkerPc.wake worker) = 0 := by
  rw [tally_eq_zero]
  intro w
  cases h : worker w with
  | blocked =>
    have hw : WorkerPc.wake (worker w) = some .woken := by rw [h]; rfl
    rw [broadcast_of_some hw]
    rfl
  | top | woken | took | fetched | running | leaving | exited =>
    have hw : WorkerPc.wake (worker w) = none := by rw [h]; rfl
    rw [broadcast_of_none hw, h]
    rfl

theorem WorkerPc.not_blocked_of_checks {p : WorkerPc F A} (h : p.checks = true) :
    p.isBlocked = 0 ∧ p.isWoken ≤ 1 := by
  cases p with
  | top => exact ⟨rfl, Nat.zero_le 1⟩
  | woken => exact ⟨rfl, Nat.le_refl 1⟩
  | blocked | took | fetched | running | leaving | exited => cases h

theorem WorkerPc.wake_of_blocked (p : WorkerPc F A) (h : 0 < p.isBlocked) : p.wake ≠ none := by
  cases p with
  | blocked =>
    intro hw
    cases hw
  | top | woken | took | fetched | running | leaving | exited => cases h

theorem WorkerPc.wake_moves (p q : WorkerPc F A) (h : p.wake = some q) :
    p.isBlocked = q.isBlocked + 1 ∧ q.isWoken = p.isWoken + 1 := by
  cases p <;> cases h
  exact ⟨rfl, rfl⟩

variable [DecidableEq W] [DecidableEq S] [DecidableEq D]
  {s s' : State W S D F A} {l : Label W S D F A}

/-- Every step of the pool is a move of the gauge of `has_work`. -/
theorem Step.move (h : Step s l s') : (gauge s).Move (gauge s') := by
  cases h with
  | wait _ _ htake =>
    apply Gauge.Move.sleep
    simp [gauge, takeWork_none htake]
  | @take w wi p hpc _ htake =>
    obtain ⟨hb, hk⟩ := WorkerPc.not_blocked_of_checks hpc
    have h1 := tally_update WorkerPc.isBlocked s.worker w (.took wi)
    have h2 := tally_update WorkerPc.isWoken s.worker w (.took wi)
    have hz : (WorkerPc.took wi).isBlocked = 0 := rfl
    have hz' : (WorkerPc.took wi).isWoken = 0 := rfl
    apply Gauge.Move.take
    · simp [gauge, (takeWork_some htake).1]
    · simp only [gauge]
      omega
    · simp only [gauge]
      omega
    · rfl
  | unlockTaken hpc | start hpc _ | comeBack hpc | unlockLeaving hpc =>
    exact Gauge.Move.same rfl (tally_same (by rw [hpc]; rfl)) (tally_same (by rw [hpc]; rfl)) rfl
  | terminate hpc _ _ =>
    apply Gauge.Move.same
    · simp only [gauge, workerTerminate]
      split_ifs <;> rfl
    · exact tally_same (by rw [hpc]; rfl)
    · exact tally_same (by rw [hpc]; rfl)
    · rfl
  | @spuriousWorker w hpc =>
    have h1 := tally_update WorkerPc.isBlocked s.worker w .woken
    have h2 := tally_update WorkerPc.isWoken s.worker w .woken
    rw [hpc] at h1 h2
    exact Gauge.Move.wake rfl h1 h2 (Nat.le_succ _)
  | submit hpc | reject hpc _ _ | unlockRejected hpc | unlockAccepted hpc =>
    exact Gauge.Move.same rfl rfl rfl (tally_same (by rw [hpc]; rfl))
  | @accept u func arg p hpc _ hsub =>
    have h1 := tally_update SubmitterPc.toSignal s.submitter u .accepted
    rw [hpc] at h1
    apply Gauge.Move.produce
    · simp [gauge, (tpSubmit_some hsub).2]
    · rfl
    · rfl
    · exact h1
  | @signal u o worker' hpc hsig =>
    have h1 := tally_update SubmitterPc.toSignal s.submitter u .idle
    rw [hpc] at h1
    obtain ⟨h2, h3⟩ | ⟨h2, _⟩ := hsig.moves WorkerPc.isBlocked WorkerPc.isWoken
      WorkerPc.wake_of_blocked WorkerPc.wake_moves
    · exact Gauge.Move.wake rfl h2.symm h3 h1.symm.le
    · exact Gauge.Move.empty h2
  | beginWait | beginDone => exact Gauge.Move.empty (broadcast_blocked s.worker)
  | shutdown | refuse | recheckWait | recheckDone | spuriousCloser | unlockRefused
  | unlockShutdown | destroyHasWork | destroyTerminated | destroyMutex =>
    exact Gauge.Move.same rfl rfl rfl rfl

theorem covered_runs {n : Int} {ls : List (Label W S D F A)} (hrun : Runs Step (init n) ls s) :
    (gauge s).Covered := by
  apply covered_of_runs gauge hrun
  · intro a l b hstep
    exact hstep.move
  · exact (tally_const WorkerPc.isBlocked WorkerPc.top).trans (Nat.mul_zero _)

end Gauge

/-- A step of the pool's own code: no wakeup without a signal, no return of a task and
no new call. -/
def Label.ofPool : Label W S D F A → Bool
  | .spuriousWorker _ | .spuriousCloser _ | .comeBack _ | .submit _ _ _ | .shutdown _ => false
  | _ => true

def Label.unlocks : Label W S D F A → Bool
  | .unlockTaken _ | .unlockLeaving _ | .unlockSubmit _ | .unlockShutdown _ => true
  | _ => false

section Enabled
variable [DecidableEq W] [DecidableEq S] [DecidableEq D] {s : State W S D F A}

def Enabled (s : State W S D F A) : Prop := ∃ l t, Step s l t ∧ l.ofPool = true

theorem exists_unlock {x : Party W S D} (ho : Owned s.held s.holder) (hx : s.holder = some x) :
    ∃ l t, Step s l t ∧ l.unlocks = true := by
  have hheld := (ho x).mpr hx
  cases x with
  | worker w =>
    cases hpc : s.worker w with
    | took wi => exact ⟨_, _, Step.unlockTaken hpc, rfl⟩
    | leaving => exact ⟨_, _, Step.unlockLeaving hpc, rfl⟩
    | top | blocked | woken | fetched | running | exited =>
      simp [State.held, heldBy, hpc, WorkerPc.holds] at hheld
  | submitter u =>
    cases hpc : s.submitter u with
    | rejected => exact ⟨_, _, Step.unlockRejected hpc, rfl⟩
    | accepted => exact ⟨_, _, Step.unlockAccepted hpc, rfl⟩
    | idle | entering | signalling =>
      simp [State.held, heldBy, hpc, SubmitterPc.holds] at hheld
  | closer d =>
    cases hpc : s.closer d with
    | refused => exact ⟨_, _, Step.unlockRefused hpc, rfl⟩
    | leaving => exact ⟨_, _, Step.unlockShutdown hpc, rfl⟩
    | idle | entering | turnedAway | blocked | woken | freeHasWork | freeTerminated | freeMutex
    | finished => simp [State.held, heldBy, hpc, CloserPc.holds] at hheld

theorem enabled_of_holder {x : Party W S D} (ho : Owned s.held s.holder)
    (hx : s.holder = some x) : Enabled s := by
  obtain ⟨l, t, hstep, hl⟩ := exists_unlock ho hx
  refine ⟨l, t, hstep, ?_⟩
  cases l <;> first | rfl | cases hl

theorem enabled_of_checks {w : W} (hfree : s.holder = none)
    (hpc : (s.worker w).checks = true) : Enabled s := by
  cases htake : takeWork s.pool with
  | none => exact ⟨_, _, Step.wait hpc hfree htake, rfl⟩
  | some r => exact ⟨_, _, Step.take hpc hfree htake, rfl⟩

/-- An item that waits for sleeping workers has a wakeup on its way. -/
theorem enabled_of_covered [Fintype W] [Fintype S] (ho : Owned s.held s.holder)
    (hcov : (gauge s).Covered) (hfree : s.holder = none) (hitems : s.pool.workQueue ≠ [])
    {w : W} (hpc : s.worker w = .blocked) : Enabled s := by
  have hblocked : 0 < (gauge s).blocked := by
    have := le_tally WorkerPc.isBlocked s.worker w
    rw [hpc] at this
    exact this
  have hle := hcov hblocked
  have hlen : 0 < (gauge s).items := List.length_pos_of_ne_nil hitems
  cases Nat.eq_zero_or_pos (gauge s).woken with
  | inl hzero =>
    have hsig : 0 < (gauge s).signals := by omega
    obtain ⟨u, hu⟩ := exists_of_tally hsig
    cases hpu : s.submitter u with
    | accepted =>
      have hnot := (hfree ▸ ho).free (.submitter u)
      simp [State.held, heldBy, hpu, SubmitterPc.holds] at hnot
    | signalling =>
      obtain ⟨o, worker', hsignal⟩ := exists_signal WorkerPc.wake s.worker
      exact ⟨_, _, Step.signal hpu hsignal, rfl⟩
    | idle | entering | rejected =>
      rw [hpu] at hu
      cases hu
  | inr hpos =>
    obtain ⟨v, hv⟩ := exists_of_tally hpos
    apply enabled_of_checks hfree (w := v)
    cases hpv : s.worker v with
    | woken => rfl
    | top | blocked | took | fetched | running | leaving | exited =>
      rw [hpv] at hv
      cases hv

end Enabled

section Stuck
variable [DecidableEq W] [Fintype W] {s : State W S D F A}

theorem length_entries {ι : Type*} (l : List (W × ι)) :
    l.length = ∑ w, (entries w l).length := by
  have h := countP_entries (l := l) fun _ => true
  simpa using h

theorem Ledger.started_le {n : Nat} (h : Ledger n s) : s.started.length ≤ s.accepted.length := by
  have hkeys : ∀ w, (entries w s.started).length ≤
      (entries w s.taken).countP (·.func.isSome) := by
    intro w
    have hw := h.carries w
    have hall : (entries w s.started).countP (·.func.isSome) = (entries w s.started).length := by
      rw [List.countP_eq_length]
      intro wi hwi
      simpa [Option.isSome_iff_ne_none] using hw.real wi hwi
    rw [hw.carry, List.countP_append, hall]
    omega
  have htaken := countP_entries (l := s.taken) (·.func.isSome)
  have hq := congrArg (List.countP (·.func.isSome)) h.queue
  have hpills : (pills n s.pool.inShutdown : List (WorkItem F A)).countP (·.func.isSome) = 0 := by
    simp [pills, List.countP_replicate, pill]
  rw [List.countP_append, List.countP_append, hpills] at hq
  have hacc : s.accepted.countP (·.func.isSome) ≤ s.accepted.length := List.countP_le_length
  calc s.started.length = ∑ w, (entries w s.started).length := length_entries s.started
    _ ≤ ∑ w, (entries w s.taken).countP (·.func.isSome) := Finset.sum_le_sum fun w _ => hkeys w
    _ = (s.taken.map Prod.snd).countP (·.func.isSome) := htaken.symm
    _ ≤ s.accepted.length := by omega

theorem Ledger.returned_lt {n : Nat} (h : Ledger n s) {w : W} {wi : WorkItem F A}
    (hpc : s.worker w = .running wi) : s.returned.length < s.accepted.length := by
  have hlt : s.returned.length < s.started.length := by
    rw [length_entries s.returned, length_entries s.started]
    apply Finset.sum_lt_sum
    · intro v _
      rw [(h.carries v).call, List.length_append]
      omega
    · refine ⟨w, Finset.mem_univ w, ?_⟩
      rw [(h.carries w).call, hpc, List.length_append]
      simp [WorkerPc.current]
  exact hlt.trans_le h.started_le

theorem Ledger.queue_ne_nil (h : Ledger (Fintype.card W) s) (hshut : s.pool.inShutdown = true)
    {w : W} (hpc : (s.worker w).carried = []) : s.pool.workQueue ≠ [] := by
  intro hnil
  have hcount := congrArg (List.countP (·.func.isNone)) h.queue
  have hpills : (pills (Fintype.card W) true : List (WorkItem F A)).countP (·.func.isNone) =
      Fintype.card W := by
    simp [pills, List.countP_replicate, pill]
  rw [hnil, List.append_nil, List.countP_append, hshut, hpills, countP_entries] at hcount
  have hone : ∀ v, (entries v s.taken).countP (·.func.isNone) ≤ 1 := by
    intro v
    rw [h.pills_taken v]
    cases s.worker v with
    | took wi | fetched wi => exact List.countP_le_length
    | leaving | exited => exact List.countP_le_length
    | top | blocked | woken | running => exact Nat.zero_le 1
  have hge : Fintype.card W ≤ ∑ v, (entries v s.taken).countP (·.func.isNone) := by omega
  have hall : (entries w s.taken).countP (·.func.isNone) = 1 :=
    all_of_tally (w := List.countP fun wi : WorkItem F A => wi.func.isNone) hone hge w
  rw [h.pills_taken w, hpc] at hall
  cases hall

variable [Fintype S] [DecidableEq S] [DecidableEq D] {ls : List (Label W S D F A)}

/-- In every run: while a worker is blocked on `has_work`, each item of the queue has a
submitter that is still to signal or a woken worker that has not looked at the queue; and
while a shutdown waits after all accepted tasks have returned, the pool can go on. -/
theorem no_lost_wakeup [Nonempty W] (ls : List (Label W S D F A)) (s : State W S D F A)
    (hrun : Runs Step (init (Fintype.card W)) ls s) (hfunc : ∀ l ∈ ls, l.HasFunc) :
    ((∃ w, s.worker w = .blocked) → s.pool.workQueue.length ≤
        tally SubmitterPc.toSignal s.submitter + tally WorkerPc.isWoken s.worker) ∧
      (∀ d, s.closer d = .blocked → (s.returned.map Prod.snd).Perm s.accepted →
        s.pool.shutdownDone = false → ∃ l t, Step s l t ∧ l.ofPool = true) := by
  have hcov := covered_runs hrun
  refine ⟨?_, ?_⟩
  · rintro ⟨w, hpc⟩
    apply hcov
    have := le_tally WorkerPc.isBlocked s.worker w
    rw [hpc] at this
    exact this
  · intro d hd hall hdone
    have ho := hrun.invariant (P := fun a : State W S D F A => Owned a.held a.holder)
      (init_owned _) fun a l b ha hstep => hstep.owned ha
    have hbegan := hrun.invariant (P := fun a : State W S D F A =>
      ∀ d, (a.closer d).began = true → a.pool.inShutdown = true)
      (fun d hd => by cases hd) fun a l b ha hstep => hstep.began ha
    have hl := ledger_of_runs hrun hfunc
    have hc := counted_of_runs hrun
    have hshut := hbegan d (by rw [hd]; rfl)
    have hlen : s.returned.length = s.accepted.length := by
      simpa using hall.length_eq
    have halive : 0 < tally WorkerPc.alive s.worker := by
      have := hc.done
      rw [hdone] at this
      by_contra hzero
      simpa using this.mpr (by omega)
    obtain ⟨w, hw⟩ := exists_of_tally halive
    cases hholder : s.holder with
    | some x => exact enabled_of_holder ho hholder
    | none =>
      cases hpc : s.worker w with
      | top => exact enabled_of_checks hholder (w := w) (by rw [hpc]; rfl)
      | woken => exact enabled_of_checks hholder (w := w) (by rw [hpc]; rfl)
      | blocked =>
        have hcarried : (s.worker w).carried = [] := by
          rw [hpc]
          rfl
        exact enabled_of_covered ho hcov hholder (hl.queue_ne_nil hshut hcarried) hpc
      | took wi =>
        have hnot := (hholder ▸ ho).free (.worker w)
        simp [State.held, heldBy, hpc, WorkerPc.holds] at hnot
      | fetched wi =>
        by_cases hnull : wi.func = none
        · exact ⟨_, _, Step.terminate hpc hnull hholder, rfl⟩
        · exact ⟨_, _, Step.start hpc hnull, rfl⟩
      | running wi =>
        have := hl.returned_lt hpc
        omega
      | leaving | exited =>
        rw [hpc] at hw
        cases hw

end Stuck

theorem no_lost_wakeup_one : (∃ (ls : List (Label Unit Unit Unit Unit Unit))
    (s : State Unit Unit Unit Unit Unit), Runs Step (init (Fintype.card Unit)) ls s ∧
      s.worker () = .blocked ∧ s.pool.workQueue.length = 1 ∧
      1 ≤ tally SubmitterPc.toSignal s.submitter + tally WorkerPc.isWoken s.worker) ∧
    ∃ (ls : List (Label Unit Unit Unit Unit Unit)) (s : State Unit Unit Unit Unit Unit),
      Runs Step (init (Fintype.card Unit)) ls s ∧ s.closer () = .blocked ∧
      ∃ l t, Step s l t ∧ l.ofPool = true := by
  have hwaits := Runs.single (s := (init 1 : State Unit Unit Unit Unit Unit))
    (l := Label.check ()) (Step.wait rfl rfl rfl)
  have hasked := hwaits.snoc (l := .submit () (some ()) ()) (Step.submit rfl)
  have hqueued := hasked.snoc (l := .lockSubmit ()) (Step.accept rfl rfl rfl)
  have hclosing := hwaits.snoc (l := .shutdown ()) (Step.shutdown rfl)
  have hbegun := hclosing.snoc (l := .lockShutdown ()) (Step.beginWait rfl rfl rfl rfl)
  have hsignal := (no_lost_wakeup _ _ hqueued (by simp [Label.HasFunc])).1 ⟨(), rfl⟩
  have hgoes := (no_lost_wakeup _ _ hbegun (by simp [Label.HasFunc])).2 () rfl (List.Perm.refl _)
    rfl
  exact ⟨⟨_, _, hqueued, rfl, rfl, hsignal⟩, ⟨_, _, hbegun, rfl, hgoes⟩⟩

end OsCourse.TPool
