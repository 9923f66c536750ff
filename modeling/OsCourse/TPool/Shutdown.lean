import OsCourse.Lib.History
import OsCourse.TPool.Locked

/-! What becomes of the items of the pool: `work_queue` is a FIFO of the accepted tasks
followed by the pills of the shutdown, and each worker carries at most one of them. -/
namespace OsCourse.TPool
open Function Transition Wakeup Tally History
variable {W S D F A : Type*}

def Label.HasFunc : Label W S D F A → Prop
  | .submit _ func _ => func ≠ none
  | _ => True

/-- The task that a step queues: a call of `tp_submit` locks the mutex and finds `in_shutdown`
false. -/
def State.admitted (s : State W S D F A) : Label W S D F A → List (WorkItem F A)
  | .lockSubmit u =>
    match s.submitter u with
    | .entering func arg => if s.pool.inShutdown then [] else [⟨func, some arg⟩]
    | _ => []
  | _ => []

/-- The item removed by a worker that has neither called nor forgotten it. -/
def WorkerPc.carried : WorkerPc F A → List (WorkItem F A)
  | .took wi | .fetched wi => [wi]
  | .leaving | .exited => [pill]
  | _ => []

def WorkerPc.current : WorkerPc F A → List (WorkItem F A)
  | .running wi => [wi]
  | _ => []

structure Carries (carried current taken started returned : List (WorkItem F A)) : Prop where
  carry : taken = started ++ carried
  call : started = returned ++ current
  real : ∀ wi ∈ started, wi.func ≠ none

/-- The pills in a queue of a pool with `n` workers. -/
def pills (n : Nat) (inShutdown : Bool) : List (WorkItem F A) :=
  List.replicate (if inShutdown then n else 0) pill

section Ledger
variable [DecidableEq W]

structure Ledger (n : Nat) (s : State W S D F A) : Prop where
  entering : ∀ u func arg, s.submitter u = .entering func arg → func ≠ none
  real : ∀ wi ∈ s.accepted, wi.func ≠ none
  queue : s.taken.map Prod.snd ++ s.pool.workQueue =
    s.accepted ++ pills n s.pool.inShutdown
  carries : ∀ w, Carries (s.worker w).carried (s.worker w).current
    (entries w s.taken) (entries w s.started) (entries w s.returned)

theorem init_ledger (n : Nat) : Ledger n (init n : State W S D F A) := by
  refine ⟨?_, ?_, rfl, ?_⟩
  · intro u func arg h
    cases h
  · intro wi h
    cases h
  · intro w
    exact ⟨rfl, rfl, fun wi h => by cases h⟩

theorem Ledger.item {n : Nat} {s : State W S D F A} (h : Ledger n s) {wi : WorkItem F A}
    (hwi : wi ∈ s.taken.map Prod.snd) : wi.func ≠ none ∨ wi = pill := by
  have hmem : wi ∈ s.accepted ++ pills n s.pool.inShutdown := by
    rw [← h.queue]
    exact List.mem_append_left _ hwi
  cases List.mem_append.mp hmem with
  | inl hacc =>
    exact Or.inl (h.real wi hacc)
  | inr hpill =>
    exact Or.inr (List.eq_of_mem_replicate hpill)

theorem Ledger.carried_pill {n : Nat} {s : State W S D F A} (h : Ledger n s) {w : W}
    {wi : WorkItem F A} (hpc : s.worker w = .fetched wi) (hnull : wi.func = none) :
    wi = pill := by
  have hin : wi ∈ entries w s.taken := by
    rw [(h.carries w).carry, hpc]
    exact List.mem_append_right _ (by simp [WorkerPc.carried])
  cases h.item (mem_of_mem_entries hin) with
  | inl hreal =>
    exact absurd hnull hreal
  | inr hpill =>
    exact hpill

theorem WorkerPc.carried_wake (p q : WorkerPc F A) (h : p.wake = some q) :
    (q.carried, q.current) = (p.carried, p.current) := by
  cases p <;> cases h
  rfl

theorem WorkerPc.carried_of_checks {p : WorkerPc F A} (h : p.checks = true) :
    p.carried = [] ∧ p.current = [] := by
  cases p with
  | top | woken => exact ⟨rfl, rfl⟩
  | blocked | took | fetched | running | leaving | exited => cases h

theorem carries_move {worker : W → WorkerPc F A}
    {taken taken' started started' returned returned' : List (W × WorkItem F A)} {w : W}
    {p : WorkerPc F A}
    (h : ∀ v, Carries (worker v).carried (worker v).current (entries v taken)
      (entries v started) (entries v returned))
    (ht : ∀ v, w ≠ v → entries v taken' = entries v taken)
    (hs : ∀ v, w ≠ v → entries v started' = entries v started)
    (hr : ∀ v, w ≠ v → entries v returned' = entries v returned)
    (hw : Carries p.carried p.current (entries w taken') (entries w started')
      (entries w returned')) (v : W) :
    Carries (update worker w p v).carried (update worker w p v).current (entries v taken')
      (entries v started') (entries v returned') := by
  by_cases hv : w = v
  · subst hv
    rw [update_self]
    exact hw
  · rw [update_of_ne (Ne.symm hv), ht v hv, hs v hv, hr v hv]
    exact h v

theorem Ledger.carries_same {n : Nat} {s : State W S D F A} (h : Ledger n s)
    {worker : W → WorkerPc F A}
    (hsame : ∀ w, ((worker w).carried, (worker w).current) =
      ((s.worker w).carried, (s.worker w).current)) (w : W) :
    Carries (worker w).carried (worker w).current (entries w s.taken) (entries w s.started)
      (entries w s.returned) := by
  obtain ⟨hcarried, hcurrent⟩ := Prod.mk.inj (hsame w)
  rw [hcarried, hcurrent]
  exact h.carries w

theorem Ledger.goes_on {n : Nat} {s : State W S D F A} (h : Ledger n s) {w : W}
    {p : WorkerPc F A}
    (hsame : (p.carried, p.current) = ((s.worker w).carried, (s.worker w).current)) (v : W) :
    Carries (update s.worker w p v).carried (update s.worker w p v).current (entries v s.taken)
      (entries v s.started) (entries v s.returned) := by
  apply h.carries_same
  rw [forall_update_iff s.worker fun u q =>
    (q.carried, q.current) = ((s.worker u).carried, (s.worker u).current)]
  exact ⟨hsame, fun _ _ => rfl⟩

theorem Ledger.queue_open {n : Nat} {s : State W S D F A} (h : Ledger n s)
    (hopen : s.pool.inShutdown = false) :
    s.taken.map Prod.snd ++ s.pool.workQueue = s.accepted := by
  have hq := h.queue
  rw [hopen] at hq
  exact hq.trans (List.append_nil s.accepted)

theorem Ledger.pills_taken {n : Nat} {s : State W S D F A} (h : Ledger n s) (w : W) :
    (entries w s.taken).countP (·.func.isNone) = (s.worker w).carried.countP (·.func.isNone) := by
  have hw := h.carries w
  have hstarted : (entries w s.started).countP (·.func.isNone) = 0 := by
    rw [List.countP_eq_zero]
    intro wi hwi
    simpa using hw.real wi hwi
  rw [hw.carry, List.countP_append, hstarted, Nat.zero_add]

theorem WorkerPc.carried_of_dead {p : WorkerPc F A} (h : p.alive = 0) :
    p.carried = [pill] ∧ p.current = [] := by
  cases p with
  | leaving | exited => exact ⟨rfl, rfl⟩
  | top | blocked | woken | took | fetched | running => cases h

theorem Ledger.started_perm {n : Nat} {s : State W S D F A} (h : Ledger n s)
    (hempty : s.pool.workQueue = []) (hdead : ∀ w, (s.worker w).alive = 0) :
    (s.started.map Prod.snd).Perm s.accepted := by
  have hkeys : ∀ w, entries w (s.taken.filter fun e => e.2.func.isSome) =
      entries w s.started := by
    intro w
    have hw := h.carries w
    rw [entries_filter (fun wi : WorkItem F A => wi.func.isSome), hw.carry,
      (WorkerPc.carried_of_dead (hdead w)).1, List.filter_append]
    have hall : (entries w s.started).filter (·.func.isSome) = entries w s.started := by
      rw [List.filter_eq_self]
      intro wi hwi
      simpa [Option.isSome_iff_ne_none] using hw.real wi hwi
    rw [hall]
    simp [pill]
  have hq := congrArg (List.filter fun wi => wi.func.isSome) h.queue
  have hacc : s.accepted.filter (·.func.isSome) = s.accepted := by
    rw [List.filter_eq_self]
    intro wi hwi
    simpa [Option.isSome_iff_ne_none] using h.real wi hwi
  rw [hempty, List.append_nil, List.filter_append, hacc, List.filter_map] at hq
  have hpills : (pills n s.pool.inShutdown : List (WorkItem F A)).filter (·.func.isSome) = [] := by
    simp [pills, pill]
  rw [hpills, List.append_nil] at hq
  have hperm := (perm_of_entries hkeys).symm.map Prod.snd
  rw [← hq]
  exact hperm

theorem entering_move [DecidableEq S] {submitter : S → SubmitterPc F A} {u : S}
    {p : SubmitterPc F A}
    (h : ∀ v func arg, submitter v = .entering func arg → func ≠ none)
    (hp : ∀ func arg, p = .entering func arg → func ≠ none) :
    ∀ v func arg, update submitter u p v = .entering func arg → func ≠ none := by
  rw [forall_update_iff submitter fun _ q => ∀ func arg, q = .entering func arg → func ≠ none]
  exact ⟨hp, fun v _ => h v⟩

variable [DecidableEq S] [DecidableEq D] {s s' : State W S D F A} {l : Label W S D F A}

theorem Step.ledger {n : Nat} (h : Step s l s') (hl : l.HasFunc) (hn : s.pool.nthreads = n)
    (hi : Ledger n s) : Ledger n s' := by
  have hcar := hi.carries
  cases h with
  | @wait w hpc _ _ =>
    obtain ⟨hcarried, hcurrent⟩ := WorkerPc.carried_of_checks hpc
    exact ⟨hi.entering, hi.real, hi.queue, hi.goes_on (by rw [hcarried, hcurrent]; rfl)⟩
  | @take w wi p hpc _ htake =>
    obtain ⟨hqueue, hp⟩ := takeWork_some htake
    have hw := hcar w
    rw [(WorkerPc.carried_of_checks hpc).1, (WorkerPc.carried_of_checks hpc).2] at hw
    refine ⟨hi.entering, hi.real, ?_, carries_move hcar (fun v hv => entries_snoc_ne hv)
      (fun _ _ => rfl) (fun _ _ => rfl) ⟨?_, hw.call, hw.real⟩⟩
    · have hq := hi.queue
      rw [hqueue] at hq
      rw [hp]
      simpa using hq
    · rw [entries_snoc_self, hw.carry, List.append_nil]
      rfl
  | @unlockTaken w wi hpc =>
    exact ⟨hi.entering, hi.real, hi.queue, hi.goes_on (by rw [hpc]; rfl)⟩
  | @start w wi hpc hfunc =>
    have hw := hcar w
    rw [hpc] at hw
    refine ⟨hi.entering, hi.real, hi.queue, carries_move hcar (fun _ _ => rfl)
      (fun v hv => entries_snoc_ne hv) (fun _ _ => rfl) ⟨?_, ?_, ?_⟩⟩
    · rw [entries_snoc_self, hw.carry]
      simp [WorkerPc.carried]
    · rw [entries_snoc_self, hw.call]
      simp [WorkerPc.current]
    · rw [entries_snoc_self]
      intro x hx
      cases List.mem_append.mp hx with
      | inl hold =>
        exact hw.real x hold
      | inr hnew =>
        rw [List.mem_singleton.mp hnew]
        exact hfunc
  | @comeBack w wi hpc =>
    have hw := hcar w
    rw [hpc] at hw
    refine ⟨hi.entering, hi.real, hi.queue, carries_move hcar (fun _ _ => rfl) (fun _ _ => rfl)
      (fun v hv => entries_snoc_ne hv) ⟨hw.carry, ?_, hw.real⟩⟩
    rw [entries_snoc_self, hw.call]
    simp [WorkerPc.current]
  | @terminate w wi hpc hnull _ =>
    refine ⟨hi.entering, hi.real, ?_, hi.goes_on (by rw [hpc, hi.carried_pill hpc hnull]; rfl)⟩
    rw [workerTerminate_workQueue, workerTerminate_inShutdown]
    exact hi.queue
  | @unlockLeaving w hpc | @spuriousWorker w hpc =>
    exact ⟨hi.entering, hi.real, hi.queue, hi.goes_on (by rw [hpc]; rfl)⟩
  | @submit u func arg hpc =>
    refine ⟨entering_move hi.entering ?_, hi.real, hi.queue, hcar⟩
    intro func' arg' hv
    cases hv
    exact hl
  | @reject u _ _ hpc _ _ | @unlockRejected u hpc | @unlockAccepted u hpc =>
    refine ⟨entering_move hi.entering ?_, hi.real, hi.queue, hcar⟩
    intro func' arg' hv
    cases hv
  | @accept u func arg p hpc _ hsub =>
    obtain ⟨hopen, hp⟩ := tpSubmit_some hsub
    refine ⟨entering_move hi.entering ?_, ?_, ?_, hcar⟩
    · intro func' arg' hv
      cases hv
    · intro wi hwi
      cases List.mem_append.mp hwi with
      | inl hold =>
        exact hi.real wi hold
      | inr hnew =>
        rw [List.mem_singleton.mp hnew]
        exact hi.entering u func arg hpc
    · have hnil : pills n false = ([] : List (WorkItem F A)) := rfl
      rw [hp]
      dsimp only
      rw [hopen, hnil, ← List.append_assoc, hi.queue_open hopen, List.append_nil]
  | @signal u o worker' hpc hsig =>
    have hsame := hsig.apply (fun p => (p.carried, p.current)) WorkerPc.carried_wake
    refine ⟨entering_move hi.entering ?_, hi.real, hi.queue, hi.carries_same hsame⟩
    intro func' arg' hv
    cases hv
  | beginWait _ _ hbegin _ | beginDone _ _ hbegin _ =>
    obtain ⟨hopen, hp⟩ := tpShutdown_some hbegin
    refine ⟨hi.entering, hi.real, ?_, hi.carries_same ?_⟩
    · rw [hp, hn]
      dsimp only
      rw [← List.append_assoc, hi.queue_open hopen]
      rfl
    · exact broadcast_iff (fun p : WorkerPc F A => (p.carried, p.current)) WorkerPc.carried_wake
  | shutdown | refuse | recheckWait | recheckDone | spuriousCloser | unlockRefused
  | unlockShutdown | destroyHasWork | destroyTerminated | destroyMutex =>
    exact ⟨hi.entering, hi.real, hi.queue, hcar⟩

theorem Step.accepted (h : Step s l s') :
    s'.accepted = s.accepted ++ s.admitted l := by
  cases h with
  | reject hpc _ hsub =>
    have hshut : s.pool.inShutdown = true := by
      unfold tpSubmit at hsub
      split at hsub
      · assumption
      · cases hsub
    simp [State.admitted, hpc, hshut]
  | accept hpc _ hsub => simp [State.admitted, hpc, (tpSubmit_some hsub).1]
  | wait | take | unlockTaken | start | comeBack | terminate | unlockLeaving | spuriousWorker
  | submit | unlockRejected | unlockAccepted | signal | shutdown | refuse | beginWait | beginDone
  | recheckWait | recheckDone | spuriousCloser | unlockRefused | unlockShutdown | destroyHasWork
  | destroyTerminated | destroyMutex => exact (List.append_nil _).symm

/-- Once `in_shutdown` is set, it stays so and no task is accepted any more. -/
theorem Step.accepted_frozen (h : Step s l s') (hs : s.pool.inShutdown = true) :
    s'.pool.inShutdown = true ∧ s'.accepted = s.accepted := by
  cases h with
  | take _ _ htake =>
    rw [(takeWork_some htake).2]
    exact ⟨hs, rfl⟩
  | terminate => exact ⟨workerTerminate_inShutdown.trans hs, rfl⟩
  | accept _ _ hsub =>
    have hopen := (tpSubmit_some hsub).1
    rw [hs] at hopen
    cases hopen
  | beginWait _ _ hbegin _ | beginDone _ _ hbegin _ =>
    have hopen := (tpShutdown_some hbegin).1
    rw [hs] at hopen
    cases hopen
  | wait | unlockTaken | start | comeBack | unlockLeaving | spuriousWorker | submit | reject
  | unlockRejected | unlockAccepted | signal | shutdown | refuse | recheckWait | recheckDone
  | spuriousCloser | unlockRefused | unlockShutdown | destroyHasWork | destroyTerminated
  | destroyMutex => exact ⟨hs, rfl⟩

theorem accepted_frozen {ls : List (Label W S D F A)} (hrun : Runs Step s ls s')
    (hs : s.pool.inShutdown = true) : s'.accepted = s.accepted := by
  have hboth := hrun.invariant (P := fun a => a.pool.inShutdown = true ∧ a.accepted = s.accepted)
    ⟨hs, rfl⟩ fun a l b ha hstep => by
      obtain ⟨hb, hacc⟩ := hstep.accepted_frozen ha.1
      exact ⟨hb, hacc.trans ha.2⟩
  exact hboth.2

theorem Step.taken_frozen (h : Step s l s') (hdead : ∀ w, (s.worker w).alive = 0) :
    (∀ w, (s'.worker w).alive = 0) ∧ s'.taken = s.taken := by
  have hnot {w : W} {p : WorkerPc F A} (hp : s.worker w = p) (hp' : p.alive = 1) : False := by
    have := hdead w
    rw [hp] at this
    omega
  cases h with
  | @wait w hpc _ _ | @take w _ _ hpc _ _ =>
    exact absurd (hdead w) (by rw [WorkerPc.alive_of_checks hpc]; omega)
  | unlockTaken hpc | start hpc _ | comeBack hpc | terminate hpc _ _ | spuriousWorker hpc =>
    exact (hnot hpc rfl).elim
  | @unlockLeaving w hpc =>
    refine ⟨?_, rfl⟩
    rw [forall_update_iff s.worker fun _ q => q.alive = 0]
    exact ⟨rfl, fun v _ => hdead v⟩
  | signal _ hsig =>
    exact ⟨fun w => (hsig.apply WorkerPc.alive WorkerPc.alive_wake w).trans (hdead w), rfl⟩
  | beginWait | beginDone =>
    exact ⟨fun w => (broadcast_iff WorkerPc.alive WorkerPc.alive_wake w).trans (hdead w), rfl⟩
  | submit | reject | accept | unlockRejected | unlockAccepted | shutdown | refuse | recheckWait
  | recheckDone | spuriousCloser | unlockRefused | unlockShutdown | destroyHasWork
  | destroyTerminated | destroyMutex => exact ⟨hdead, rfl⟩

theorem taken_frozen (hrun : Runs Step s ls s') (hdead : ∀ w, (s.worker w).alive = 0) :
    s'.taken = s.taken := by
  have hboth := hrun.invariant
    (P := fun a => (∀ w, (a.worker w).alive = 0) ∧ a.taken = s.taken) ⟨hdead, rfl⟩
    fun a l b ha hstep => by
      obtain ⟨hb, htaken⟩ := hstep.taken_frozen ha.1
      exact ⟨hb, htaken.trans ha.2⟩
  exact hboth.2

end Ledger

section Drained
variable [DecidableEq W] [Fintype W] {s : State W S D F A} {ls : List (Label W S D F A)}

/-- When every worker has terminated, the last item of the queue has been taken. -/
theorem Ledger.drained [Nonempty W] (h : Ledger (Fintype.card W) s)
    (hdead : ∀ w, (s.worker w).alive = 0) :
    s.pool.workQueue = [] ∧ s.pool.inShutdown = true := by
  have hcard := Fintype.card_pos (α := W)
  have hone : ∀ w, (entries w s.taken).countP (·.func.isNone) = 1 := by
    intro w
    rw [h.pills_taken w, (WorkerPc.carried_of_dead (hdead w)).1]
    rfl
  have htaken : (s.taken.map Prod.snd).countP (·.func.isNone) = Fintype.card W := by
    rw [countP_entries, Finset.sum_congr rfl fun w _ => hone w]
    simp
  have hacc : s.accepted.countP (·.func.isNone) = 0 := by
    rw [List.countP_eq_zero]
    intro wi hwi
    simpa using h.real wi hwi
  have hcount := congrArg (List.countP (·.func.isNone)) h.queue
  rw [List.countP_append, List.countP_append, htaken, hacc] at hcount
  cases hshut : s.pool.inShutdown with
  | false =>
    rw [hshut] at hcount
    simp only [pills, Bool.false_eq_true, if_false, List.replicate_zero, List.countP_nil] at hcount
    omega
  | true =>
    refine ⟨?_, rfl⟩
    rw [hshut] at hcount
    have hpills : (pills (Fintype.card W) true : List (WorkItem F A)).countP (·.func.isNone) =
        Fintype.card W := by
      simp [pills, List.countP_replicate, pill]
    rw [hpills] at hcount
    -- a queue that is not empty would end with a pill
    obtain hnil | ⟨front, x, hx⟩ := List.eq_nil_or_concat s.pool.workQueue
    · exact hnil
    · exfalso
      have hq := h.queue
      obtain ⟨m, hm⟩ := Nat.exists_eq_succ_of_ne_zero (Nat.pos_iff_ne_zero.mp hcard)
      rw [hshut, hx, hm] at hq
      simp only [pills, if_true, List.replicate_succ', List.concat_eq_append,
        ← List.append_assoc] at hq
      have hlast := (List.append_inj' hq rfl).2
      rw [hx] at hcount
      simp only [List.concat_eq_append, List.countP_append, hlast] at hcount
      simp [pill] at hcount

variable [DecidableEq S] [DecidableEq D]

theorem counted_of_runs [Nonempty W] (hrun : Runs Step (init (Fintype.card W)) ls s) :
    Counted (Fintype.card W) (tally WorkerPc.alive s.worker) s.pool :=
  hrun.invariant (P := fun a : State W S D F A =>
    Counted (Fintype.card W) (tally WorkerPc.alive a.worker) a.pool)
    init_counted fun _ _ _ hc hstep => hstep.counted hc

theorem ledger_of_runs [Nonempty W] (hrun : Runs Step (init (Fintype.card W)) ls s)
    (hfunc : ∀ l ∈ ls, l.HasFunc) : Ledger (Fintype.card W) s := by
  have hboth := hrun.invariant_of (Q := Label.HasFunc)
    (P := fun a : State W S D F A => Ledger (Fintype.card W) a ∧
      Counted (Fintype.card W) (tally WorkerPc.alive a.worker) a.pool)
    hfunc ⟨init_ledger _, init_counted⟩ fun a l b hl hab hstep =>
      ⟨hstep.ledger hl hab.2.nthreads hab.1, hstep.counted hab.2⟩
  exact hboth.1

omit [DecidableEq S] [DecidableEq D] [Fintype W] in
theorem Ledger.pills_le {n : Nat} (h : Ledger n s) (w : W) :
    (entries w s.taken).countP (·.func.isNone) ≤ 1 := by
  rw [h.pills_taken w]
  cases s.worker w with
  | took wi | fetched wi => exact List.countP_le_length
  | leaving | exited => exact List.countP_le_length
  | top | blocked | woken | running => exact Nat.zero_le 1

omit [DecidableEq S] [DecidableEq D] [Fintype W] in
theorem Ledger.started_accepted {n : Nat} (h : Ledger n s) {e : W × WorkItem F A}
    (he : e ∈ s.started) : e.2 ∈ s.accepted := by
  have hcalled : e.2 ∈ entries e.1 s.started := mem_entries he
  have htaken : e.2 ∈ entries e.1 s.taken := by
    rw [(h.carries e.1).carry]
    exact List.mem_append_left _ hcalled
  have hmem : e.2 ∈ s.accepted ++ pills n s.pool.inShutdown := by
    rw [← h.queue]
    exact List.mem_append_left _ (mem_of_mem_entries htaken)
  cases List.mem_append.mp hmem with
  | inl hacc => exact hacc
  | inr hpill =>
    have hreal := (h.carries e.1).real e.2 hcalled
    rw [List.eq_of_mem_replicate hpill] at hreal
    exact absurd rfl hreal

omit [DecidableEq S] [DecidableEq D] [Fintype W] in
theorem Ledger.of_dead {n : Nat} (h : Ledger n s) {w : W} (hdead : (s.worker w).alive = 0) :
    entries w s.returned = entries w s.started ∧
      (entries w s.taken).countP (·.func.isNone) = 1 := by
  have hw := WorkerPc.carried_of_dead hdead
  refine ⟨?_, ?_⟩
  · rw [(h.carries w).call, hw.2, List.append_nil]
  · rw [h.pills_taken w, hw.1]
    rfl

omit [DecidableEq S] [DecidableEq D] in
theorem Ledger.returned_perm [Nonempty W] (h : Ledger (Fintype.card W) s)
    (hdead : ∀ w, (s.worker w).alive = 0) : (s.returned.map Prod.snd).Perm s.accepted := by
  have hback : s.returned.Perm s.started := perm_of_entries fun w => (h.of_dead (hdead w)).1
  exact (hback.map Prod.snd).trans (h.started_perm (h.drained hdead).1 hdead)

end Drained

end OsCourse.TPool
