import OsCourse.TPool.Shutdown

/-! The return of `tp_shutdown`, for any number of calls: the one that set `in_shutdown`
waits for the workers, and the others leave at once. -/
namespace OsCourse.TPool
open Function Transition Wakeup Tally History
variable {W S D F A : Type*}

/-- The call has seen `shutdown_done`. -/
def CloserPc.served : CloserPc → Bool
  | .leaving | .freeHasWork | .freeTerminated | .freeMutex | .finished => true
  | _ => false

/-- The call found `in_shutdown` set. -/
def CloserPc.late : CloserPc → Bool
  | .refused | .turnedAway => true
  | _ => false

def CloserPc.returned : CloserPc → Bool
  | .turnedAway | .finished => true
  | _ => false

def CloserPc.waits : CloserPc → Bool
  | .blocked | .woken => true
  | _ => false

/-- What a step can do to one call of `tp_shutdown`. -/
inductive CloserMove (s s' : State W S D F A) (l : Label W S D F A) (d : D) : Prop
  | stay (h : s'.closer d = s.closer d)
  | enter (hp : s.closer d = .idle) (h : s'.closer d = .entering)
  | refuse (hp : s.closer d = .entering) (hs : s.pool.inShutdown = true)
      (h : s'.closer d = .refused)
  | begins (hl : l = .lockShutdown d) (hp : s.closer d = .entering)
      (hs : s.pool.inShutdown = false)
      (h : s'.closer d = .blocked ∨ s'.closer d = .leaving ∧ s'.pool.shutdownDone = true)
  | wait (hp : (s.closer d).waits = true) (h : (s'.closer d).waits = true)
  | leave (hp : s.closer d = .woken) (h : s'.closer d = .leaving)
      (hs : s.pool.shutdownDone = true)
  | turnAway (hp : s.closer d = .refused) (h : s'.closer d = .turnedAway)
  | free (hp : (s.closer d).served = true) (h : (s'.closer d).served = true)

theorem CloserPc.of_waits {p : CloserPc} (h : p.waits = true) :
    p.began = true ∧ p.served = false ∧ p.late = false := by
  cases p <;> first | exact ⟨rfl, rfl, rfl⟩ | cases h

theorem CloserPc.of_served {p : CloserPc} (h : p.served = true) :
    p.began = true ∧ p.late = false := by
  cases p <;> first | exact ⟨rfl, rfl⟩ | cases h

theorem CloserPc.served_of_returned {p : CloserPc} (h : p.began = true)
    (hr : p.returned = true) : p.served = true := by
  revert h hr
  cases p <;> decide

theorem CloserPc.late_of_returned {p : CloserPc} (h : p.began = false)
    (hr : p.returned = true) : p.late = true := by
  revert h hr
  cases p <;> decide

section Moves
variable {s s' : State W S D F A} {l : Label W S D F A}

theorem CloserMove.began {d : D} (h : CloserMove s s' l d)
    (hd : (s'.closer d).began = true) :
    (s.closer d).began = true ∨ l = .lockShutdown d ∧ s.pool.inShutdown = false := by
  cases h with
  | stay h =>
    rw [h] at hd
    exact Or.inl hd
  | begins hl _ hs _ => exact Or.inr ⟨hl, hs⟩
  | wait hp _ => exact Or.inl (CloserPc.of_waits hp).1
  | free hp _ => exact Or.inl (CloserPc.of_served hp).1
  | leave hp _ _ =>
    rw [hp]
    exact Or.inl rfl
  | enter _ h | refuse _ _ h | turnAway _ h =>
    rw [h] at hd
    cases hd

theorem CloserMove.served {d : D} (h : CloserMove s s' l d)
    (hkeep : s.pool.shutdownDone = true → s'.pool.shutdownDone = true)
    (hi : (s.closer d).served = true → s.pool.shutdownDone = true)
    (hd : (s'.closer d).served = true) : s'.pool.shutdownDone = true := by
  cases h with
  | stay h =>
    rw [h] at hd
    exact hkeep (hi hd)
  | begins _ _ _ h =>
    cases h with
    | inl h =>
      rw [h] at hd
      cases hd
    | inr h => exact h.2
  | leave _ _ hs => exact hkeep hs
  | free hp _ => exact hkeep (hi hp)
  | wait _ h =>
    rw [(CloserPc.of_waits h).2.1] at hd
    cases hd
  | enter _ h | refuse _ _ h | turnAway _ h =>
    rw [h] at hd
    cases hd

theorem CloserMove.late {d : D} (h : CloserMove s s' l d)
    (hkeep : s.pool.inShutdown = true → s'.pool.inShutdown = true)
    (hi : (s.closer d).late = true → s.pool.inShutdown = true)
    (hd : (s'.closer d).late = true) : s'.pool.inShutdown = true := by
  cases h with
  | stay h =>
    rw [h] at hd
    exact hkeep (hi hd)
  | refuse _ hs _ => exact hkeep hs
  | turnAway hp _ => exact hkeep (hi (by rw [hp]; rfl))
  | begins _ _ _ h =>
    cases h with
    | inl h =>
      rw [h] at hd
      cases hd
    | inr h =>
      rw [h.1] at hd
      cases hd
  | wait _ h =>
    rw [(CloserPc.of_waits h).2.2] at hd
    cases hd
  | free _ h =>
    rw [(CloserPc.of_served h).2] at hd
    cases hd
  | enter _ h | leave _ h _ =>
    rw [h] at hd
    cases hd

end Moves

/-- What the calls of `tp_shutdown` have seen. -/
structure Attended (s : State W S D F A) : Prop where
  began : ∀ d, (s.closer d).began = true → s.pool.inShutdown = true
  one : ∀ d e, (s.closer d).began = true → (s.closer e).began = true → d = e
  late : ∀ d, (s.closer d).late = true → s.pool.inShutdown = true
  served : ∀ d, (s.closer d).served = true → s.pool.shutdownDone = true

theorem init_attended (n : Int) : Attended (init n : State W S D F A) := by
  refine ⟨?_, ?_, ?_, ?_⟩
  · intro d hd
    cases hd
  · intro d e hd
    cases hd
  · intro d hd
    cases hd
  · intro d hd
    cases hd

/-- The item between its removal and its call or the second section. -/
def WorkerPc.item : WorkerPc F A → Option (WorkItem F A)
  | .took wi | .fetched wi => some wi
  | _ => none

theorem WorkerPc.item_wake (p q : WorkerPc F A) (h : p.wake = some q) :
    (q.item, q.alive) = (p.item, p.alive) := by
  cases p <;> cases h
  rfl

/-- A worker at point `p` removed the item it carries, and one without a function when it
has terminated. -/
def Removed (taken : List (W × WorkItem F A)) (w : W) (p : WorkerPc F A) : Prop :=
  (∀ wi, p.item = some wi → (w, wi) ∈ taken) ∧
    (p.alive = 0 → ∃ wi, (w, wi) ∈ taken ∧ wi.func = none)

theorem removed_congr {taken : List (W × WorkItem F A)} {w : W} {p q : WorkerPc F A}
    (h : (q.item, q.alive) = (p.item, p.alive)) (hp : Removed taken w p) :
    Removed taken w q := by
  obtain ⟨hitem, halive⟩ := Prod.mk.inj h
  unfold Removed
  rw [hitem, halive]
  exact hp

theorem Removed.mono {taken more : List (W × WorkItem F A)} {w : W} {p : WorkerPc F A}
    (h : Removed taken w p) : Removed (taken ++ more) w p := by
  refine ⟨?_, ?_⟩
  · intro wi hwi
    exact List.mem_append_left _ (h.1 wi hwi)
  · intro hp
    obtain ⟨wi, hwi, hnull⟩ := h.2 hp
    exact ⟨wi, List.mem_append_left _ hwi, hnull⟩

theorem removed_of_alive {taken : List (W × WorkItem F A)} {w : W} {p : WorkerPc F A}
    (hitem : p.item = none) (halive : p.alive = 1) : Removed taken w p := by
  refine ⟨?_, ?_⟩
  · intro wi hwi
    rw [hitem] at hwi
    cases hwi
  · intro hp
    rw [halive] at hp
    cases hp

theorem tpShutdown_none {p : Pool F A} (h : tpShutdown p = none) : p.inShutdown = true := by
  unfold tpShutdown at h
  split at h
  · assumption
  · cases h

theorem closer_update [DecidableEq D] (closer : D → CloserPc) (d e : D) (p : CloserPc) :
    (e = d ∧ update closer d p e = p) ∨ update closer d p e = closer e := by
  by_cases he : e = d
  · rw [he, update_self]
    exact Or.inl ⟨rfl, rfl⟩
  · exact Or.inr (update_of_ne he p closer)

section Steps
variable [DecidableEq W] [DecidableEq S] [DecidableEq D]
  {s s' : State W S D F A} {l : Label W S D F A}

theorem Step.closer_move (h : Step s l s') (e : D) : CloserMove s s' l e := by
  cases h with
  | terminate =>
    by_cases hlast : (workerTerminate s.pool).remainingThreads = 0
    · obtain ⟨_, he⟩ | ⟨p, hp, he⟩ := broadcast_cases CloserPc.wake s.closer e
      · exact CloserMove.stay (by simp only [hlast, if_true, he])
      · have hmove : (s.closer e).waits = true ∧ p.waits = true := by
          cases hpc : s.closer e <;> rw [hpc] at hp <;> cases hp
          exact ⟨rfl, rfl⟩
        exact CloserMove.wait hmove.1 (by simp only [hlast, if_true, he, hmove.2])
    · exact CloserMove.stay (by simp only [hlast, if_false])
  | @shutdown d hpc =>
    obtain ⟨rfl, he⟩ | he := closer_update s.closer d e .entering
    · exact CloserMove.enter hpc he
    · exact CloserMove.stay he
  | @refuse d hpc _ hlate =>
    obtain ⟨rfl, he⟩ | he := closer_update s.closer d e .refused
    · exact CloserMove.refuse hpc (tpShutdown_none hlate) he
    · exact CloserMove.stay he
  | @beginWait d p hpc _ hbegin _ =>
    obtain ⟨rfl, he⟩ | he := closer_update s.closer d e .blocked
    · exact CloserMove.begins rfl hpc (tpShutdown_some hbegin).1 (Or.inl he)
    · exact CloserMove.stay he
  | @beginDone d p hpc _ hbegin hdone =>
    obtain ⟨rfl, he⟩ | he := closer_update s.closer d e .leaving
    · exact CloserMove.begins rfl hpc (tpShutdown_some hbegin).1 (Or.inr ⟨he, hdone⟩)
    · exact CloserMove.stay he
  | @recheckWait d hpc _ _ | @spuriousCloser d hpc =>
    obtain ⟨rfl, he⟩ | he := closer_update s.closer d e _
    · exact CloserMove.wait (congrArg CloserPc.waits hpc) (congrArg CloserPc.waits he)
    · exact CloserMove.stay he
  | @recheckDone d hpc _ hdone =>
    obtain ⟨rfl, he⟩ | he := closer_update s.closer d e .leaving
    · exact CloserMove.leave hpc he hdone
    · exact CloserMove.stay he
  | @unlockRefused d hpc =>
    obtain ⟨rfl, he⟩ | he := closer_update s.closer d e .turnedAway
    · exact CloserMove.turnAway hpc he
    · exact CloserMove.stay he
  | @unlockShutdown d hpc | @destroyHasWork d hpc | @destroyTerminated d hpc
  | @destroyMutex d hpc =>
    obtain ⟨rfl, he⟩ | he := closer_update s.closer d e _
    · exact CloserMove.free (congrArg CloserPc.served hpc) (congrArg CloserPc.served he)
    · exact CloserMove.stay he
  | wait | take | unlockTaken | start | comeBack | unlockLeaving | spuriousWorker | submit
  | reject | accept | unlockRejected | unlockAccepted | signal => exact CloserMove.stay rfl

theorem Step.done_stays (h : Step s l s') (hd : s.pool.shutdownDone = true) :
    s'.pool.shutdownDone = true := by
  cases h with
  | take _ _ htake => rw [(takeWork_some htake).2]; exact hd
  | terminate => exact workerTerminate_done hd
  | accept _ _ hsub => rw [(tpSubmit_some hsub).2]; exact hd
  | beginWait _ _ hbegin _ | beginDone _ _ hbegin _ => rw [(tpShutdown_some hbegin).2]; exact hd
  | wait | unlockTaken | start | comeBack | unlockLeaving | spuriousWorker | submit | reject
  | unlockRejected | unlockAccepted | signal | shutdown | refuse | recheckWait | recheckDone
  | spuriousCloser | unlockRefused | unlockShutdown | destroyHasWork | destroyTerminated
  | destroyMutex => exact hd

theorem Step.attended (h : Step s l s') (hi : Attended s) : Attended s' := by
  refine ⟨h.began hi.began, ?_, ?_, ?_⟩
  · intro d e hd he
    cases (h.closer_move d).began hd with
    | inl hd =>
      cases (h.closer_move e).began he with
      | inl he => exact hi.one d e hd he
      | inr he =>
        have hshut := hi.began d hd
        rw [he.2] at hshut
        cases hshut
    | inr hd =>
      cases (h.closer_move e).began he with
      | inl he =>
        have hshut := hi.began e he
        rw [hd.2] at hshut
        cases hshut
      | inr he => exact Label.lockShutdown.inj (hd.1.symm.trans he.1)
  · intro d hd
    exact (h.closer_move d).late (fun hs => (h.accepted_frozen hs).1) (hi.late d) hd
  · intro d hd
    exact (h.closer_move d).served h.done_stays (hi.served d) hd

theorem Step.removed (h : Step s l s') (hi : ∀ w, Removed s.taken w (s.worker w)) :
    ∀ w, Removed s'.taken w (s'.worker w) := by
  have move {w : W} {p : WorkerPc F A} (hp : Removed s.taken w p) :
      ∀ v, Removed s.taken v (update s.worker w p v) := by
    rw [forall_update_iff s.worker fun v q => Removed s.taken v q]
    exact ⟨hp, fun v _ => hi v⟩
  cases h with
  | wait | comeBack | spuriousWorker | start => exact move (removed_of_alive rfl rfl)
  | @take w wi p _ _ _ =>
    rw [forall_update_iff s.worker fun v q => Removed (s.taken ++ [(w, wi)]) v q]
    refine ⟨⟨?_, ?_⟩, fun v _ => (hi v).mono⟩
    · intro x hx
      cases hx
      exact List.mem_append_right _ (by simp)
    · intro hp
      cases hp
  | @unlockTaken w wi hpc =>
    apply move
    have hw := hi w
    rw [hpc] at hw
    exact hw
  | @terminate w wi hpc hnull _ =>
    apply move
    have hw := hi w
    rw [hpc] at hw
    refine ⟨?_, ?_⟩
    · intro x hx
      cases hx
    · intro _
      exact ⟨wi, hw.1 wi rfl, hnull⟩
  | @unlockLeaving w hpc =>
    apply move
    have hw := hi w
    rw [hpc] at hw
    exact hw
  | signal _ hsig =>
    intro w
    exact removed_congr (hsig.apply (fun p => (p.item, p.alive)) WorkerPc.item_wake w) (hi w)
  | beginWait | beginDone =>
    intro w
    let f (p : WorkerPc F A) := (p.item, p.alive)
    have hsame : f (broadcast WorkerPc.wake s.worker w) = f (s.worker w) :=
      broadcast_iff f WorkerPc.item_wake w
    exact removed_congr hsame (hi w)
  | submit | reject | accept | unlockRejected | unlockAccepted | shutdown | refuse | recheckWait
  | recheckDone | spuriousCloser | unlockRefused | unlockShutdown | destroyHasWork
  | destroyTerminated | destroyMutex => exact hi

/-- A call that finds `in_shutdown` set leaves the pool as it is and returns. -/
theorem late_call {d : D} (hpc : s.closer d = .entering) (hfree : s.holder = none)
    (hshut : s.pool.inShutdown = true) :
    (∃ t, Runs Step s [.lockShutdown d, .unlockShutdown d] t) ∧
    ∀ t, Runs Step s [.lockShutdown d, .unlockShutdown d] t →
      t.closer d = .turnedAway ∧ t.pool = s.pool := by
  constructor
  · have hlate : tpShutdown s.pool = none := by rw [tpShutdown, hshut]; rfl
    have hlock := Runs.single (Step.refuse hpc hfree hlate)
    have hboth := hlock.snoc (l := .unlockShutdown d) (Step.unlockRefused (update_self _ _ _))
    exact ⟨_, hboth⟩
  · intro t ht
    have hsplit : Runs Step s (([] ++ [.lockShutdown d]) ++ [.unlockShutdown d]) t := ht
    obtain ⟨u, hfirst, hunlock⟩ := hsplit.snoc_inv
    obtain ⟨u', hnil, hlock⟩ := hfirst.snoc_inv
    have hsame := hnil.nil_inv
    subst hsame
    cases hlock with
    | refuse =>
      cases hunlock with
      | unlockRefused => exact ⟨update_self _ _ _, rfl⟩
      | unlockShutdown hleave => exact absurd hleave (by simp)
    | beginWait _ _ hbegin _ | beginDone _ _ hbegin _ =>
      have hopen := (tpShutdown_some hbegin).1
      rw [hshut] at hopen
      cases hopen

end Steps

section Runs
variable [DecidableEq W] [Fintype W] [Nonempty W] [DecidableEq S] [DecidableEq D]

/-- In every run, with any number of calls of `tp_shutdown`: at most one call sets
`in_shutdown`. It returns only when `shutdown_done` is set and each worker has removed an
item without a function; each accepted task has returned then, when all of them have one.
Any other call finds `in_shutdown` set; while the mutex is not destroyed it leaves the pool as it
is and returns. -/
theorem shutdown_returns (ls : List (Label W S D F A)) (s : State W S D F A)
    (hrun : Runs Step (init (Fintype.card W)) ls s) :
    (∀ d e, (s.closer d).began = true → (s.closer e).began = true → d = e) ∧
    (∀ d, (s.closer d).began = true → (s.closer d).returned = true →
      s.pool.shutdownDone = true ∧
      (∀ w, (s.worker w).alive = 0 ∧ ∃ wi, (w, wi) ∈ s.taken ∧ wi.func = none) ∧
      ((∀ l ∈ ls, l.HasFunc) → (s.returned.map Prod.snd).Perm s.accepted)) ∧
    (∀ d, (s.closer d).began = false → (s.closer d).returned = true →
      s.pool.inShutdown = true) ∧
    ∀ d, s.closer d = .entering → s.destroyed .mutex = false → s.holder = none →
      s.pool.inShutdown = true →
      (∃ t, Runs Step s [.lockShutdown d, .unlockShutdown d] t) ∧
      ∀ t, Runs Step s [.lockShutdown d, .unlockShutdown d] t →
        t.closer d = .turnedAway ∧ t.pool = s.pool := by
  have hi := hrun.invariant (P := Attended) (init_attended _) fun _ _ _ ha hs => hs.attended ha
  have hr := hrun.invariant (P := fun a => ∀ w, Removed a.taken w (a.worker w))
    (fun _ => removed_of_alive rfl rfl) fun _ _ _ ha hs => hs.removed ha
  have hc := counted_of_runs hrun
  refine ⟨hi.one, ?_, ?_, ?_⟩
  · intro d hbegan hret
    have hdone : s.pool.shutdownDone = true := hi.served d (CloserPc.served_of_returned hbegan hret)
    have hdead : ∀ w, (s.worker w).alive = 0 := tally_eq_zero.mp (hc.done.mp hdone)
    refine ⟨hdone, fun w => ⟨hdead w, (hr w).2 (hdead w)⟩, ?_⟩
    intro hfunc
    exact (ledger_of_runs hrun hfunc).returned_perm hdead
  · intro d hbegan hret
    exact hi.late d (CloserPc.late_of_returned hbegan hret)
  · intro d hpc _ hfree hshut
    exact late_call hpc hfree hshut

end Runs

theorem late_call_run : ∃ s : State Unit Unit Bool Unit Unit,
    Runs Step (init (Fintype.card Unit))
      [.shutdown true, .lockShutdown true, .shutdown false, .lockShutdown false,
        .unlockShutdown false] s ∧
      s.closer false = .turnedAway ∧ s.pool.shutdownDone = false := by
  have hfirst := Runs.single (s := (init 1 : State Unit Unit Bool Unit Unit))
    (l := Label.shutdown true) (Step.shutdown rfl)
  have hwaits := hfirst.snoc (l := .lockShutdown true) (Step.beginWait rfl rfl rfl rfl)
  have hsecond := hwaits.snoc (l := .shutdown false) (Step.shutdown rfl)
  have hlate := hsecond.snoc (l := .lockShutdown false) (Step.refuse rfl rfl rfl)
  have hleft := hlate.snoc (l := .unlockShutdown false) (Step.unlockRefused rfl)
  exact ⟨_, hleft, rfl, rfl⟩

/-- The second call returned before `shutdown_done` was set. -/
theorem late_call_returned : ¬ ∀ (ls : List (Label Unit Unit Bool Unit Unit))
    (s : State Unit Unit Bool Unit Unit), Runs Step (init (Fintype.card Unit)) ls s →
      ∀ d, (s.closer d).returned = true → s.pool.shutdownDone = true := by
  intro hall
  obtain ⟨s, hrun, hleft, hdone⟩ := late_call_run
  have hset := hall _ s hrun false (by rw [hleft]; rfl)
  rw [hdone] at hset
  cases hset

/-- The worker takes its pill, and the call that waited returns. -/
theorem shutdown_returns_two_calls : ∃ (ls : List (Label Unit Unit Bool Unit Unit))
    (s : State Unit Unit Bool Unit Unit), Runs Step (init (Fintype.card Unit)) ls s ∧
      s.closer true = .finished ∧ s.closer false = .turnedAway ∧ s.pool.shutdownDone = true ∧
      (s.returned.map Prod.snd).Perm [] := by
  have hfirst := Runs.single (s := (init 1 : State Unit Unit Bool Unit Unit))
    (l := Label.shutdown true) (Step.shutdown rfl)
  have hwaits := hfirst.snoc (l := .lockShutdown true) (Step.beginWait rfl rfl rfl rfl)
  have hsecond := hwaits.snoc (l := .shutdown false) (Step.shutdown rfl)
  have hlate := hsecond.snoc (l := .lockShutdown false) (Step.refuse rfl rfl rfl)
  have hleft := hlate.snoc (l := .unlockShutdown false) (Step.unlockRefused rfl)
  have htook := hleft.snoc (l := .check ()) (Step.take rfl rfl rfl)
  have hpill := htook.snoc (l := .unlockTaken ()) (Step.unlockTaken rfl)
  have hset := hpill.snoc (l := .terminate ()) (Step.terminate rfl rfl rfl)
  have hgone := hset.snoc (l := .unlockLeaving ()) (Step.unlockLeaving rfl)
  have hseen := hgone.snoc (l := .recheck true) (Step.recheckDone rfl rfl rfl)
  have hopen := hseen.snoc (l := .unlockShutdown true) (Step.unlockShutdown rfl)
  have hwork := hopen.snoc (l := .destroy true .hasWork) (Step.destroyHasWork rfl)
  have hterm := hwork.snoc (l := .destroy true .workersTerminated) (Step.destroyTerminated rfl)
  have hmutex := hterm.snoc (l := .destroy true .mutex) (Step.destroyMutex rfl)
  obtain ⟨_, hfinished, _⟩ := shutdown_returns _ _ hmutex
  obtain ⟨hdone, _, hperm⟩ := hfinished true rfl rfl
  exact ⟨_, _, hmutex, rfl, rfl, hdone, hperm (by simp [Label.HasFunc])⟩

end OsCourse.TPool
