import OsCourse.UThread.Effect
import OsCourse.UThread.Trace

/-! Where the threads are: every live descriptor is in exactly one place, and one
that was freed is not heard of until `malloc` hands its address out again. -/
namespace OsCourse.UThread
open Function Placement Transition

structure World.Inv (w : World) : Prop where
  partition : Partition w.slots w.sched.live
  count : w.sched.numberOfThreads = w.sched.live.card
  proxy : w.sched.mainThread = if w.sched.runningThread = none then none else some .main
  drained : w.sched.runningThread = some .main → w.sched.readyQueue = []
  waits : ∀ o, ∀ t ∈ w.waiting o, ∃ op, w.pending t = some op ∧ op.waitsOn = some o
  history : replay w.sched.trace = some w.sched.live

theorem World.Inv.mainThread {w : World} (hi : w.Inv) :
    w.sched.mainThread = none ∨ w.sched.mainThread = some .main := by
  rw [hi.proxy]
  split
  · exact Or.inl rfl
  · exact Or.inr rfl

theorem World.Inv.current_live {w : World} (hi : w.Inv) {t : Handle}
    (h : w.sched.current = some t) : t ∈ w.sched.live :=
  (hi.partition.mem_live t).2 ⟨.running, by simp [h]⟩

theorem World.Inv.current_not_ready {w : World} (hi : w.Inv) {t : Handle}
    (h : w.sched.current = some t) : t ∉ w.sched.readyQueue :=
  hi.partition.not_mem_of_ne (p := .running) (q := .ready) (by simp [h]) (by simp)

theorem World.Inv.current_not_waiting {w : World} (hi : w.Inv) {t : Handle}
    (h : w.sched.current = some t) (o : Sync) : t ∉ w.waiting o :=
  hi.partition.not_mem_of_ne (p := .running) (q := .waiters o) (by simp [h]) (by simp)

theorem inv_init (c : Config) : (World.init c).Inv where
  partition := Partition.empty fun p => by cases p with
    | waiters o => cases o <;> rfl
    | _ => rfl
  count := rfl
  proxy := rfl
  drained h := by cases h
  waits o t ht := by cases o <;> simp [World.init, eventInit, autoEventInit, semInit] at ht
  history := rfl

theorem partition_step {op : Op} {w w' : World} (hi : w.Inv) (he : Effect op w w') :
    Partition w'.slots w'.sched.live := by
  have hp := hi.partition
  cases he with
  | quiet hs hw hh _ =>
    have hslots : w'.slots = w.slots := by
      funext p
      cases p <;> simp [hs, hw, hh]
    rw [hslots, hs]
    exact hp
  | create x hop hnew hs hw hh _ =>
    have hslots : w'.slots = update w.slots .ready (w.slots .ready ++ [x]) := by
      funext p
      cases p <;> simp [hs, hw, hh, utCreate, utActivate, Sched.activateAll, Sched.current]
    rw [hslots, hs]
    exact hp.enter hnew .ready
  | park t q hcur hq _ _ hs hw hh _ _ =>
    have h1 : Partition (update (update w.slots .running []) q (w.slots q ++ [t])) _ :=
      hp.move hq.symm (by simp [hcur])
    have h2 := partition_dispatch (r := .running) (q := .ready) (by simp) h1
      (if q = .ready then w.sched.insertReady t else w.sched) (by simp [hq.symm]) (by
        by_cases hr : q = .ready
        · simp [hr, Sched.activateAll]
        · simp [hr, Ne.symm hr])
    rw [← hs] at h2
    have hslots : w'.slots = update (update (update (update w.slots .running []) q
        (w.slots q ++ [t])) .ready w'.sched.readyQueue) .running w'.sched.current.toList := by
      funext p
      cases p with
      | running => simp
      | ready => simp
      | waiters o => by_cases ho : q = .waiters o <;> simp [hw, ho, eq_comm]
      | halted => by_cases ho : q = .halted <;> simp [hh, ho, eq_comm]
    have hlive : w'.sched.live = w.sched.live := by
      rw [hs, dispatch_live]
      split <;> rfl
    rw [hslots, hlive]
    exact h2
  | wake p ts hop hrun hready hs hperm hother _ =>
    have h1 := hp.move (q := .ready) hready hperm
    have hslots : w'.slots = update (update w.slots p (w'.slots p)) .ready
        (w.slots .ready ++ ts) := by
      funext q
      by_cases hq : q = .ready
      · subst hq; simp [hs, Sched.activateAll]
      · by_cases hqp : q = p
        · subst hqp; simp [hq]
        · simp [hq, hqp, hother q hq hqp]
    rw [hslots, hs]
    exact h1
  | exit t _ hcur hs hw hh _ =>
    have h1 := hp.leave (p := .running) (t := t) (by simp [hcur])
    have h2 := partition_dispatch (r := .running) (q := .ready) (by simp) h1
      { w.sched with numberOfThreads := w.sched.numberOfThreads - 1 } (by simp) (by simp)
    have hslots : w'.slots = update (update (update w.slots .running []) .ready
        w'.sched.readyQueue) .running w'.sched.current.toList := by
      funext p
      cases p <;> simp [hw, hh]
    rw [hslots, hs]
    simpa [internalCleanup, Sched.current] using h2
  | start hr hs hw hh _ =>
    have h2 := partition_dispatch (r := .running) (q := .ready) (by simp) hp
      { w.sched with mainThread := some .main, runningThread := some .main }
      (by simp [Sched.current, hr]) (by simp)
    have hslots : w'.slots = update (update w.slots .ready w'.sched.readyQueue) .running
        w'.sched.current.toList := by
      funext p
      cases p <;> simp [hw, hh]
    rw [hslots, hs]
    simpa using h2
  | finish hr _ _ hs hw hh _ =>
    have hslots : w'.slots = w.slots := by
      funext p
      cases p <;> simp [hs, hw, hh, Sched.current, hr]
    rw [hslots, hs]
    exact hp

theorem waits_step {op : Op} {w w' : World} (hi : w.Inv) (he : Effect op w w') :
    ∀ o, ∀ t ∈ w'.waiting o, ∃ op, w'.pending t = some op ∧ op.waitsOn = some o := by
  intro o t ht
  cases he with
  | quiet _ hw _ hp =>
    rw [hw] at ht
    obtain hp | ⟨hc, _⟩ := hp t
    · rw [hp]; exact hi.waits o t ht
    · exact absurd ht (hi.current_not_waiting hc o)
  | create x _ hnew _ hw _ hp =>
    rw [hw] at ht
    have hlive := (hi.partition.mem_live t).2 ⟨.waiters o, ht⟩
    have hne : t ≠ x := fun he => hnew (he ▸ hlive)
    rw [hp, update_of_ne hne]
    exact hi.waits o t ht
  | park u q hcur hq hop _ hs hw _ hready hp =>
    rw [hw, List.mem_append] at ht
    cases ht with
    | inl ht =>
      have hne : w.sched.current ≠ some t := fun hc => hi.current_not_waiting hc o ht
      rw [hp, leave_pending_ne hne]
      exact hi.waits o t ht
    | inr ht =>
      have hqo : q = .waiters o := by
        by_contra hno
        simp [hno] at ht
      have htu : t = u := by simpa [hqo] using ht
      subst htu hqo
      -- the next thread comes from the ready queue, where the caller is not
      have hnext : w'.sched.current ≠ some t := by
        intro hc
        have hmem : t ∈ w.sched.dispatch.current.toList := by simpa [hs] using hc
        have hin := List.mem_append_left w.sched.dispatch.readyQueue hmem
        rw [dispatch_front] at hin
        exact hi.current_not_ready hcur hin
      exact ⟨op, by simp [hp, World.leave, hcur, hnext], hop o rfl⟩
  | wake p ts hop hrun hready hs hperm hother hp =>
    rw [hp]
    by_cases hpo : Place.waiters o = p
    · subst hpo
      exact hi.waits o t (hperm.mem_iff.2 (List.mem_append_right ts ht))
    · have hsame := hother (.waiters o) (by simp) hpo
      simp only [slots_waiters] at hsame
      exact hi.waits o t (hsame ▸ ht)
  | exit _ _ _ _ hw _ hp => rw [hw] at ht; rw [hp]; exact hi.waits o t ht
  | start _ _ hw _ hp => rw [hw] at ht; rw [hp]; exact hi.waits o t ht
  | finish _ _ _ _ hw _ hp => rw [hw] at ht; rw [hp]; exact hi.waits o t ht

theorem history_step {op : Op} {w w' : World} (hi : w.Inv) (he : Effect op w w') :
    replay w'.sched.trace = some w'.sched.live := by
  have hready : ∀ t ∈ w.sched.readyQueue, t ∈ w.sched.live :=
    fun t ht => (hi.partition.mem_live t).2 ⟨.ready, ht⟩
  cases he with
  | quiet hs => rw [hs]; exact hi.history
  | create x hop hnew hs =>
    simp [hs, utCreate, utActivate, Sched.activateAll, replay_append, hi.history, replayStep, hnew]
  | park t q hcur _ _ _ hs =>
    have hlive := hi.current_live hcur
    rw [hs, dispatch_live]
    by_cases hq : q = .ready
    · simp only [hq, if_true]
      refine replay_dispatch ?_ ?_
      · simp [Sched.activateAll, replay_append, hi.history, replayStep, hlive]
      · intro u hu
        have hu' : u ∈ w.sched.readyQueue ∨ u = t := by simpa [Sched.activateAll] using hu
        obtain hu' | rfl := hu'
        · exact hready u hu'
        · exact hlive
    · simp only [hq, if_false]
      exact replay_dispatch hi.history hready
  | wake p ts _ _ _ hs hperm _ =>
    rw [hs]
    simp only [Sched.activateAll, replay_append, hi.history]
    refine foldl_replayStep_keep _ _ (Or.inl rfl) ts fun t ht => ?_
    exact (hi.partition.mem_live t).2 ⟨p, hperm.mem_iff.2 (List.mem_append_left _ ht)⟩
  | exit t _ hcur hs =>
    have hd := replay_dispatch (s := { w.sched with
      numberOfThreads := w.sched.numberOfThreads - 1 }) hi.history hready
    have hlive := hi.current_live hcur
    rw [hs]
    simp [internalCleanup, replay_append, hd, replayStep, hlive]
  | start _ hs => rw [hs, dispatch_live]; exact replay_dispatch hi.history hready
  | finish _ _ _ hs => rw [hs]; exact hi.history

theorem count_step {op : Op} {w w' : World} (hi : w.Inv) (he : Effect op w w') :
    w'.sched.numberOfThreads = w'.sched.live.card := by
  have hn := hi.count
  cases he with
  | quiet hs => rw [hs]; exact hn
  | create x hop hnew hs => simp [hs, utCreate, utActivate, Sched.activateAll, hnew, hn]
  | park t q _ _ _ _ hs =>
    rw [hs]
    split <;> simpa [Sched.activateAll] using hn
  | wake p ts _ _ _ hs => rw [hs]; exact hn
  | exit t _ hcur hs =>
    simp [hs, internalCleanup, Finset.card_erase_of_mem (hi.current_live hcur), hn]
  | start _ hs => rw [hs]; simpa using hn
  | finish _ _ _ hs => rw [hs]; exact hn

theorem proxy_step {op : Op} {w w' : World} (hi : w.Inv) (he : Effect op w w') :
    w'.sched.mainThread = if w'.sched.runningThread = none then none else some .main := by
  have hm := hi.proxy
  cases he with
  | quiet hs => rw [hs]; exact hm
  | create x _ _ hs => rw [hs]; exact hm
  | park t q hcur _ _ _ hs =>
    have hr := current_eq_some.1 hcur
    rw [hs, if_neg (dispatch_running _), dispatch_mainThread]
    split <;> simpa [Sched.activateAll, hr] using hm
  | wake p ts _ _ _ hs => rw [hs]; exact hm
  | exit t _ hcur hs =>
    have hr := current_eq_some.1 hcur
    have hd := dispatch_running { w.sched with numberOfThreads := w.sched.numberOfThreads - 1 }
    rw [hr] at hm
    simp only [hs, internalCleanup, dispatch_mainThread, if_neg hd]
    simpa using hm
  | start _ hs => rw [hs, if_neg (dispatch_running _), dispatch_mainThread]
  | finish _ _ _ hs => rw [hs]; rfl

theorem drained_step {op : Op} {w w' : World} (hi : w.Inv) (he : Effect op w w')
    (hret : w.sched.runningThread = some .main → op = .ret) :
    w'.sched.runningThread = some .main → w'.sched.readyQueue = [] := by
  have hd := hi.drained
  intro hr'
  cases he with
  | quiet hs => rw [hs] at hr' ⊢; exact hd hr'
  | create x hop _ hs => rw [hs] at hr'; exact absurd (hret hr') hop
  | park t q _ _ _ _ hs => rw [hs] at hr' ⊢; exact (dispatch_main hr').2
  | wake p ts hop _ _ hs => rw [hs] at hr'; exact absurd (hret hr') hop
  | exit t _ _ hs => rw [hs] at hr' ⊢; exact (dispatch_main hr').2
  | start _ hs => rw [hs] at hr' ⊢; exact (dispatch_main hr').2
  | finish _ _ _ hs => rw [hs] at hr'; cases hr'

theorem inv_step {op : Op} {w w' : World} (hi : w.Inv) (h : Step w op w') : w'.Inv := by
  have he := step_effect h hi.mainThread
  have hret : w.sched.runningThread = some .main → op = .ret :=
    fun hr => h.1.1.1 (by simp [World.midCall, hr])
  exact ⟨partition_step hi he, count_step hi he, proxy_step hi he, drained_step hi he hret,
    waits_step hi he, history_step hi he⟩

theorem inv_of_runs {c : Config} {ops : List Op} {w : World}
    (h : Runs Step (World.init c) ops w) : w.Inv :=
  h.invariant (inv_init c) fun _ _ _ hi hs => inv_step hi hs

theorem halted_step {op : Op} {w w' : World} (he : Effect op w w') (hop : op ≠ .utDeactivate)
    (hh : w.halted = []) : w'.halted = [] := by
  cases he with
  | quiet _ _ h => rw [h, hh]
  | create _ _ _ _ _ h => rw [h, hh]
  | park t q _ _ _ hhalt _ _ h =>
    have hq : q ≠ .halted := fun hq => hop (hhalt hq)
    rw [h, hh, if_neg hq, List.nil_append]
  | wake p ts _ _ _ _ hperm hother =>
    by_cases hp : Place.halted = p
    · subst hp
      rw [slots_halted, hh, List.nil_perm] at hperm
      exact (List.append_eq_nil_iff.1 hperm).2
    · exact (hother .halted (by simp) hp).trans hh
  | exit _ _ _ _ _ h => rw [h, hh]
  | start _ _ _ h => rw [h, hh]
  | finish _ _ _ _ _ h => rw [h, hh]

theorem World.Inv.live_iff_blocked {w : World} (hi : w.Inv) (hh : w.halted = [])
    (hr : w.sched.runningThread = some .main) (t : Handle) :
    t ∈ w.sched.live ↔ ∃ o, t ∈ w.waiting o := by
  rw [hi.partition.mem_live]
  constructor
  · rintro ⟨p, hp⟩
    cases p with
    | running => simp [Sched.current, hr] at hp
    | ready => simp [hi.drained hr] at hp
    | waiters o => exact ⟨o, hp⟩
    | halted => simp [hh] at hp
  · rintro ⟨o, ho⟩
    exact ⟨.waiters o, ho⟩

/-- In every world of every program that leaves the processor through the library
only: one place for each live thread, none for the others, an exact count, no use
of a freed descriptor, and an assertion of `ut_run` that fails exactly when some
thread is still blocked. -/
theorem threads_partition {c : Config} {ops : List Op} {w : World}
    (h : Runs Step (World.init c) ops w) (hd : Op.utDeactivate ∉ ops) :
    (∀ t ∈ w.sched.live, ∃ p, p ≠ .halted ∧ (w.slots p).count t = 1 ∧
      ∀ q, q ≠ p → t ∉ w.slots q) ∧
    (∀ t, t ∉ w.sched.live → ∀ p, t ∉ w.slots p) ∧
    w.sched.numberOfThreads = w.sched.live.card ∧
    replay w.sched.trace = some w.sched.live ∧
    NotReused w.sched.trace ∧
    (w.sched.runningThread = some .main →
      w.sched.readyQueue = [] ∧
      (∃ blocked : Finset Handle, (∀ t, t ∈ blocked ↔ ∃ o, t ∈ w.waiting o) ∧
        w.sched.numberOfThreads = blocked.card) ∧
      (utRunEnd w.sched = .error .threadsLeft ↔ ∃ t o, t ∈ w.waiting o)) := by
  have hi := inv_of_runs h
  have hh : w.halted = [] := by
    have hboth := h.invariant_of (P := fun w => w.Inv ∧ w.halted = [])
      (Q := fun op => op ≠ .utDeactivate) (fun op hop he => hd (he ▸ hop))
      ⟨inv_init c, rfl⟩
      (fun a op b hop ha hs => ⟨inv_step ha.1 hs,
        halted_step (step_effect hs ha.1.mainThread) hop ha.2⟩)
    exact hboth.2
  refine ⟨?_, fun t ht p => hi.partition.absent ht p, hi.count, hi.history,
    notReused_of_replay (by simp [hi.history]), ?_⟩
  · intro t ht
    obtain ⟨p, hp, hother⟩ := hi.partition.exactly_once ht
    refine ⟨p, ?_, hp, hother⟩
    rintro rfl
    simp [hh] at hp
  · intro hr
    have hlive := hi.live_iff_blocked hh hr
    have hq := hi.drained hr
    refine ⟨hq, ⟨w.sched.live, hlive, hi.count⟩, ?_⟩
    have hend : utRunEnd w.sched = .error .threadsLeft ↔ w.sched.numberOfThreads ≠ 0 := by
      by_cases hn : w.sched.numberOfThreads = 0 <;> simp [utRunEnd, hq, isListEmpty, hn]
    rw [hend, hi.count, Finset.card_ne_zero]
    exact exists_congr hlive

/-- One thread waits on an event that nobody sets, the other returns: the main
thread comes back and its assertion fails. -/
theorem threads_partition_blocked :
    ∃ w, Runs Step (World.init Config.plain)
      [.utCreate 1, .utCreate 2, .utRun, .eventWait 0, .utExit] w ∧
      w.sched.runningThread = some .main ∧ utRunEnd w.sched = .error .threadsLeft := by
  have hrun := runs_of_runAll Allowed exec
    [.utCreate 1, .utCreate 2, .utRun, .eventWait 0, .utExit] (World.init Config.plain) rfl
  refine ⟨_, hrun, rfl, ?_⟩
  exact ((threads_partition hrun (by decide)).2.2.2.2.2 rfl).2.2.2 ⟨1, .event 0, by decide⟩

end OsCourse.UThread
