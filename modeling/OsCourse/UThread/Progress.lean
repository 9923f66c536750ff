import OsCourse.UThread.Partition

/-! No call that a user thread may make ends the program. -/
namespace OsCourse.UThread
open Function Transition

theorem World.Inv.switches {w : World} (hi : w.Inv) {t : Handle}
    (hcur : w.sched.current = some t) :
    w.sched.runningThread = some (.user t) ∧ w.sched.mainThread = some .main := by
  have hr := current_eq_some.1 hcur
  exact ⟨hr, by rw [hi.proxy, if_neg (by simp [hr])]⟩

theorem initWaitblock_current {s : Sched} {t : Handle} (h : s.current = some t) :
    initWaitblock s = .ok ⟨t⟩ := by
  simp [initWaitblock, utSelf, current_eq_some.1 h]

theorem World.Inv.progress {w : World} (hi : w.Inv) {t : Handle} (op : Op)
    (hcur : w.sched.current = some t) (hall : Allowed w op) (hop : op ≠ .utRun) :
    ∃ w', Step w op w' := by
  obtain ⟨hr, hmain⟩ := hi.switches hcur
  have hsch : schedule w.sched = .ok w.sched.dispatch := schedule_ok (by simp [hr]) hmain
  have hwb := initWaitblock_current hcur
  suffices hok : ∃ w', exec op w = .ok w' by
    obtain ⟨w', hw⟩ := hok
    exact ⟨w', hall, hw⟩
  cases op with
  | utCreate x => exact ⟨_, rfl⟩
  | utActivate x => exact ⟨_, rfl⟩
  | eventSet e => exact ⟨_, rfl⟩
  | autoEventSet a => exact ⟨_, rfl⟩
  | semPost i n => exact ⟨_, rfl⟩
  | utRun => exact absurd rfl hop
  | utYield =>
    by_cases hq : isListEmpty w.sched.readyQueue
    · simp only [exec, utYield, if_pos hq]
      exact ⟨_, rfl⟩
    · have hnext : schedule (w.sched.insertReady t) = .ok (w.sched.insertReady t).dispatch :=
        schedule_ok (by simp [Sched.activateAll, hr]) hmain
      simp only [exec, utYield, if_neg hq, hr, hnext]
      exact ⟨_, rfl⟩
  | utExit =>
    have hexit := internalExit_ok
      (s := { w.sched with numberOfThreads := w.sched.numberOfThreads - 1 }) hcur hmain
    simp only [exec, utExit, hexit]
    exact ⟨_, rfl⟩
  | utDeactivate =>
    simp only [exec, utDeactivate, hsch]
    exact ⟨_, rfl⟩
  | eventWait e =>
    simp only [exec, eventWait, utDeactivate, hsch, hwb]
    split <;> exact ⟨_, rfl⟩
  | autoEventWait a =>
    simp only [exec, autoEventWait, utDeactivate, hsch, hwb]
    split <;> exact ⟨_, rfl⟩
  | semWait i n =>
    simp only [exec, semWait, initSemWaitblock, utDeactivate, hsch, hwb]
    split <;> exact ⟨_, rfl⟩
  | ret =>
    simp only [exec, hr]
    exact ⟨_, rfl⟩

/-- What a call of thread `t` leaves as it was when it creates and ends no thread. -/
structure Kept (t : Handle) (w w' : World) : Prop where
  live : w'.sched.live = w.sched.live
  pending : ∀ u, u ≠ t → w'.pending u = w.pending u
  running : w'.sched.runningThread ≠ none

theorem kept_leave {w w' : World} {t : Handle} {op : Op} {s : Sched}
    (hcur : w.sched.current = some t) (hs : w'.sched = s) (hlive : s.live = w.sched.live)
    (hrun : s.runningThread ≠ none) (hp : w'.pending = (w.leave op s).pending) : Kept t w w' := by
  refine ⟨by rw [hs, hlive], ?_, by rw [hs]; exact hrun⟩
  intro u hu
  rw [hp, leave_pending_ne]
  intro he
  rw [hcur] at he
  exact hu (Option.some.inj he).symm

theorem schedule_leaves {w : World} (hi : w.Inv) {s : Sched} (h : schedule w.sched = .ok s) :
    s.live = w.sched.live ∧ s.runningThread ≠ none := by
  have hs := schedule_eq_dispatch h hi.mainThread
  rw [hs]
  exact ⟨dispatch_live _, dispatch_running _⟩

theorem kept_wake {w w' : World} {t : Handle} (ts : List Handle)
    (hne : w.sched.runningThread ≠ none) (hs : w'.sched = w.sched.activateAll ts)
    (hp : w'.pending = w.pending) : Kept t w w' :=
  ⟨by rw [hs]; rfl, fun u _ => by rw [hp], by rw [hs]; exact hne⟩

theorem step_kept {w w' : World} (hi : w.Inv) {t : Handle} {op : Op}
    (hcur : w.sched.current = some t) (h : Step w op w') (hnew : ∀ x, op ≠ .utCreate x)
    (hexit : op ≠ .utExit) (hrun : op ≠ .utRun) : Kept t w w' := by
  obtain ⟨hr, hmain⟩ := hi.switches hcur
  have hne : w.sched.runningThread ≠ none := by simp [hr]
  obtain ⟨_, h⟩ := h
  cases op with
  | utCreate x => exact absurd rfl (hnew x)
  | utExit => exact absurd rfl hexit
  | utRun => exact absurd rfl hrun
  | utActivate x =>
    cases h
    exact kept_wake [x] hne rfl rfl
  | eventSet e =>
    cases h
    rw [eventSet_eq]
    exact kept_wake _ hne rfl rfl
  | autoEventSet a =>
    cases h
    exact kept_wake _ hne (autoEventSet_eq (w.autos a) w.sched).2 rfl
  | semPost i n =>
    cases h
    obtain ⟨_, _, _, _, _, _, _, hs⟩ :=
      semPostLoop_spec (w.sems i).waiters (semPostUnits (w.sems i) n) w.sched
    exact kept_wake _ hne hs rfl
  | utYield =>
    obtain ⟨s, hs, h⟩ := bind_ok h
    cases h
    unfold utYield at hs
    split at hs
    · cases hs
      exact kept_leave hcur rfl rfl hne rfl
    · rw [hr] at hs
      have hnext := schedule_eq_dispatch hs (Or.inr hmain)
      have hlive : s.live = w.sched.live := by
        rw [hnext, dispatch_live]
        rfl
      have hrun' : s.runningThread ≠ none := by
        rw [hnext]
        exact dispatch_running _
      exact kept_leave hcur rfl hlive hrun' rfl
  | utDeactivate =>
    obtain ⟨s, hs, h⟩ := bind_ok h
    cases h
    obtain ⟨hlive, hrun'⟩ := schedule_leaves hi hs
    exact kept_leave hcur rfl hlive hrun' rfl
  | eventWait e =>
    obtain ⟨⟨ev, s⟩, hs, h⟩ := bind_ok h
    cases h
    obtain ⟨_, _, rfl⟩ | ⟨_, _, _, hsch, _⟩ := eventWait_cases hs
    · exact kept_leave hcur rfl rfl hne rfl
    · obtain ⟨hlive, hrun'⟩ := schedule_leaves hi hsch
      exact kept_leave hcur rfl hlive hrun' rfl
  | autoEventWait a =>
    obtain ⟨⟨ev, s⟩, hs, h⟩ := bind_ok h
    cases h
    obtain ⟨_, rfl, _⟩ | ⟨_, _, _, hsch, _⟩ := autoEventWait_cases hs
    · exact kept_leave hcur rfl rfl hne rfl
    · obtain ⟨hlive, hrun'⟩ := schedule_leaves hi hsch
      exact kept_leave hcur rfl hlive hrun' rfl
  | semWait i n =>
    obtain ⟨⟨sem, s⟩, hs, h⟩ := bind_ok h
    cases h
    obtain ⟨_, _, rfl, _⟩ | ⟨_, _, _, hsch, _⟩ := semWait_cases hs
    · exact kept_leave hcur rfl rfl hne rfl
    · obtain ⟨hlive, hrun'⟩ := schedule_leaves hi hsch
      exact kept_leave hcur rfl hlive hrun' rfl
  | ret =>
    obtain rfl | ⟨hm, _⟩ | ⟨u, hu, rfl⟩ := ret_cases h
    · exact ⟨rfl, fun _ _ => rfl, hne⟩
    · rw [hr] at hm
      cases hm
    · have htu : t = u := Option.some.inj (hcur.symm.trans hu)
      refine ⟨rfl, ?_, hne⟩
      intro v hv
      rw [htu] at hv
      simp [World.resume, hv]

theorem exit_step {w w' : World} (hi : w.Inv) {t : Handle} (hcur : w.sched.current = some t)
    (h : Step w .utExit w') : w'.sched.live = w.sched.live.erase t ∧
      w'.sched.runningThread ≠ none ∧ w'.pending = w.pending := by
  obtain ⟨s, hs, h⟩ := bind_ok h.2
  cases h
  obtain ⟨u, hu, he⟩ := utExit_eq_dispatch hs hi.mainThread
  have htu : t = u := Option.some.inj (hcur.symm.trans hu)
  subst htu
  refine ⟨?_, ?_, rfl⟩
  · simp [he, internalCleanup]
  · rw [he]
    exact dispatch_running _

theorem ret_main {w w' : World} (hi : w.Inv) (hr : w.sched.runningThread = some .main)
    (h : Step w .ret w') : w.sched.live = ∅ ∧ w'.sched.live = ∅ ∧
      w'.sched.runningThread = none ∧ w'.pending = w.pending := by
  have hexec := h.2
  simp only [exec, hr] at hexec
  obtain ⟨s, hs, hexec⟩ := bind_ok hexec
  cases hexec
  obtain ⟨_, hzero, rfl⟩ := utRunEnd_eq hs
  have hempty : w.sched.live = ∅ := by
    rw [← Finset.card_eq_zero, ← hi.count, hzero]
  exact ⟨hempty, hempty, rfl, rfl⟩

theorem Effect.waiting {op : Op} {w w' : World} (he : Effect op w w') {o : Sync} {u : Handle}
    (hu : u ∈ w'.waiting o) :
    u ∈ w.waiting o ∨ (w.sched.current = some u ∧ op.waitsOn = some o) := by
  cases he with
  | quiet _ hw | create _ _ _ _ hw | exit _ _ _ _ hw | start _ _ hw | finish _ _ _ _ hw =>
    rw [hw] at hu
    exact Or.inl hu
  | park t q hcur _ hop _ _ hw =>
    rw [hw, List.mem_append] at hu
    refine hu.imp_right fun hu => ?_
    split at hu
    · rw [List.mem_singleton] at hu
      subst hu
      exact ⟨hcur, hop o ‹_›⟩
    · cases hu
  | wake p ts _ _ _ _ hperm hother =>
    by_cases hp : Place.waiters o = p
    · subst hp
      exact Or.inl (hperm.mem_iff.2 (List.mem_append_right ts hu))
    · have hsame := hother (.waiters o) (by simp) hp
      simp only [slots_waiters] at hsame
      exact Or.inl (hsame ▸ hu)

end OsCourse.UThread
