import OsCourse.Join.World
import OsCourse.UThread.Trace

/-! What one call can do to the threads, in a world that keeps the invariant. -/
namespace OsCourse.Join
open Function Placement Transition UThread
variable {b : Build}

structure World.Inv (w : World b) : Prop where
  partition : Partition w.slots w.lib.sched.live
  alive_nodup : w.lib.aliveQueue.Nodup
  mem_alive : ∀ t, t ∈ w.lib.aliveQueue ↔ t ∈ w.lib.sched.live
  count : w.lib.sched.numberOfThreads = w.lib.aliveQueue.length
  proxy : w.lib.sched.mainThread =
    if w.lib.sched.runningThread = none then none else some .main
  drained : w.lib.sched.runningThread = some .main → w.lib.sched.readyQueue = []
  unset : ∀ h ∈ w.lib.sched.live, b.Unset (w.lib.field h)
  targets : ∀ h t, t ∈ w.joiners h → h ∈ w.lib.sched.live ∧ w.pending t = some (.utJoin h)
  history : replay w.lib.sched.trace = some w.lib.sched.live

@[simp] theorem slots_running (w : World b) : w.slots .running = w.lib.sched.current.toList := rfl
@[simp] theorem slots_ready (w : World b) : w.slots .ready = w.lib.sched.readyQueue := rfl
@[simp] theorem slots_joining (w : World b) (h : Handle) : w.slots (.joining h) = w.joiners h := rfl

theorem World.Inv.mainThread {w : World b} (hi : w.Inv) :
    w.lib.sched.mainThread = none ∨ w.lib.sched.mainThread = some .main := by
  rw [hi.proxy]
  split
  · exact Or.inl rfl
  · exact Or.inr rfl

theorem World.Inv.current_live {w : World b} (hi : w.Inv) {t : Handle}
    (h : w.lib.sched.current = some t) : t ∈ w.lib.sched.live :=
  (hi.partition.mem_live t).2 ⟨.running, by simp [h]⟩

theorem World.Inv.current_not_ready {w : World b} (hi : w.Inv) {t : Handle}
    (h : w.lib.sched.current = some t) : t ∉ w.lib.sched.readyQueue :=
  hi.partition.not_mem_of_ne (p := .running) (q := .ready) (by simp [h]) (by simp)

theorem World.Inv.current_not_joining {w : World b} (hi : w.Inv) {t : Handle}
    (h : w.lib.sched.current = some t) (k : Handle) : t ∉ w.joiners k :=
  hi.partition.not_mem_of_ne (p := .running) (q := .joining k) (by simp [h]) (by simp)

theorem World.Inv.ready_live {w : World b} (hi : w.Inv) {t : Handle}
    (h : t ∈ w.lib.sched.readyQueue) : t ∈ w.lib.sched.live :=
  (hi.partition.mem_live t).2 ⟨.ready, h⟩

theorem inv_init (b : Build) : (World.init b).Inv where
  partition := Partition.empty fun p => by
    cases p with
    | joining h => exact joiners_initField b
    | _ => rfl
  alive_nodup := List.nodup_nil
  mem_alive t := by simp [World.init, utInit, UThread.utInit]
  count := rfl
  proxy := rfl
  drained h := by cases h
  unset h hl := by simp [World.init, utInit, UThread.utInit] at hl
  targets h t ht := by simp [World.init, utInit, World.joiners] at ht
  history := rfl

/-- What a call does. A thread that leaves the processor is suspended in its call. -/
inductive Effect (op : Op) (w w' : World b) : Prop where
  | same (hop : op ≠ .utExit) (hret : op = .ret → w.lib.sched.runningThread = none) (h : w' = w)
  | resume (t : Handle) (hop : op = .ret) (hcur : w.lib.sched.current = some t)
      (h : w' = w.resume t)
  | create (x : Handle) (hop : op = .utCreate x) (hnew : x ∉ w.lib.sched.live)
      (h : w' = { lib := utCreate x w.lib
                  pending := update w.pending x none
                  log := w.log ++ [.created x] })
  | yield (t : Handle) (hop : op = .utYield) (hcur : w.lib.sched.current = some t)
      (h : w' = { w with
        lib := { w.lib with sched := (w.lib.sched.activateAll [t]).dispatch }
        pending := update w.pending t (some .utYield) })
  | join (t x : Handle) (field : b.Field) (hop : op = .utJoin x)
      (hcur : w.lib.sched.current = some t) (halive : x ∈ w.lib.sched.live)
      (hu : b.Unset field) (hj : b.joiners field = w.joiners x ++ [t])
      (h : w' = { lib := { w.lib with
                    sched := w.lib.sched.dispatch
                    field := update w.lib.field x field }
                  pending := update w.pending t (some (.utJoin x))
                  log := w.log ++ [.joined t x] })
  | exit (t : Handle) (field : b.Field) (s : Sched) (hop : op = .utExit)
      (hcur : w.lib.sched.current = some t) (hj : b.joiners field = [])
      (hs : s = { w.lib.sched with
        numberOfThreads := w.lib.sched.numberOfThreads - 1 }.activateAll (w.joiners t))
      (h : w' = { w with
        lib := { sched := internalCleanup t s.dispatch
                 aliveQueue := w.lib.aliveQueue.erase t
                 field := update w.lib.field t field }
        log := w.log ++ [.exited t] })
  | start (hop : op = .utRun) (hr : w.lib.sched.runningThread = none)
      (h : w' = { w with lib := { w.lib with sched := { w.lib.sched with
        mainThread := some .main, runningThread := some .main }.dispatch } })
  | finish (hop : op = .ret) (hr : w.lib.sched.runningThread = some .main)
      (hn : w.lib.sched.numberOfThreads = 0)
      (h : w' = { w with lib := { w.lib with sched := { w.lib.sched with
        runningThread := none, mainThread := none } } })

theorem dispatch_current_ne {s : Sched} {t : Handle} (h : t ∉ s.readyQueue) :
    s.dispatch.current ≠ some t := by
  intro hc
  have hin : t ∈ s.dispatch.current.toList ++ s.dispatch.readyQueue := by simp [hc]
  rw [dispatch_front] at hin
  exact h hin

theorem yield_current_ne {s : Sched} {t : Handle} (h : t ∉ s.readyQueue)
    (hq : s.readyQueue ≠ []) : (s.activateAll [t]).dispatch.current ≠ some t := by
  cases hr : s.readyQueue with
  | nil => exact absurd hr hq
  | cons x q =>
    have hx : x ≠ t := fun he => h (by simp [hr, he])
    simpa [Sched.dispatch, Sched.activateAll, hr, Sched.current, Sched.switchTo] using hx

theorem step_effect {op : Op} {w w' : World b} (hi : w.Inv) (h : Step w op w') :
    Effect op w w' := by
  obtain ⟨hall, h⟩ := h
  cases op with
  | utCreate x =>
    cases h
    exact Effect.create x rfl (by simpa [World.admits] using hall.2) rfl
  | utYield =>
    obtain ⟨s, hs, h⟩ := bind_ok h
    cases h
    unfold UThread.utYield at hs
    split at hs
    · cases hs
      apply Effect.same (by simp) (by simp)
      unfold World.leave
      cases w.lib.sched.current <;> simp
    · rename_i hq
      split at hs
      · rename_i t hr
        have hcur := current_eq_some.2 hr
        have hsch := schedule_eq_dispatch hs hi.mainThread
        rw [insertReady_eq] at hsch
        have hne := yield_current_ne (hi.current_not_ready hcur) (by simpa [isListEmpty] using hq)
        apply Effect.yield t rfl hcur
        simp [World.leave, hcur, hsch, hne]
      · cases hs
  | utJoin x =>
    obtain ⟨l, hl, h⟩ := bind_ok h
    cases h
    unfold utJoin at hl
    split at hl
    · rename_i hdead
      cases hl
      apply Effect.same (by simp) (by simp)
      have halive : utAlive x w.lib = false := by simpa using hdead
      unfold World.leave World.joinSteps
      cases w.lib.sched.current <;> simp [halive]
    · rename_i halive
      have halive : utAlive x w.lib = true := by simpa using halive
      have hlive := (hi.mem_alive x).1 (utAlive_iff.1 halive)
      obtain ⟨⟨field, s⟩, hw, hl⟩ := bind_ok hl
      cases hl
      obtain ⟨t, hcur, hsch, hu, hj⟩ := waitExit_cases (hi.unset x hlive) hw
      have hs := schedule_eq_dispatch hsch hi.mainThread
      have hne := dispatch_current_ne (hi.current_not_ready hcur)
      apply Effect.join t x field rfl hcur hlive hu hj
      simp [World.leave, World.joinSteps, hcur, halive, hs, hne]
  | utExit =>
    obtain ⟨l, hl, h⟩ := bind_ok h
    cases h
    unfold utExit at hl
    split at hl
    · rename_i t hr
      have hcur := current_eq_some.2 hr
      obtain ⟨s, hs, hl⟩ := bind_ok hl
      cases hl
      obtain ⟨hnone, hwake⟩ := wakeJoiners_spec (w.lib.field t)
        { w.lib.sched with numberOfThreads := w.lib.sched.numberOfThreads - 1 }
      obtain ⟨u, hu, hs⟩ := internalExit_eq_dispatch hs (by rw [hwake]; exact hi.mainThread)
      rw [hwake] at hu hs
      have hut : u = t := by
        have hcu : w.lib.sched.current = some u := hu
        simpa using hcu.symm.trans hcur
      apply Effect.exit t _ _ rfl hcur hnone rfl
      simp [hs, hut, hcur, removeEntryList, World.joiners]
    · cases hl
  | utRun =>
    obtain ⟨s, hs, h⟩ := bind_ok h
    cases h
    cases utRun_cases hs with
    | inl hnone =>
      cases hnone
      exact Effect.same (by simp) (by simp) rfl
    | inr hstart =>
      apply Effect.start rfl hstart.1
      rw [hstart.2]
  | ret =>
    cases hr : w.lib.sched.runningThread with
    | none =>
      simp only [exec, hr] at h
      cases h
      exact Effect.same (by simp) (fun _ => hr) rfl
    | some c =>
      cases c with
      | main =>
        simp only [exec, hr] at h
        obtain ⟨s, hs, h⟩ := bind_ok h
        cases h
        obtain ⟨_, hn, hend⟩ := utRunEnd_eq hs
        rw [hend]
        exact Effect.finish rfl hr hn rfl
      | user t =>
        simp only [exec, hr] at h
        cases h
        exact Effect.resume t rfl (current_eq_some.2 hr) rfl

end OsCourse.Join
