import OsCourse.Join.Effect

/-! Where the threads are in every world, and that the alive list is the list of the
threads created and not yet exited. -/
namespace OsCourse.Join
open Function Placement Transition UThread
variable {b : Build}

theorem partition_step {op : Op} {w w' : World b} (hi : w.Inv) (he : Effect op w w') :
    Partition w'.slots w'.lib.sched.live := by
  have hp := hi.partition
  cases he with
  | same _ _ h => rw [h]; exact hp
  | resume t _ _ h => rw [h]; exact hp
  | create x _ hnew h =>
    have hslots : w'.slots = update w.slots .ready (w.slots .ready ++ [x]) := by
      funext p
      cases p with
      | joining k =>
        by_cases hk : k = x
        · -- nobody waits in a descriptor that was free
          have hnone : w.joiners x = [] := by
            cases hj : w.joiners x with
            | nil => rfl
            | cons t ts => exact absurd (hi.targets x t (by simp [hj])).1 hnew
          simpa [h, hk, World.joiners, utCreate] using hnone
        · simp [h, hk, World.joiners, utCreate]
      | _ => simp [h, utCreate, UThread.utCreate, utActivate, Sched.activateAll, Sched.current]
    rw [hslots, h]
    exact hp.enter hnew .ready
  | yield t _ hcur h =>
    have h1 : Partition (update (update w.slots .running []) .ready (w.slots .ready ++ [t])) _ :=
      hp.move (by simp) (by simp [hcur])
    have h2 := partition_dispatch (r := .running) (q := .ready) (by simp) h1
      (w.lib.sched.activateAll [t]) (by simp) (by simp [Sched.activateAll])
    have hslots : w'.slots = update (update (update (update w.slots .running []) .ready
        (w.slots .ready ++ [t])) .ready w'.lib.sched.readyQueue) .running
        w'.lib.sched.current.toList := by
      funext p
      cases p <;> simp [h, World.joiners]
    rw [hslots, h]
    simpa [Sched.activateAll] using h2
  | join t x field _ hcur _ _ hj h =>
    have h1 : Partition (update (update w.slots .running []) (.joining x)
        (w.slots (.joining x) ++ [t])) _ := hp.move (by simp) (by simp [hcur])
    have h2 := partition_dispatch (r := .running) (q := .ready) (by simp) h1
      w.lib.sched (by simp) (by simp)
    have hslots : w'.slots = update (update (update (update w.slots .running []) (.joining x)
        (w.slots (.joining x) ++ [t])) .ready w'.lib.sched.readyQueue) .running
        w'.lib.sched.current.toList := by
      funext p
      cases p with
      | joining k =>
        by_cases hk : k = x
        · subst hk
          simpa [h, World.joiners] using hj
        · simp [h, hk, World.joiners]
      | _ => simp
    rw [hslots, h]
    simpa using h2
  | exit t field s _ hcur hj hs h =>
    have h1 : Partition (update (update w.slots (.joining t) []) .ready
        (w.slots .ready ++ w.joiners t)) _ := hp.move (by simp) (by simp)
    have h2 := h1.leave (p := .running) (t := t) (by simp [hcur])
    have h3 := partition_dispatch (r := .running) (q := .ready) (by simp) h2 s
      (by simp) (by simp [hs, Sched.activateAll])
    have hslots : w'.slots = update (update (update (update (update w.slots (.joining t) []) .ready
        (w.slots .ready ++ w.joiners t)) .running []) .ready w'.lib.sched.readyQueue) .running
        w'.lib.sched.current.toList := by
      funext p
      cases p with
      | joining k =>
        by_cases hk : k = t
        · subst hk
          simpa [h, World.joiners] using hj
        · simp [h, hk, World.joiners]
      | _ => simp
    have hlive : s.live = w.lib.sched.live := by rw [hs]; rfl
    rw [hslots, h]
    simpa [internalCleanup, Sched.current, hlive] using h3
  | start _ hr h =>
    have h2 := partition_dispatch (r := .running) (q := .ready) (by simp) hp
      { w.lib.sched with mainThread := some .main, runningThread := some .main }
      (by simp [Sched.current, hr]) (by simp)
    have hslots : w'.slots = update (update w.slots .ready w'.lib.sched.readyQueue) .running
        w'.lib.sched.current.toList := by
      funext p
      cases p <;> simp [h, World.joiners]
    rw [hslots, h]
    simpa using h2
  | finish _ hr _ h =>
    have hslots : w'.slots = w.slots := by
      funext p
      cases p <;> simp [h, World.joiners, Sched.current, hr]
    rw [hslots, h]
    exact hp

theorem targets_step {op : Op} {w w' : World b} (hi : w.Inv) (he : Effect op w w') :
    ∀ k u, u ∈ w'.joiners k → k ∈ w'.lib.sched.live ∧ w'.pending u = some (.utJoin k) := by
  intro k u hu
  cases he with
  | same _ _ h => rw [h] at hu ⊢; exact hi.targets k u hu
  | resume t _ hcur h =>
    subst h
    have hold : u ∈ w.joiners k := hu
    have hne : u ≠ t := fun he => hi.current_not_joining hcur k (he ▸ hold)
    obtain ⟨hk, hp⟩ := hi.targets k u hold
    exact ⟨hk, by simpa [World.resume, hne] using hp⟩
  | create x _ hnew h =>
    subst h
    have hkx : k ≠ x := by
      intro he
      simp [World.joiners, utCreate, he] at hu
    have hold : u ∈ w.joiners k := by simpa [World.joiners, utCreate, hkx] using hu
    obtain ⟨hk, hp⟩ := hi.targets k u hold
    have hlive := (hi.partition.mem_live u).2 ⟨.joining k, hold⟩
    have hne : u ≠ x := fun he => hnew (he ▸ hlive)
    simp [utCreate, UThread.utCreate, utActivate, Sched.activateAll, hk, hne, hp]
  | yield t _ hcur h =>
    subst h
    have hold : u ∈ w.joiners k := hu
    have hne : u ≠ t := fun he => hi.current_not_joining hcur k (he ▸ hold)
    obtain ⟨hk, hp⟩ := hi.targets k u hold
    simp [hne, hp, hk, Sched.activateAll]
  | join t x field _ hcur halive _ hj h =>
    subst h
    by_cases hkx : k = x
    · subst hkx
      have hmem : u ∈ w.joiners k ∨ u = t := by simpa [World.joiners, hj] using hu
      cases hmem with
      | inl hold =>
        have hne : u ≠ t := fun he => hi.current_not_joining hcur k (he ▸ hold)
        simpa [hne, halive] using (hi.targets k u hold).2
      | inr hut => simp [hut, halive]
    · have hold : u ∈ w.joiners k := by simpa [World.joiners, hkx] using hu
      have hne : u ≠ t := fun he => hi.current_not_joining hcur k (he ▸ hold)
      simpa [hne] using hi.targets k u hold
  | exit t field s _ hcur hj hs h =>
    subst h
    have hkt : k ≠ t := by
      intro he
      simp [World.joiners, he, hj] at hu
    have hold : u ∈ w.joiners k := by simpa [World.joiners, hkt] using hu
    obtain ⟨hk, hp⟩ := hi.targets k u hold
    simp [internalCleanup, hs, Sched.activateAll, hkt, hk, hp]
  | start _ _ h => subst h; simpa using hi.targets k u hu
  | finish _ _ _ h => subst h; exact hi.targets k u hu

theorem history_step {op : Op} {w w' : World b} (hi : w.Inv) (he : Effect op w w') :
    replay w'.lib.sched.trace = some w'.lib.sched.live := by
  have hready : ∀ t ∈ w.lib.sched.readyQueue, t ∈ w.lib.sched.live := fun t => hi.ready_live
  -- threads that are alive are made ready, then the head of the queue is dispatched
  have hdispatch : ∀ (s : Sched) (ts : List Handle), (∀ t ∈ ts, t ∈ w.lib.sched.live) →
      s.trace = w.lib.sched.trace ++ ts.map .inserted →
      s.readyQueue = w.lib.sched.readyQueue ++ ts →
      replay s.dispatch.trace = some w.lib.sched.live := by
    intro s ts hts htr hq
    apply replay_dispatch
    · rw [htr, replay_append, hi.history]
      exact foldl_replayStep_keep _ _ (Or.inl rfl) ts hts
    · intro u hu
      rw [hq, List.mem_append] at hu
      exact hu.elim (hready u) (hts u)
  cases he with
  | same _ _ h => rw [h]; exact hi.history
  | resume t _ _ h => rw [h]; exact hi.history
  | create x _ hnew h =>
    simp [h, utCreate, UThread.utCreate, utActivate, Sched.activateAll, replay_append,
      hi.history, replayStep, hnew]
  | yield t _ hcur h =>
    have hlive := hi.current_live hcur
    rw [h, dispatch_live]
    exact hdispatch _ [t] (by simpa using hlive) rfl rfl
  | join t x field _ _ _ _ _ h =>
    rw [h, dispatch_live]
    exact hdispatch _ [] (by simp) (by simp) (by simp)
  | exit t field s _ hcur _ hs h =>
    have hlive := hi.current_live hcur
    have hts : ∀ u ∈ w.joiners t, u ∈ w.lib.sched.live := fun u hu =>
      (hi.partition.mem_live u).2 ⟨.joining t, hu⟩
    have hd := hdispatch s (w.joiners t) hts (by rw [hs]; rfl) (by rw [hs]; rfl)
    have hsame : s.live = w.lib.sched.live := by rw [hs]; rfl
    rw [h]
    simp [internalCleanup, replay_append, hd, replayStep, hlive, hsame]
  | start _ _ h =>
    rw [h, dispatch_live]
    exact hdispatch _ [] (by simp) (by simp) (by simp)
  | finish _ _ _ h => rw [h]; exact hi.history

theorem alive_step {op : Op} {w w' : World b} (hi : w.Inv) (he : Effect op w w') :
    w'.lib.aliveQueue.Nodup ∧ (∀ t, t ∈ w'.lib.aliveQueue ↔ t ∈ w'.lib.sched.live) ∧
      w'.lib.sched.numberOfThreads = w'.lib.aliveQueue.length := by
  have hnd := hi.alive_nodup
  have hmem := hi.mem_alive
  have hn := hi.count
  cases he with
  | same _ _ h => rw [h]; exact ⟨hnd, hmem, hn⟩
  | resume t _ _ h => rw [h]; exact ⟨hnd, hmem, hn⟩
  | create x _ hnew h =>
    have hx : ∀ a ∈ w.lib.aliveQueue, ¬ a = x := fun a ha he => hnew (he ▸ (hmem a).1 ha)
    rw [h]
    refine ⟨?_, ?_, ?_⟩
    · simpa [utCreate, insertTailList, List.nodup_append, hnd] using hx
    · intro t
      simp [utCreate, UThread.utCreate, utActivate, Sched.activateAll, insertTailList, hmem,
        or_comm]
    · simp [utCreate, UThread.utCreate, utActivate, Sched.activateAll, insertTailList, hn]
  | yield t _ _ h => rw [h]; simpa [Sched.activateAll, hnd, hn] using hmem
  | join t x field _ _ _ _ _ h => rw [h]; simpa [hnd, hn] using hmem
  | exit t field s _ hcur _ hs h =>
    have hin := (hmem t).2 (hi.current_live hcur)
    rw [h]
    refine ⟨hnd.erase t, ?_, ?_⟩
    · intro u
      simp [internalCleanup, hs, Sched.activateAll, hnd.mem_erase_iff, hmem]
    · simp [internalCleanup, hs, Sched.activateAll, List.length_erase_of_mem hin, hn]
  | start _ _ h => rw [h]; simpa [hnd, hn] using hmem
  | finish _ _ _ h => rw [h]; exact ⟨hnd, hmem, hn⟩

theorem unset_step {op : Op} {w w' : World b} (hi : w.Inv) (he : Effect op w w') :
    ∀ k ∈ w'.lib.sched.live, b.Unset (w'.lib.field k) := by
  intro k hk
  have hu := hi.unset k
  cases he with
  | same _ _ h => rw [h] at hk ⊢; exact hu hk
  | resume t _ _ h => rw [h] at hk ⊢; exact hu hk
  | create x _ hnew h =>
    subst h
    by_cases hkx : k = x
    · subst hkx
      simpa [utCreate] using unset_initField b
    · have hold : k ∈ w.lib.sched.live := by
        simpa [utCreate, UThread.utCreate, utActivate, Sched.activateAll, hkx] using hk
      simpa [utCreate, hkx] using hu hold
  | yield t _ _ h => subst h; exact hu (by simpa [Sched.activateAll] using hk)
  | join t x field _ _ _ hf _ h =>
    subst h
    by_cases hkx : k = x
    · subst hkx
      simpa using hf
    · simpa [hkx] using hu (by simpa using hk)
  | exit t field s _ _ _ hs h =>
    subst h
    have hkt : k ≠ t ∧ k ∈ w.lib.sched.live := by
      simpa [internalCleanup, hs, Sched.activateAll] using hk
    simpa [hkt.1] using hu hkt.2
  | start _ _ h => subst h; exact hu (by simpa using hk)
  | finish _ _ _ h => subst h; exact hu hk

theorem proxy_step {op : Op} {w w' : World b} (hi : w.Inv) (he : Effect op w w') :
    w'.lib.sched.mainThread =
      if w'.lib.sched.runningThread = none then none else some .main := by
  have hm := hi.proxy
  have hrun : ∀ {t}, w.lib.sched.current = some t → w.lib.sched.mainThread = some .main := by
    intro t hcur
    rw [hm, if_neg (by simp [current_eq_some.1 hcur])]
  cases he with
  | same _ _ h => rw [h]; exact hm
  | resume t _ _ h => rw [h]; exact hm
  | create x _ _ h => rw [h]; exact hm
  | yield t _ hcur h =>
    rw [h, if_neg (dispatch_running _), dispatch_mainThread]
    exact hrun hcur
  | join t x field _ hcur _ _ _ h =>
    rw [h, if_neg (dispatch_running _), dispatch_mainThread]
    exact hrun hcur
  | exit t field s _ hcur _ hs h =>
    have hmain : s.mainThread = w.lib.sched.mainThread := by rw [hs]; rfl
    have hnext := dispatch_running s
    simp [h, internalCleanup, hnext, hmain, hrun hcur]
  | start _ _ h => rw [h, if_neg (dispatch_running _), dispatch_mainThread]
  | finish _ _ _ h => rw [h]; rfl

theorem drained_step {op : Op} {w w' : World b} (hi : w.Inv) (h : Step w op w') :
    w'.lib.sched.runningThread = some .main → w'.lib.sched.readyQueue = [] := by
  have hd := hi.drained
  have hret : w.lib.sched.runningThread = some .main → op = .ret :=
    fun hr => h.1.1.1 (by simp [World.midCall, hr])
  intro hr'
  cases step_effect hi h with
  | same _ _ h => rw [h] at hr' ⊢; exact hd hr'
  | resume t _ _ h => rw [h] at hr' ⊢; exact hd hr'
  | create x hop _ h =>
    rw [h] at hr'
    have he := hret hr'
    rw [hop] at he
    cases he
  | yield t _ _ h => rw [h] at hr' ⊢; exact (dispatch_main hr').2
  | join t x field _ _ _ _ _ h => rw [h] at hr' ⊢; exact (dispatch_main hr').2
  | exit t field s _ _ _ _ h => rw [h] at hr' ⊢; exact (dispatch_main hr').2
  | start _ _ h => rw [h] at hr' ⊢; exact (dispatch_main hr').2
  | finish _ _ _ h => rw [h] at hr'; cases hr'

theorem inv_step {op : Op} {w w' : World b} (hi : w.Inv) (h : Step w op w') : w'.Inv := by
  have he := step_effect hi h
  obtain ⟨hnd, hmem, hn⟩ := alive_step hi he
  exact ⟨partition_step hi he, hnd, hmem, hn, proxy_step hi he, drained_step hi h,
    unset_step hi he, targets_step hi he, history_step hi he⟩

theorem inv_of_runs {ops : List Op} {w : World b} (h : Runs Step (World.init b) ops w) : w.Inv :=
  h.invariant (inv_init b) fun _ _ _ hi hs => inv_step hi hs

theorem World.Inv.progress {w : World b} (hi : w.Inv) {t : Handle} {op : Op}
    (hcur : w.lib.sched.current = some t) (hall : Allowed w op) (hop : op ≠ .utRun) :
    ∃ w', Step w op w' := by
  have hr := current_eq_some.1 hcur
  have hmain : w.lib.sched.mainThread = some .main := by
    rw [hi.proxy, if_neg (by simp [hr])]
  suffices hok : ∃ w', exec op w = .ok w' by
    obtain ⟨w', hw⟩ := hok
    exact ⟨w', hall, hw⟩
  cases op with
  | utCreate x => exact ⟨_, rfl⟩
  | utYield =>
    by_cases hq : isListEmpty w.lib.sched.readyQueue
    · simp only [exec, UThread.utYield, if_pos hq]
      exact ⟨_, rfl⟩
    · have hsch : schedule (w.lib.sched.insertReady t) = .ok (w.lib.sched.insertReady t).dispatch :=
        schedule_ok (by simp [Sched.activateAll, hr]) hmain
      simp only [exec, UThread.utYield, if_neg hq, hr, hsch]
      exact ⟨_, rfl⟩
  | utJoin x =>
    by_cases halive : utAlive x w.lib
    · have hlive := (hi.mem_alive x).1 (utAlive_iff.1 halive)
      obtain ⟨field, hw⟩ := waitExit_ok (hi.unset x hlive) hcur hmain
      simp only [exec, utJoin, halive, hw]
      exact ⟨_, rfl⟩
    · simp only [exec, utJoin, if_pos halive]
      exact ⟨_, rfl⟩
  | utExit =>
    obtain ⟨l, hl⟩ := utExit_ok hcur hmain
    simp only [exec, hl]
    exact ⟨_, rfl⟩
  | utRun => exact absurd rfl hop
  | ret =>
    simp only [exec, hr]
    exact ⟨_, rfl⟩

end OsCourse.Join
