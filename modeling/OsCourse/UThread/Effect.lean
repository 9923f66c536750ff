import OsCourse.UThread.World

/-! What one call can do to the threads. Every call has one of seven effects on
the scheduler and on the lists of waiters; each invariant is derived from them. -/
namespace OsCourse.UThread
open Function Placement Transition

/-- Effects of a call. `park` is the caller put last in place `q` before the next
thread is dispatched; `wake` is a prefix of some waiting list made ready. -/
inductive Effect (op : Op) (w w' : World) : Prop where
  | quiet (hs : w'.sched = w.sched) (hw : ∀ o, w'.waiting o = w.waiting o)
      (hh : w'.halted = w.halted)
      (hp : ∀ t, w'.pending t = w.pending t ∨
        (w.sched.current = some t ∧ op = .ret ∧ w'.pending t = none))
  | create (h : Handle) (hop : op ≠ .ret) (hnew : h ∉ w.sched.live)
      (hs : w'.sched = utCreate h w.sched) (hw : ∀ o, w'.waiting o = w.waiting o)
      (hh : w'.halted = w.halted) (hp : w'.pending = update w.pending h none)
  | park (t : Handle) (q : Place) (hcur : w.sched.current = some t) (hq : q ≠ .running)
      (hop : ∀ o, q = .waiters o → op.waitsOn = some o)
      (hhalt : q = .halted → op = .utDeactivate)
      (hs : w'.sched = (if q = .ready then w.sched.insertReady t else w.sched).dispatch)
      (hw : ∀ o, w'.waiting o = w.waiting o ++ if q = .waiters o then [t] else [])
      (hh : w'.halted = w.halted ++ if q = .halted then [t] else [])
      (hready : q = .ready → w.sched.readyQueue ≠ [])
      (hp : w'.pending = (w.leave op w'.sched).pending)
  | wake (p : Place) (ts : List Handle) (hop : op ≠ .ret) (hrun : p ≠ .running)
      (hready : p ≠ .ready)
      (hs : w'.sched = w.sched.activateAll ts)
      (hperm : (w.slots p).Perm (ts ++ w'.slots p))
      (hother : ∀ q, q ≠ .ready → q ≠ p → w'.slots q = w.slots q)
      (hp : w'.pending = w.pending)
  | exit (t : Handle) (hop : op = .utExit) (hcur : w.sched.current = some t)
      (hs : w'.sched = internalCleanup t
        { w.sched with numberOfThreads := w.sched.numberOfThreads - 1 }.dispatch)
      (hw : ∀ o, w'.waiting o = w.waiting o) (hh : w'.halted = w.halted)
      (hp : w'.pending = w.pending)
  | start (hr : w.sched.runningThread = none)
      (hs : w'.sched = { w.sched with
        mainThread := some .main, runningThread := some .main }.dispatch)
      (hw : ∀ o, w'.waiting o = w.waiting o) (hh : w'.halted = w.halted)
      (hp : w'.pending = w.pending)
  | finish (hr : w.sched.runningThread = some .main) (hq : w.sched.readyQueue = [])
      (hn : w.sched.numberOfThreads = 0)
      (hs : w'.sched = { w.sched with runningThread := none, mainThread := none })
      (hw : ∀ o, w'.waiting o = w.waiting o) (hh : w'.halted = w.halted)
      (hp : w'.pending = w.pending)

@[simp] theorem waiting_event (w : World) (e : Nat) :
    w.waiting (.event e) = (w.events e).waiters.map (·.thread) := rfl
@[simp] theorem waiting_auto (w : World) (a : Nat) :
    w.waiting (.auto a) = (w.autos a).waiters.map (·.thread) := rfl
@[simp] theorem waiting_sem (w : World) (i : Nat) :
    w.waiting (.sem i) = (w.sems i).waiters.map (·.header.thread) := rfl

@[simp] theorem slots_running (w : World) : w.slots .running = w.sched.current.toList := rfl
@[simp] theorem slots_ready (w : World) : w.slots .ready = w.sched.readyQueue := rfl
@[simp] theorem slots_waiters (w : World) (o : Sync) : w.slots (.waiters o) = w.waiting o := rfl
@[simp] theorem slots_halted (w : World) : w.slots .halted = w.halted := rfl

@[simp] theorem leave_sched (w : World) (op : Op) (s : Sched) : (w.leave op s).sched = s := rfl
@[simp] theorem leave_halted (w : World) (op : Op) (s : Sched) :
    (w.leave op s).halted = w.halted := rfl
@[simp] theorem leave_events (w : World) (op : Op) (s : Sched) :
    (w.leave op s).events = w.events := rfl
@[simp] theorem leave_autos (w : World) (op : Op) (s : Sched) :
    (w.leave op s).autos = w.autos := rfl
@[simp] theorem leave_sems (w : World) (op : Op) (s : Sched) :
    (w.leave op s).sems = w.sems := rfl

theorem leave_same (w : World) (op : Op) : w.leave op w.sched = w := by
  unfold World.leave
  cases w.sched.current <;> simp

theorem leave_pending_same (w : World) (op : Op) : (w.leave op w.sched).pending = w.pending := by
  rw [leave_same]

theorem leave_pending_ne {w : World} {op : Op} {s : Sched} {t : Handle}
    (h : w.sched.current ≠ some t) : (w.leave op s).pending t = w.pending t := by
  unfold World.leave
  cases hc : w.sched.current with
  | none => rfl
  | some u =>
    have hne : t ≠ u := fun he => h (he ▸ hc)
    by_cases hs : s.current = some u <;> simp [hs, hne]

@[simp] theorem logReturn_waiters (w : World) (t : Handle) (e : Nat) :
    (w.logReturn t e).waiters = (w.events e).waiters := by
  unfold World.logReturn
  split <;> rfl

theorem resume_waiting (w : World) (t : Handle) (o : Sync) :
    (w.resume t).waiting o = w.waiting o := by
  cases o with
  | event e => simp [World.resume, logReturn_waiters]
  | auto a => rfl
  | sem i => rfl

theorem current_of_not_midCall {w : World} (h : ¬ w.midCall = true)
    (hr : w.sched.runningThread ≠ none) : ∃ t, w.sched.current = some t := by
  cases hc : w.sched.runningThread with
  | none => exact absurd hc hr
  | some c =>
    cases c with
    | main => simp [World.midCall, hc] at h
    | user t => exact ⟨t, current_eq_some.2 hc⟩

theorem effect_park {op : Op} {w w' : World} {o : Sync} {t : Handle} {s : Sched}
    (hm : w.sched.mainThread = none ∨ w.sched.mainThread = some .main)
    (hcur : w.sched.current = some t) (hsch : schedule w.sched = .ok s)
    (hop : op.waitsOn = some o) (hs : w'.sched = s)
    (hw : ∀ p, w'.waiting p = w.waiting p ++ if o = p then [t] else [])
    (hh : w'.halted = w.halted) (hp : w'.pending = (w.leave op s).pending) :
    Effect op w w' := by
  subst hs
  refine Effect.park t (.waiters o) hcur (by simp) ?_ (by simp) ?_ ?_ ?_ (by simp) hp
  · rintro p he
    cases he
    exact hop
  · simpa using schedule_eq_dispatch hsch hm
  · simpa using hw
  · simpa using hh

theorem waiting_update_event (w : World) (s : Sched) (p : Handle → Option Op) (hl : List Handle)
    (e : Nat) (ev : Event) (o : Sync) :
    (World.mk s (update w.events e ev) w.autos w.sems p hl).waiting o =
      if .event e = o then ev.waiters.map (·.thread) else w.waiting o := by
  cases o with
  | event e' => by_cases h : e = e' <;> simp [h, Ne.symm]
  | auto a => simp
  | sem i => simp

theorem waiting_update_auto (w : World) (s : Sched) (p : Handle → Option Op) (hl : List Handle)
    (a : Nat) (ev : AutoResetEvent) (o : Sync) :
    (World.mk s w.events (update w.autos a ev) w.sems p hl).waiting o =
      if .auto a = o then ev.waiters.map (·.thread) else w.waiting o := by
  cases o with
  | event e => simp
  | auto a' => by_cases h : a = a' <;> simp [h, Ne.symm]
  | sem i => simp

theorem waiting_update_sem (w : World) (s : Sched) (p : Handle → Option Op) (hl : List Handle)
    (i : Nat) (sem : Semaphore) (o : Sync) :
    (World.mk s w.events w.autos (update w.sems i sem) p hl).waiting o =
      if .sem i = o then sem.waiters.map (·.header.thread) else w.waiting o := by
  cases o with
  | event e => simp
  | auto a => simp
  | sem i' => by_cases h : i = i' <;> simp [h, Ne.symm]

theorem waiting_passed {w w' : World} {o : Sync} {ws : List Handle}
    (h : ∀ p, w'.waiting p = if o = p then ws else w.waiting p) (hws : ws = w.waiting o)
    (p : Sync) : w'.waiting p = w.waiting p := by
  rw [h]
  by_cases hp : o = p
  · rw [if_pos hp, hws, hp]
  · rw [if_neg hp]

theorem waiting_blocked {w w' : World} {o : Sync} {ws : List Handle} {t : Handle}
    (h : ∀ p, w'.waiting p = if o = p then ws else w.waiting p)
    (hws : ws = w.waiting o ++ [t]) (p : Sync) :
    w'.waiting p = w.waiting p ++ if o = p then [t] else [] := by
  rw [h]
  by_cases hp : o = p
  · rw [if_pos hp, if_pos hp, hws, hp]
  · rw [if_neg hp, if_neg hp, List.append_nil]

section
variable {w w' : World} (hm : w.sched.mainThread = none ∨ w.sched.mainThread = some .main)
include hm

theorem utYield_effect (h : exec .utYield w = .ok w') : Effect .utYield w w' := by
  obtain ⟨s, hs, h⟩ := bind_ok h
  cases h
  unfold utYield at hs
  split at hs
  · cases hs
    refine Effect.quiet rfl (fun o => by cases o <;> rfl) rfl fun t => Or.inl ?_
    rw [leave_pending_same]
  · rename_i hq
    split at hs
    · rename_i t hr
      refine Effect.park t .ready (current_eq_some.2 hr) (by simp) (by simp) (by simp) ?_
        (fun o => by cases o <;> simp) (by simp) (by simpa [isListEmpty] using hq) rfl
      exact schedule_eq_dispatch hs hm
    · cases hs

theorem eventWait_effect {e : Nat} (h : exec (.eventWait e) w = .ok w') :
    Effect (.eventWait e) w w' := by
  obtain ⟨⟨ev, s⟩, hs, h⟩ := bind_ok h
  cases h
  cases eventWait_cases hs with
  | inl hpass =>
    obtain ⟨_, rfl, rfl⟩ := hpass
    refine Effect.quiet rfl ?_ rfl fun t => Or.inl (congrFun (leave_pending_same w _) t)
    exact waiting_passed (waiting_update_event w _ _ _ _ _) rfl
  | inr hblock =>
    obtain ⟨t, _, hc, hsch, rfl⟩ := hblock
    refine effect_park hm hc hsch rfl rfl ?_ rfl rfl
    apply waiting_blocked (waiting_update_event w _ _ _ _ _)
    simp

theorem autoEventWait_effect {a : Nat} (h : exec (.autoEventWait a) w = .ok w') :
    Effect (.autoEventWait a) w w' := by
  obtain ⟨⟨ev, s⟩, hs, h⟩ := bind_ok h
  cases h
  cases autoEventWait_cases hs with
  | inl hpass =>
    obtain ⟨_, rfl, rfl⟩ := hpass
    refine Effect.quiet rfl ?_ rfl fun t => Or.inl (congrFun (leave_pending_same w _) t)
    exact waiting_passed (waiting_update_auto w _ _ _ _ _) rfl
  | inr hblock =>
    obtain ⟨t, _, hc, hsch, rfl⟩ := hblock
    refine effect_park hm hc hsch rfl rfl ?_ rfl rfl
    apply waiting_blocked (waiting_update_auto w _ _ _ _ _)
    simp

theorem semWait_effect {i : Nat} {n : Int32} (h : exec (.semWait i n) w = .ok w') :
    Effect (.semWait i n) w w' := by
  obtain ⟨⟨sem, s⟩, hs, h⟩ := bind_ok h
  cases h
  cases semWait_cases hs with
  | inl hpass =>
    obtain ⟨_, _, rfl, rfl⟩ := hpass
    refine Effect.quiet rfl ?_ rfl fun t => Or.inl (congrFun (leave_pending_same w _) t)
    exact waiting_passed (waiting_update_sem w _ _ _ _ _) rfl
  | inr hblock =>
    obtain ⟨t, _, hc, hsch, rfl⟩ := hblock
    refine effect_park hm hc hsch rfl rfl ?_ rfl rfl
    apply waiting_blocked (waiting_update_sem w _ _ _ _ _)
    simp

end

theorem utRun_effect {w w' : World} (h : exec .utRun w = .ok w') : Effect .utRun w w' := by
  obtain ⟨s, hs, h⟩ := bind_ok h
  cases h
  cases utRun_cases hs with
  | inl hnone =>
    cases hnone
    exact Effect.quiet rfl (fun o => by cases o <;> rfl) rfl (fun _ => Or.inl rfl)
  | inr hstart =>
    exact Effect.start hstart.1 hstart.2 (fun o => by cases o <;> rfl) rfl rfl

theorem ret_cases {w w' : World} (h : exec .ret w = .ok w') : w' = w ∨
    (w.sched.runningThread = some .main ∧
      ∃ s, utRunEnd w.sched = .ok s ∧ w' = { w with sched := s }) ∨
    ∃ t, w.sched.current = some t ∧ w' = w.resume t := by
  cases hr : w.sched.runningThread with
  | none =>
    simp only [exec, hr] at h
    cases h
    exact Or.inl rfl
  | some c =>
    cases c with
    | main =>
      simp only [exec, hr] at h
      obtain ⟨s, hs, h⟩ := bind_ok h
      cases h
      exact Or.inr (Or.inl ⟨rfl, s, hs, rfl⟩)
    | user t =>
      simp only [exec, hr] at h
      cases h
      exact Or.inr (Or.inr ⟨t, current_eq_some.2 hr, rfl⟩)

theorem ret_effect {w w' : World} (h : exec .ret w = .ok w') : Effect .ret w w' := by
  obtain rfl | ⟨hr, s, hs, rfl⟩ | ⟨t, hcur, rfl⟩ := ret_cases h
  · exact Effect.quiet rfl (fun _ => rfl) rfl (fun _ => Or.inl rfl)
  · obtain ⟨hq, hn, hend⟩ := utRunEnd_eq hs
    exact Effect.finish hr hq hn hend (fun o => by cases o <;> rfl) rfl rfl
  · refine Effect.quiet rfl (resume_waiting w t) rfl ?_
    intro u
    by_cases hu : u = t
    · exact Or.inr ⟨hu ▸ hcur, rfl, by simp [World.resume, hu]⟩
    · exact Or.inl (by simp [World.resume, hu])

theorem step_effect {op : Op} {w w' : World} (h : Step w op w')
    (hm : w.sched.mainThread = none ∨ w.sched.mainThread = some .main) :
    Effect op w w' := by
  obtain ⟨hall, h⟩ := h
  cases op with
  | utYield => exact utYield_effect hm h
  | utRun => exact utRun_effect h
  | eventWait e => exact eventWait_effect hm h
  | autoEventWait a => exact autoEventWait_effect hm h
  | semWait i n => exact semWait_effect hm h
  | ret => exact ret_effect h
  | utCreate x =>
    cases h
    exact Effect.create x (by simp) (by simpa [World.admits] using hall.2) rfl
      (fun o => by cases o <;> rfl) rfl rfl
  | utExit =>
    obtain ⟨s, hs, h⟩ := bind_ok h
    cases h
    obtain ⟨t, hcur, hs⟩ := utExit_eq_dispatch hs hm
    exact Effect.exit t rfl hcur hs (fun o => by cases o <;> rfl) rfl rfl
  | utDeactivate =>
    obtain ⟨s, hs, h⟩ := bind_ok h
    cases h
    have hmid : ¬ w.midCall = true := fun hc => by simpa using hall.1.1 hc
    obtain ⟨t, hc⟩ := current_of_not_midCall hmid (schedule_running hs)
    refine Effect.park t .halted hc (by simp) (by simp) (fun _ => rfl) ?_
      (fun o => by cases o <;> simp) (by simp [hc]) (by simp) rfl
    simpa using schedule_eq_dispatch hs hm
  | utActivate x =>
    cases h
    have hx : x ∈ w.halted := by simpa [World.admits] using hall.2
    refine Effect.wake .halted [x] (by simp) (by simp) (by simp) rfl ?_ ?_ rfl
    · simpa using List.perm_cons_erase hx
    · intro q hq hp
      cases q with
      | running => simp [utActivate]
      | ready => simp at hq
      | waiters o => cases o <;> rfl
      | halted => simp at hp
  | eventSet e =>
    cases h
    rw [eventSet_eq]
    refine Effect.wake (.waiters (.event e)) _ (by simp) (by simp) (by simp) rfl ?_ ?_ rfl
    · simp
    · rintro (_ | _ | (e' | a | i) | _) hq hp <;> simp_all
  | autoEventSet a =>
    cases h
    obtain ⟨hw, hs⟩ := autoEventSet_eq (w.autos a) w.sched
    refine Effect.wake (.waiters (.auto a)) _ (by simp) (by simp) (by simp) hs ?_ ?_ rfl
    · have ht := List.take_append_drop 1 ((w.autos a).waiters.map (·.thread))
      simp [hw, ← List.drop_one, -List.map_tail, List.map_take, List.map_drop]
    · rintro (_ | _ | (e | a' | i) | _) hq hp <;> simp_all
  | semPost i n =>
    cases h
    obtain ⟨served, rest, he, hw, _, _, _, hs⟩ :=
      semPostLoop_spec (w.sems i).waiters (semPostUnits (w.sems i) n) w.sched
    refine Effect.wake (.waiters (.sem i)) _ (by simp) (by simp) (by simp) hs ?_ ?_ rfl
    · have hmap := congrArg (List.map (·.header.thread)) (he.trans (congrArg _ hw.symm))
      simp only [slots_waiters, waiting_sem, update_self, semPost]
      rw [hmap, List.map_append]
    · rintro (_ | _ | (e | a | i') | _) hq hp <;> simp_all [semPost]

/-- A call keeps a thread running, ready or waiting on `o`, when the thread is not the
one that calls, or when it calls nothing that could lead it elsewhere. -/
theorem place_step {op : Op} {o : Sync} {t : Handle} {w w' : World} (he : Effect op w w')
    (hlive : t ∈ w.sched.live)
    (hin : w.sched.current = some t ∨ t ∈ w.sched.readyQueue ∨ t ∈ w.waiting o)
    (hcall : w.sched.current = some t → op ≠ .utExit ∧ op ≠ .utDeactivate ∧
      ∀ p, op.waitsOn = some p → p = o) :
    t ∈ w'.sched.live ∧
      (w'.sched.current = some t ∨ t ∈ w'.sched.readyQueue ∨ t ∈ w'.waiting o) := by
  cases he with
  | quiet hs hw => rw [hs, hw]; exact ⟨hlive, hin⟩
  | create x _ _ hs hw =>
    rw [hs, hw]
    refine ⟨Finset.mem_insert_of_mem hlive, hin.imp id (Or.imp_left fun h => ?_)⟩
    exact List.mem_append_left _ h
  | park u q hcur hq hop hhalt hs hw =>
    have hl : w'.sched.live = w.sched.live := by
      rw [hs, dispatch_live]
      split <;> rfl
    refine ⟨hl ▸ hlive, ?_⟩
    by_cases htu : u = t
    · subst htu
      obtain ⟨_, hdeact, hwaits⟩ := hcall hcur
      cases q with
      | running => exact absurd rfl hq
      | halted => exact absurd (hhalt rfl) hdeact
      | ready =>
        have hm : u ∈ (w.sched.insertReady u).readyQueue := by simp [Sched.activateAll]
        rw [hs, if_pos rfl]
        exact (mem_dispatch hm).imp_right Or.inl
      | waiters p =>
        have hp : p = o := hwaits p (hop p rfl)
        exact Or.inr (Or.inr (by simp [hw, hp]))
    · have hne : w.sched.current ≠ some t := by simp [hcur, htu]
      obtain hr | hw' := hin.resolve_left hne
      · have hm : t ∈ (if q = .ready then w.sched.insertReady u else w.sched).readyQueue := by
          split
          · simp [Sched.activateAll, hr]
          · exact hr
        rw [hs]
        exact (mem_dispatch hm).imp_right Or.inl
      · exact Or.inr (Or.inr (by rw [hw]; exact List.mem_append_left _ hw'))
  | wake p ts _ _ _ hs hperm hother =>
    rw [hs]
    refine ⟨hlive, hin.imp id fun h => ?_⟩
    obtain hr | hw := h
    · exact Or.inl (List.mem_append_left _ hr)
    · by_cases hp : Place.waiters o = p
      · subst hp
        have hm := hperm.mem_iff.1 hw
        rw [List.mem_append] at hm
        exact hm.imp (List.mem_append_right _) id
      · have hsame : w'.waiting o = w.waiting o := hother (.waiters o) (by simp) hp
        exact Or.inr (by rw [hsame]; exact hw)
  | exit u hop hcur hs hw =>
    have hne : w.sched.current ≠ some t := fun hc => (hcall hc).1 hop
    have htu : t ≠ u := fun h => hne (h ▸ hcur)
    rw [hs, hw]
    refine ⟨by simpa [internalCleanup, htu] using hlive, ?_⟩
    obtain hr | hw' := hin.resolve_left hne
    · exact (mem_dispatch (s := { w.sched with
        numberOfThreads := w.sched.numberOfThreads - 1 }) hr).imp_right Or.inl
    · exact Or.inr (Or.inr hw')
  | start hr hs hw =>
    have hne : w.sched.current ≠ some t := by simp [Sched.current, hr]
    rw [hs, hw, dispatch_live]
    refine ⟨hlive, ?_⟩
    obtain hr | hw' := hin.resolve_left hne
    · exact (mem_dispatch (s := { w.sched with
        mainThread := some .main, runningThread := some .main }) hr).imp_right Or.inl
    · exact Or.inr (Or.inr hw')
  | finish hr hq _ hs hw =>
    have hne : w.sched.current ≠ some t := by simp [Sched.current, hr]
    have hw' := (hin.resolve_left hne).resolve_left (by simp [hq])
    rw [hs, hw]
    exact ⟨hlive, Or.inr (Or.inr hw')⟩

def Op.touches : Op → Option Sync
  | .eventWait e | .eventSet e => some (.event e)
  | .autoEventWait a | .autoEventSet a => some (.auto a)
  | .semWait i _ | .semPost i _ => some (.sem i)
  | _ => none

theorem step_frame {op : Op} {w w' : World} (h : Step w op w') :
    (∀ i, op.touches ≠ some (.sem i) → w'.sems i = w.sems i) ∧
    (∀ a, op.touches ≠ some (.auto a) → w'.autos a = w.autos a) ∧
    (∀ e, op.touches ≠ some (.event e) → op ≠ .ret → w'.events e = w.events e) := by
  obtain ⟨_, h⟩ := h
  cases op with
  | utCreate x => cases h; simp
  | utActivate x => cases h; simp
  | eventSet e =>
    cases h
    exact ⟨by simp, by simp, fun e' he _ => by
      have hne : e' ≠ e := fun h => he (by simp [Op.touches, h])
      simp [hne]⟩
  | autoEventSet a =>
    cases h
    exact ⟨by simp, fun a' ha => by
      have hne : a' ≠ a := fun h => ha (by simp [Op.touches, h])
      simp [hne], by simp⟩
  | semPost i n =>
    cases h
    exact ⟨fun i' hi => by
      have hne : i' ≠ i := fun h => hi (by simp [Op.touches, h])
      simp [hne], by simp, by simp⟩
  | utYield => obtain ⟨s, _, h⟩ := bind_ok h; cases h; simp
  | utExit => obtain ⟨s, _, h⟩ := bind_ok h; cases h; simp
  | utDeactivate => obtain ⟨s, _, h⟩ := bind_ok h; cases h; simp
  | utRun => obtain ⟨s, _, h⟩ := bind_ok h; cases h; simp
  | eventWait e =>
    obtain ⟨⟨ev, s⟩, _, h⟩ := bind_ok h
    cases h
    exact ⟨by simp, by simp, fun e' he _ => by
      have hne : e' ≠ e := fun h => he (by simp [Op.touches, h])
      simp [hne]⟩
  | autoEventWait a =>
    obtain ⟨⟨ev, s⟩, _, h⟩ := bind_ok h
    cases h
    exact ⟨by simp, fun a' ha => by
      have hne : a' ≠ a := fun h => ha (by simp [Op.touches, h])
      simp [hne], by simp⟩
  | semWait i n =>
    obtain ⟨⟨sem, s⟩, _, h⟩ := bind_ok h
    cases h
    exact ⟨fun i' hi => by
      have hne : i' ≠ i := fun h => hi (by simp [Op.touches, h])
      simp [hne], by simp, by simp⟩
  | ret =>
    obtain rfl | ⟨_, s, _, rfl⟩ | ⟨t, _, rfl⟩ := ret_cases h
    · simp
    · simp
    · exact ⟨fun _ _ => rfl, fun _ _ => rfl, by simp⟩

theorem semWait_step {i : Nat} {n : Int32} {w w' : World} (h : Step w (.semWait i n) w') :
    semWait (w.sems i) n w.sched = .ok (w'.sems i, w'.sched) := by
  obtain ⟨⟨sem, s⟩, hs, h⟩ := bind_ok h.2
  cases h
  simpa using hs

theorem semPost_step {i : Nat} {n : Int32} {w w' : World} (h : Step w (.semPost i n) w') :
    (w'.sems i, w'.sched) = semPost (w.sems i) n w.sched := by
  cases h.2
  simp

theorem eventWait_step {e : Nat} {w w' : World} (h : Step w (.eventWait e) w') :
    eventWait (w.events e) w.sched = .ok (w'.events e, w'.sched) := by
  obtain ⟨⟨ev, s⟩, hs, h⟩ := bind_ok h.2
  cases h
  simpa using hs

theorem eventSet_step {e : Nat} {w w' : World} (h : Step w (.eventSet e) w') :
    (w'.events e, w'.sched) = eventSet (w.events e) w.sched := by
  cases h.2
  simp

theorem autoEventWait_step {a : Nat} {w w' : World} (h : Step w (.autoEventWait a) w') :
    autoEventWait (w.autos a) w.sched = .ok (w'.autos a, w'.sched) := by
  obtain ⟨⟨ev, s⟩, hs, h⟩ := bind_ok h.2
  cases h
  simpa using hs

theorem autoEventSet_step {a : Nat} {w w' : World} (h : Step w (.autoEventSet a) w') :
    (w'.autos a, w'.sched) = autoEventSet (w.autos a) w.sched := by
  cases h.2
  simp

end OsCourse.UThread
