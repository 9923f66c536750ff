import OsCourse.UThread.Event

/-! An auto-reset event is a semaphore of limit one: a program that uses auto-reset
event `a` and the program that uses semaphore `i` in its place go through the same
states of everything else. -/
namespace OsCourse.UThread
open Function Placement Transition

/-- The call made in the program that has semaphore `i` in the place of event `a`. -/
def Op.viaSem (a i : Nat) : Op → Op
  | .autoEventWait b => if b = a then .semWait i 1 else .autoEventWait b
  | .autoEventSet b => if b = a then .semPost i 1 else .autoEventSet b
  | op => op

def Config.withSem (c : Config) (a i : Nat) : Config :=
  { c with
    semUnits := update c.semUnits i (if c.autoState a then 1 else 0)
    semLimit := update c.semLimit i 1 }

/-- The two objects between calls. Requests are all for one unit, and neither a
signal nor a unit is kept while a thread waits. -/
structure SameSignal (ev : AutoResetEvent) (sem : Semaphore) : Prop where
  limit : sem.limit = 1
  units : sem.units = if ev.signaled then 1 else 0
  waiters : sem.waiters = ev.waiters.map fun wb => ⟨wb, 1⟩
  idle : ev.signaled = true → ev.waiters = []

theorem sameSignal_init (b : Bool) :
    SameSignal (autoEventInit b) (semInit (if b then 1 else 0) 1) :=
  ⟨rfl, rfl, rfl, fun _ => rfl⟩

def SameOutcome (x : AutoResetEvent × Sched) (y : Semaphore × Sched) : Prop :=
  SameSignal x.1 y.1 ∧ y.2 = x.2

theorem sameSignal_wait {ev : AutoResetEvent} {sem : Semaphore} (h : SameSignal ev sem)
    (s : Sched) : Matched SameOutcome (autoEventWait ev s) (semWait sem 1 s) := by
  cases hs : ev.signaled with
  | true =>
    have hw : sem.waiters = [] := by rw [h.waiters, h.idle hs]; rfl
    have hu : sem.units = 1 := by simp [h.units, hs]
    have hx : autoEventWait ev s =
        .ok ({ ev with signaled := false, log := ev.log ++ [.passed] }, s) := by
      simp [autoEventWait, hs]; rfl
    have hy : semWait sem 1 s = .ok ({ sem with
        units := sem.units - 1
        log := sem.log ++ [.requested (utSelf s) 1, .granted (utSelf s) 1] }, s) := by
      simp [semWait, isListEmpty, hw, hu]; rfl
    rw [hx, hy]
    exact Matched.ok ⟨⟨h.limit, by simp [hu], h.waiters, by simp⟩, rfl⟩
  | false =>
    have hu : sem.units = 0 := by simp [h.units, hs]
    have hno : ¬ (isListEmpty sem.waiters = true ∧ sem.units ≥ 1) := by
      rw [hu]
      exact fun hc => absurd hc.2 (by decide)
    unfold autoEventWait semWait
    rw [if_neg (by simp [hs]), if_neg hno]
    simp only [initSemWaitblock, bind_assoc, pure_bind]
    refine Matched.bind (Matched.same _) ?_
    rintro wb _ rfl
    refine Matched.bind (Matched.same _) ?_
    rintro s' _ rfl
    refine Matched.ok ⟨⟨h.limit, ?_, ?_, by simp [hs]⟩, rfl⟩
    · simp [hu, hs]
    · simp [insertListLast, h.waiters]

theorem sameSignal_set {ev : AutoResetEvent} {sem : Semaphore} (h : SameSignal ev sem)
    (s : Sched) : SameOutcome (autoEventSet ev s) (semPost sem 1 s) := by
  cases hw : ev.waiters with
  | nil =>
    -- the unit is kept, or cut off when there is one already
    have hws : sem.waiters = [] := by rw [h.waiters, hw]; rfl
    have hu : (semPostUnits sem 1).units = 1 := by
      unfold semPostUnits
      rw [h.units, h.limit]
      cases ev.signaled <;> rfl
    have hl : (semPostUnits sem 1).limit = 1 := by
      unfold semPostUnits
      rw [h.units, h.limit]
      cases ev.signaled <;> rfl
    refine ⟨⟨?_, ?_, ?_, ?_⟩, ?_⟩ <;> simp [semPost, hws, semPostLoop, autoEventSet, hw, hu, hl]
  | cons wb wbs =>
    -- the unit goes to the first waiter and the loop stops with none left
    have hs : ev.signaled = false := by
      cases hs : ev.signaled with
      | false => rfl
      | true => simp [h.idle hs] at hw
    have hws : sem.waiters = ⟨wb, 1⟩ :: wbs.map fun wb => ⟨wb, 1⟩ := by rw [h.waiters, hw]; rfl
    have hu : sem.units = 0 := by simp [h.units, hs]
    have hpost : semPostUnits sem 1 = { sem with units := 1, log := sem.log ++ [.posted 1] } := by
      unfold semPostUnits
      rw [hu, h.limit]
      rfl
    have hset : autoEventSet ev s = ({ ev with
        waiters := wbs
        log := ev.log ++ [.set, .passed] }, utActivate wb.thread s) := by
      simp [autoEventSet, hw]
    rw [hset]
    unfold semPost
    rw [hws, hpost, semPostLoop, if_pos (by simp), if_neg (by simp),
      semPostLoop_no_units (by simp)]
    exact ⟨⟨h.limit, by simp [hs], rfl, by simp [hs]⟩, rfl⟩

/-- The two programs side by side: everything but the event and the semaphore that
stands for it is the same, suspended calls being renamed. -/
structure AutoSim (a i : Nat) (w v : World) : Prop where
  sched : v.sched = w.sched
  events : v.events = w.events
  autos : ∀ b, b ≠ a → v.autos b = w.autos b
  sems : ∀ j, j ≠ i → v.sems j = w.sems j
  halted : v.halted = w.halted
  pending : v.pending = fun t => (w.pending t).map (Op.viaSem a i)
  signal : SameSignal (w.autos a) (v.sems i)

variable {a i : Nat} {w v : World}

theorem autoSim_init (c : Config) (a i : Nat) :
    AutoSim a i (World.init c) (World.init (c.withSem a i)) := by
  refine ⟨rfl, rfl, fun b _ => rfl, fun j hj => ?_, rfl, rfl, ?_⟩
  · simp [World.init, Config.withSem, hj]
  · simpa [World.init, Config.withSem] using sameSignal_init (c.autoState a)

theorem viaSem_eq_ret {op : Op} : op.viaSem a i = .ret ↔ op = .ret := by
  cases op <;> simp only [Op.viaSem] <;> try split
  all_goals simp

theorem viaSem_eq_eventWait {op : Op} {e : Nat} :
    op.viaSem a i = .eventWait e ↔ op = .eventWait e := by
  cases op <;> simp only [Op.viaSem] <;> try split
  all_goals simp

theorem AutoSim.allowed (h : AutoSim a i w v) (op : Op) :
    Allowed v (op.viaSem a i) ↔ Allowed w op := by
  have hmid : v.midCall = w.midCall := by
    unfold World.midCall
    rw [h.sched, h.pending]
    cases w.sched.runningThread with
    | none => rfl
    | some c => cases c <;> simp
  have hadm : v.admits (op.viaSem a i) = w.admits op := by
    cases op with
    | autoEventWait b => by_cases hb : b = a <;> simp [Op.viaSem, World.admits, hb]
    | autoEventSet b => by_cases hb : b = a <;> simp [Op.viaSem, World.admits, hb]
    | utCreate x => simp [Op.viaSem, World.admits, h.sched]
    | utActivate x => simp [Op.viaSem, World.admits, h.halted]
    | _ => rfl
  unfold Allowed
  rw [hmid, hadm, viaSem_eq_ret]

theorem AutoSim.leave (h : AutoSim a i w v) (op : Op) (s : Sched) :
    AutoSim a i (w.leave op s) (v.leave (op.viaSem a i) s) := by
  refine ⟨rfl, h.events, h.autos, h.sems, h.halted, ?_, h.signal⟩
  funext t
  unfold World.leave
  rw [h.sched, h.pending]
  cases w.sched.current with
  | none => rfl
  | some u =>
    by_cases hs : s.current = some u
    · simp [hs]
    · by_cases ht : t = u <;> simp [hs, ht]

theorem AutoSim.resume (h : AutoSim a i w v) (t : Handle) :
    AutoSim a i (w.resume t) (v.resume t) := by
  refine ⟨h.sched, ?_, h.autos, h.sems, h.halted, ?_, h.signal⟩
  · funext e
    have hiff : v.pending t = some (.eventWait e) ↔ w.pending t = some (.eventWait e) := by
      rw [h.pending]
      simp [viaSem_eq_eventWait]
    simp [World.resume, World.logReturn, hiff, h.events]
  · funext u
    by_cases hu : u = t <;> simp [World.resume, h.pending, hu]

theorem AutoSim.withSched (h : AutoSim a i w v) (s : Sched) :
    AutoSim a i { w with sched := s } { v with sched := s } :=
  ⟨rfl, h.events, h.autos, h.sems, h.halted, h.pending, h.signal⟩

theorem AutoSim.withAuto (h : AutoSim a i w v) {b : Nat} (hb : b ≠ a) (ev : AutoResetEvent) :
    AutoSim a i { w with autos := update w.autos b ev }
      { v with autos := update v.autos b ev } := by
  refine ⟨h.sched, h.events, fun c hc => ?_, h.sems, h.halted, h.pending, ?_⟩
  · by_cases hcb : c = b
    · simp [hcb]
    · simpa [hcb] using h.autos c hc
  · simpa [Ne.symm hb] using h.signal

theorem AutoSim.withOtherSem (h : AutoSim a i w v) {j : Nat} (hj : j ≠ i) (sem : Semaphore) :
    AutoSim a i { w with sems := update w.sems j sem } { v with sems := update v.sems j sem } := by
  refine ⟨h.sched, h.events, h.autos, fun k hk => ?_, h.halted, h.pending, ?_⟩
  · by_cases hkj : k = j
    · simp [hkj]
    · simpa [hkj] using h.sems k hk
  · simpa [Ne.symm hj] using h.signal

theorem AutoSim.withSignal (h : AutoSim a i w v) {ev : AutoResetEvent} {sem : Semaphore}
    (hsig : SameSignal ev sem) :
    AutoSim a i { w with autos := update w.autos a ev } { v with sems := update v.sems i sem } := by
  refine ⟨h.sched, h.events, fun c hc => ?_, fun j hj => ?_, h.halted, h.pending, ?_⟩
  · simpa [hc] using h.autos c hc
  · simpa [hj] using h.sems j hj
  · simpa using hsig

/-- One call, executed on both sides: it ends in the same way, and in related
worlds when it ends well. -/
theorem AutoSim.exec (h : AutoSim a i w v) (op : Op) (hop : op.touches ≠ some (.sem i)) :
    Matched (AutoSim a i) (exec op w) (exec (op.viaSem a i) v) := by
  have hs := h.sched
  cases op with
  | utCreate x =>
    refine Matched.ok ⟨by simp [hs], h.events, h.autos, h.sems, h.halted, ?_, h.signal⟩
    funext t
    by_cases ht : t = x <;> simp [h.pending, ht]
  | utActivate x =>
    exact Matched.ok
      ⟨by simp [hs], h.events, h.autos, h.sems, by simp [h.halted], h.pending, h.signal⟩
  | utYield =>
    simp only [Op.viaSem, UThread.exec, hs]
    refine Matched.bind (Matched.same _) ?_
    rintro s _ rfl
    exact Matched.ok (h.leave .utYield s)
  | utExit =>
    simp only [Op.viaSem, UThread.exec, hs]
    refine Matched.bind (Matched.same _) ?_
    rintro s _ rfl
    exact Matched.ok (h.withSched s)
  | utRun =>
    simp only [Op.viaSem, UThread.exec, hs]
    refine Matched.bind (Matched.same _) ?_
    rintro s _ rfl
    exact Matched.ok (h.withSched s)
  | utDeactivate =>
    simp only [Op.viaSem, UThread.exec, hs]
    refine Matched.bind (Matched.same _) ?_
    rintro s _ rfl
    have hl := h.leave .utDeactivate s
    exact Matched.ok
      ⟨hl.sched, hl.events, hl.autos, hl.sems, by simp [h.halted], hl.pending, hl.signal⟩
  | eventWait e =>
    simp only [Op.viaSem, UThread.exec, hs, h.events]
    refine Matched.bind (Matched.same _) ?_
    rintro r _ rfl
    have hl := h.leave (.eventWait e) r.2
    exact Matched.ok ⟨hl.sched, rfl, hl.autos, hl.sems, hl.halted, hl.pending, hl.signal⟩
  | eventSet e =>
    exact Matched.ok ⟨by simp [hs, h.events], by simp [hs, h.events], h.autos, h.sems, h.halted,
      h.pending, h.signal⟩
  | autoEventWait b =>
    by_cases hb : b = a
    · subst hb
      have hl := h.leave (.autoEventWait b)
      simp only [Op.viaSem, if_true, UThread.exec, hs] at hl ⊢
      refine Matched.bind (sameSignal_wait h.signal w.sched) ?_
      rintro r r' ⟨hsig, hs'⟩
      rw [hs']
      exact Matched.ok ((hl r.2).withSignal hsig)
    · have hl := h.leave (.autoEventWait b)
      simp only [Op.viaSem, if_neg hb, UThread.exec, hs, h.autos b hb] at hl ⊢
      refine Matched.bind (Matched.same _) ?_
      rintro r _ rfl
      exact Matched.ok ((hl r.2).withAuto hb r.1)
  | autoEventSet b =>
    by_cases hb : b = a
    · subst hb
      have hset := sameSignal_set h.signal w.sched
      simp only [Op.viaSem, if_true, UThread.exec, hs]
      rw [hset.2]
      exact Matched.ok ((h.withSched _).withSignal hset.1)
    · simp only [Op.viaSem, if_neg hb, UThread.exec, hs, h.autos b hb]
      exact Matched.ok ((h.withSched _).withAuto hb _)
  | semWait j n =>
    have hj : j ≠ i := fun hj => hop (by simp [Op.touches, hj])
    simp only [Op.viaSem, UThread.exec, hs, h.sems j hj]
    refine Matched.bind (Matched.same _) ?_
    rintro r _ rfl
    exact Matched.ok ((h.leave (.semWait j n) r.2).withOtherSem hj r.1)
  | semPost j n =>
    have hj : j ≠ i := fun hj => hop (by simp [Op.touches, hj])
    simp only [Op.viaSem, UThread.exec, hs, h.sems j hj]
    exact Matched.ok ((h.withSched _).withOtherSem hj _)
  | ret =>
    simp only [Op.viaSem, UThread.exec, hs]
    cases w.sched.runningThread with
    | none => exact Matched.ok h
    | some c =>
      cases c with
      | main =>
        refine Matched.bind (Matched.same _) ?_
        rintro s _ rfl
        exact Matched.ok (h.withSched s)
      | user t => exact Matched.ok (h.resume t)

theorem AutoSim.step {op : Op} {w' : World} (h : AutoSim a i w v)
    (hop : op.touches ≠ some (.sem i)) (hs : Step w op w') :
    ∃ v', Step v (op.viaSem a i) v' ∧ AutoSim a i w' v' := by
  obtain ⟨v', hv, hrel⟩ := (h.exec op hop).ok_left hs.2
  exact ⟨v', ⟨(h.allowed op).2 hs.1, hv⟩, hrel⟩

theorem AutoSim.step_back {op : Op} {v' : World} (h : AutoSim a i w v)
    (hop : op.touches ≠ some (.sem i)) (hs : Step v (op.viaSem a i) v') :
    ∃ w', Step w op w' ∧ AutoSim a i w' v' := by
  obtain ⟨w', hw, hrel⟩ := (h.exec op hop).ok_right hs.2
  exact ⟨w', ⟨(h.allowed op).1 hs.1, hw⟩, hrel⟩

structure SameToProgram (a i : Nat) (w v : World) : Prop where
  signaled_iff : (w.autos a).signaled = true ↔ (v.sems i).units = 1
  units_le : (v.sems i).units = 0 ∨ (v.sems i).units = 1
  waiters : v.waiting (.sem i) = w.waiting (.auto a)
  blocked : ∀ t, v.pending t = (w.pending t).map (Op.viaSem a i)
  sched : v.sched = w.sched
  idle : (w.autos a).signaled = true → w.waiting (.auto a) = []

theorem AutoSim.sameToProgram (h : AutoSim a i w v) : SameToProgram a i w v := by
  have hu := h.signal.units
  constructor
  · rw [hu]
    cases (w.autos a).signaled <;> simp
  · rw [hu]
    cases (w.autos a).signaled <;> simp
  · simp [h.signal.waiters]
  · exact congrFun h.pending
  · exact h.sched
  · intro hs
    simp [h.signal.idle hs]

/-- The waits let through are at most the signals given, one of which may be kept. -/
def OnePassEach (b : Bool) (ev : AutoResetEvent) : Prop :=
  ev.log.count .passed + ev.signaled.toNat ≤ ev.log.count .set + b.toNat

theorem onePassEach_wait {b : Bool} {ev ev' : AutoResetEvent} {s s' : Sched}
    (hi : OnePassEach b ev) (h : autoEventWait ev s = .ok (ev', s')) : OnePassEach b ev' := by
  unfold OnePassEach at *
  obtain ⟨hs, _, rfl⟩ | ⟨t, hs, _, _, rfl⟩ := autoEventWait_cases h
  · simp [hs, List.count_append] at hi ⊢
    omega
  · simpa [hs, List.count_append] using hi

theorem onePassEach_set {b : Bool} {ev : AutoResetEvent} (s : Sched) (hi : OnePassEach b ev) :
    OnePassEach b (autoEventSet ev s).1 := by
  unfold OnePassEach at *
  have hle := Bool.toNat_le ev.signaled
  cases hw : ev.waiters with
  | nil =>
    simp [autoEventSet, hw, List.count_append]
    omega
  | cons wb wbs =>
    simp [autoEventSet, hw, List.count_append]
    omega

theorem onePassEach_step {b : Bool} {op : Op} {w' : World} (hi : OnePassEach b (w.autos a))
    (h : Step w op w') : OnePassEach b (w'.autos a) := by
  by_cases ht : op.touches = some (.auto a)
  · cases op with
    | autoEventWait x =>
      cases ht
      exact onePassEach_wait hi (autoEventWait_step h)
    | autoEventSet x =>
      cases ht
      have hset : w'.autos a = (autoEventSet (w.autos a) w.sched).1 :=
        congrArg Prod.fst (autoEventSet_step h)
      rw [hset]
      exact onePassEach_set w.sched hi
    | _ => simp [Op.touches] at ht
  · rw [(step_frame h).2.1 a ht]
    exact hi

/-- Auto-reset event `a` against semaphore `i`, over the same history of calls:
each program goes where the other goes, and they agree on the signal, on who waits,
on which calls are suspended and on the ready queue. Each set lets at most one wait
through. -/
theorem auto_event_is_semaphore {c : Config} {a i : Nat} {ops : List Op}
    (hops : ∀ op ∈ ops, op.touches ≠ some (.sem i)) :
    (∀ w, Runs Step (World.init c) ops w →
      ∃ v, Runs Step (World.init (c.withSem a i)) (ops.map (Op.viaSem a i)) v ∧
        SameToProgram a i w v) ∧
    (∀ v, Runs Step (World.init (c.withSem a i)) (ops.map (Op.viaSem a i)) v →
      ∃ w, Runs Step (World.init c) ops w ∧ SameToProgram a i w v) ∧
    (∀ w, Runs Step (World.init c) ops w →
      (w.autos a).log.count .passed + (w.autos a).signaled.toNat ≤
          (w.autos a).log.count .set + (c.autoState a).toNat ∧
      ∀ w', Step w (.autoEventSet a) w' →
        ∃ woken, woken.length ≤ 1 ∧ w'.sched = w.sched.activateAll woken) := by
  have hinit := autoSim_init c a i
  refine ⟨fun w hw => ?_, fun v hv => ?_, fun w hw => ⟨?_, fun w' hs => ?_⟩⟩
  · obtain ⟨v, hv, hrel⟩ := hw.simulation hops hinit fun _ _ _ _ hq h hs => h.step hq hs
    exact ⟨v, hv, hrel.sameToProgram⟩
  · obtain ⟨w, hw, hrel⟩ := hv.simulation_back hops hinit fun _ _ _ _ hq h hs => h.step_back hq hs
    exact ⟨w, hw, hrel.sameToProgram⟩
  · have h0 : OnePassEach (c.autoState a) ((World.init c).autos a) := by
      simp [OnePassEach, World.init, autoEventInit]
    exact hw.invariant (P := fun w => OnePassEach (c.autoState a) (w.autos a)) h0
      fun _ _ _ hi hs => onePassEach_step hi hs
  · have hset : w'.sched = (autoEventSet (w.autos a) w.sched).2 :=
      congrArg Prod.snd (autoEventSet_step hs)
    refine ⟨_, ?_, hset.trans (autoEventSet_eq _ _).2⟩
    simp

/-- Thread 1 blocks on the event and the set of thread 2 lets it through. -/
theorem auto_event_is_semaphore_handoff :
    ∃ v, Runs Step (World.init (Config.plain.withSem 0 0))
      [.utCreate 1, .utCreate 2, .utRun, .semWait 0 1, .semPost 0 1] v ∧
      (v.sems 0).units = 0 ∧ v.sched.readyQueue = [1] := by
  have key : ∀ w, Runs Step (World.init Config.plain)
      [.utCreate 1, .utCreate 2, .utRun, .autoEventWait 0, .autoEventSet 0] w →
      (w.autos 0).signaled = false → w.sched.readyQueue = [1] →
      ∃ v, Runs Step (World.init (Config.plain.withSem 0 0))
        [.utCreate 1, .utCreate 2, .utRun, .semWait 0 1, .semPost 0 1] v ∧
        (v.sems 0).units = 0 ∧ v.sched.readyQueue = [1] := by
    intro w hrun hs hq
    obtain ⟨v, hv, hsame⟩ := (auto_event_is_semaphore (a := 0) (i := 0) (by decide)).1 w hrun
    refine ⟨v, hv, ?_, by rw [hsame.sched]; exact hq⟩
    have hne : (v.sems 0).units ≠ 1 := fun h1 => by simp [hsame.signaled_iff.2 h1] at hs
    exact hsame.units_le.resolve_right hne
  exact key _ (runs_of_runAll _ _ _ _ rfl) rfl rfl

end OsCourse.UThread
