import OsCourse.Lib.Transition
import OsCourse.UThread.Sched

/-! The synchronizers: waitblock.h, event.c, auto_event.c and semaphore.c. Each
function takes the object it is called on and the scheduler, and gives both back.
The `log` of an object is history only, no operation reads it. -/
namespace OsCourse.UThread
open Transition

structure Waitblock where
  thread : Handle
  deriving DecidableEq, Repr

/-- A block that does not name a user thread is never returned: `ut_deactivate`
follows, and ends the program when no user thread is running. -/
def initWaitblock (s : Sched) : Except Fault Waitblock :=
  match utSelf s with
  | some (.user t) => .ok ⟨t⟩
  | _ => .error .badThread

inductive EventStep where
  | set
  | blocked (t : Handle)
  | returned (t : Handle)
  | passed
  deriving DecidableEq, Repr

structure Event where
  signaled : Bool
  waiters : List Waitblock
  log : List EventStep
  deriving DecidableEq, Repr

def eventInit : Event := ⟨false, [], []⟩

def eventWait (event : Event) (s : Sched) : Except Fault (Event × Sched) :=
  if event.signaled = false then do
    let wblock ← initWaitblock s
    let event := { event with
      waiters := insertListLast event.waiters wblock
      log := event.log ++ [.blocked wblock.thread] }
    let s ← utDeactivate s
    return (event, s)
  else return (event, s)

/-- The loop of `event_set`, on the blocks still linked in `waiters`. -/
def eventSetLoop : List Waitblock → Sched → List Waitblock × Sched
  | [], s => ([], s)
  | pwblock :: waiters, s => eventSetLoop waiters (utActivate pwblock.thread s)

def eventSet (event : Event) (s : Sched) : Event × Sched :=
  let r := eventSetLoop event.waiters s
  ({ signaled := true, waiters := r.1, log := event.log ++ [.set] }, r.2)

/-- `typedef event_t auto_reset_event_t`. -/
abbrev AutoResetEvent := Event

def autoEventInit (initialState : Bool) : AutoResetEvent := ⟨initialState, [], []⟩

def autoEventWait (event : AutoResetEvent) (s : Sched) :
    Except Fault (AutoResetEvent × Sched) :=
  if event.signaled = true then
    return ({ event with signaled := false, log := event.log ++ [.passed] }, s)
  else do
    let wblock ← initWaitblock s
    let event := { event with
      waiters := insertListLast event.waiters wblock
      log := event.log ++ [.blocked wblock.thread] }
    let s ← utDeactivate s
    return (event, s)

def autoEventSet (event : AutoResetEvent) (s : Sched) : AutoResetEvent × Sched :=
  match event.waiters with
  | [] => ({ event with signaled := true, log := event.log ++ [.set] }, s)
  | wb :: waiters =>
    ({ event with waiters := waiters, log := event.log ++ [.set, .passed] },
      utActivate wb.thread s)

structure SemaphoreWaitblock where
  header : Waitblock
  units : Int32
  deriving DecidableEq, Repr

/-- History of a semaphore. A request names the value of `ut_self()`. -/
inductive SemStep where
  | requested (who : Option Thread) (units : Int32)
  | granted (who : Option Thread) (units : Int32)
  | blocked (t : Handle)
  | activated (t : Handle)
  | posted (units : Int32)
  | cut (units : Int)
  deriving DecidableEq, Repr

structure Semaphore where
  waiters : List SemaphoreWaitblock
  units : Int32
  limit : Int32
  log : List SemStep
  deriving DecidableEq, Repr

def semInit (units limit : Int32) : Semaphore := ⟨[], units, limit, []⟩

def initSemWaitblock (units : Int32) (s : Sched) : Except Fault SemaphoreWaitblock := do
  let header ← initWaitblock s
  return ⟨header, units⟩

def semWait (sem : Semaphore) (units : Int32) (s : Sched) :
    Except Fault (Semaphore × Sched) :=
  if isListEmpty sem.waiters ∧ sem.units ≥ units then
    return ({ sem with
      units := sem.units - units
      log := sem.log ++ [.requested (utSelf s) units, .granted (utSelf s) units] }, s)
  else do
    let waitblock ← initSemWaitblock units s
    let sem := { sem with
      waiters := insertListLast sem.waiters waitblock
      log := sem.log ++ [.requested (utSelf s) units, .blocked waitblock.header.thread] }
    let s ← utDeactivate s
    return (sem, s)

/-- The loop of `sem_post`, on the blocks still linked in `waiters`. -/
def semPostLoop : List SemaphoreWaitblock → Semaphore → Sched → Semaphore × Sched
  | [], sem, s => ({ sem with waiters := [] }, s)
  | waitblock :: rest, sem, s =>
    if sem.units > 0 then
      if sem.units < waitblock.units then
        -- the first request that cannot be satisfied stops the loop
        ({ sem with waiters := waitblock :: rest }, s)
      else
        semPostLoop rest
          { sem with
            units := sem.units - waitblock.units
            log := sem.log ++ [.granted (some (.user waitblock.header.thread)) waitblock.units,
              .activated waitblock.header.thread] }
          (utActivate waitblock.header.thread s)
    else ({ sem with waiters := waitblock :: rest }, s)

/-- `(sem->units += units) > sem->limit` adds in `int`. -/
def semPostUnits (sem : Semaphore) (units : Int32) : Semaphore :=
  let sum := sem.units + units
  if sum > sem.limit then
    { sem with
      units := sem.limit
      log := sem.log ++ [.posted units, .cut (sum.toInt - sem.limit.toInt)] }
  else { sem with units := sum, log := sem.log ++ [.posted units] }

def semPost (sem : Semaphore) (units : Int32) (s : Sched) : Semaphore × Sched :=
  semPostLoop sem.waiters (semPostUnits sem units) s

theorem initWaitblock_ok {s : Sched} {wb : Waitblock} (h : initWaitblock s = .ok wb) :
    s.current = some wb.thread := by
  unfold initWaitblock utSelf at h
  split at h
  · cases h
    exact current_eq_some.2 ‹_›
  · cases h

theorem eventWait_cases {ev ev' : Event} {s s' : Sched} (h : eventWait ev s = .ok (ev', s')) :
    (ev.signaled = true ∧ ev' = ev ∧ s' = s) ∨
    ∃ t, ev.signaled = false ∧ s.current = some t ∧ schedule s = .ok s' ∧
      ev' = { ev with waiters := ev.waiters ++ [⟨t⟩], log := ev.log ++ [.blocked t] } := by
  unfold eventWait at h
  split at h
  · rename_i hs
    obtain ⟨wb, hwb, h⟩ := bind_ok h
    obtain ⟨s1, hs1, h⟩ := bind_ok h
    cases h
    exact Or.inr ⟨wb.thread, hs, initWaitblock_ok hwb, hs1, rfl⟩
  · cases h
    exact Or.inl ⟨by simp_all, rfl, rfl⟩

theorem autoEventWait_cases {ev ev' : AutoResetEvent} {s s' : Sched}
    (h : autoEventWait ev s = .ok (ev', s')) :
    (ev.signaled = true ∧ s' = s ∧
      ev' = { ev with signaled := false, log := ev.log ++ [.passed] }) ∨
    ∃ t, ev.signaled = false ∧ s.current = some t ∧ schedule s = .ok s' ∧
      ev' = { ev with waiters := ev.waiters ++ [⟨t⟩], log := ev.log ++ [.blocked t] } := by
  unfold autoEventWait at h
  split at h
  · cases h
    exact Or.inl ⟨‹_›, rfl, rfl⟩
  · obtain ⟨wb, hwb, h⟩ := bind_ok h
    obtain ⟨s1, hs1, h⟩ := bind_ok h
    cases h
    exact Or.inr ⟨wb.thread, by simp_all, initWaitblock_ok hwb, hs1, rfl⟩

theorem semWait_cases {sem sem' : Semaphore} {n : Int32} {s s' : Sched}
    (h : semWait sem n s = .ok (sem', s')) :
    (sem.waiters = [] ∧ n ≤ sem.units ∧ s' = s ∧
      sem' = { sem with
        units := sem.units - n
        log := sem.log ++ [.requested (utSelf s) n, .granted (utSelf s) n] }) ∨
    ∃ t, ¬ (sem.waiters = [] ∧ n ≤ sem.units) ∧ s.current = some t ∧ schedule s = .ok s' ∧
      sem' = { sem with
        waiters := sem.waiters ++ [⟨⟨t⟩, n⟩]
        log := sem.log ++ [.requested (utSelf s) n, .blocked t] } := by
  unfold semWait at h
  split at h
  · rename_i hc
    cases h
    exact Or.inl ⟨by simpa [isListEmpty] using hc.1, hc.2, rfl, rfl⟩
  · rename_i hc
    obtain ⟨wb, hwb, h⟩ := bind_ok h
    obtain ⟨wh, hwh, hwb⟩ := bind_ok hwb
    obtain ⟨s1, hs1, h⟩ := bind_ok h
    cases hwb
    cases h
    exact Or.inr ⟨wh.thread, by simpa [isListEmpty] using hc, initWaitblock_ok hwh, hs1, rfl⟩

theorem eventSetLoop_eq (wbs : List Waitblock) (s : Sched) :
    eventSetLoop wbs s = ([], s.activateAll (wbs.map (·.thread))) := by
  induction wbs generalizing s with
  | nil => simp [eventSetLoop, activateAll_nil]
  | cons wb wbs ih => simp [eventSetLoop, ih, activateAll_cons]

theorem eventSet_eq (ev : Event) (s : Sched) :
    eventSet ev s = ({ signaled := true, waiters := [], log := ev.log ++ [.set] },
      s.activateAll (ev.waiters.map (·.thread))) := by
  simp [eventSet, eventSetLoop_eq]

theorem autoEventSet_eq (ev : AutoResetEvent) (s : Sched) :
    (autoEventSet ev s).1.waiters = ev.waiters.tail ∧
    (autoEventSet ev s).2 = s.activateAll ((ev.waiters.take 1).map (·.thread)) := by
  unfold autoEventSet
  split <;> simp_all [activateAll_nil, utActivate]

/-- The history entries that `sem_post` adds for the blocks it serves. -/
def servedLog (served : List SemaphoreWaitblock) : List SemStep :=
  served.flatMap fun wb =>
    [.granted (some (.user wb.header.thread)) wb.units, .activated wb.header.thread]

theorem semPostLoop_no_units {sem : Semaphore} (h : sem.units = 0)
    (wbs : List SemaphoreWaitblock) (s : Sched) :
    semPostLoop wbs sem s = ({ sem with waiters := wbs }, s) := by
  cases wbs with
  | nil => rfl
  | cons wb wbs => simp [semPostLoop, h]

theorem semPostLoop_spec (wbs : List SemaphoreWaitblock) (sem : Semaphore) (s : Sched) :
    ∃ served rest, wbs = served ++ rest ∧
      (semPostLoop wbs sem s).1.waiters = rest ∧
      (semPostLoop wbs sem s).1.limit = sem.limit ∧
      (semPostLoop wbs sem s).1.units = served.foldl (fun u wb => u - wb.units) sem.units ∧
      (semPostLoop wbs sem s).1.log = sem.log ++ servedLog served ∧
      (semPostLoop wbs sem s).2 = s.activateAll (served.map (·.header.thread)) := by
  induction wbs generalizing sem s with
  | nil => exact ⟨[], [], rfl, rfl, rfl, rfl, by simp [semPostLoop, servedLog],
      by simp [semPostLoop, activateAll_nil]⟩
  | cons wb wbs ih =>
    by_cases hu : sem.units > 0
    · by_cases hw : sem.units < wb.units
      · exact ⟨[], wb :: wbs, by simp [semPostLoop, hu, hw, servedLog, activateAll_nil]⟩
      · obtain ⟨served, rest, he, hwt, hl, hun, hlog, hs⟩ := ih
          { sem with
            units := sem.units - wb.units
            log := sem.log ++ [.granted (some (.user wb.header.thread)) wb.units,
              .activated wb.header.thread] }
          (utActivate wb.header.thread s)
        refine ⟨wb :: served, rest, by simp [he], ?_⟩
        simp only [semPostLoop, hu, hw, if_true, if_false]
        refine ⟨hwt, hl, hun, ?_, ?_⟩
        · rw [hlog]; simp [servedLog]
        · rw [hs]; simp [activateAll_cons]
    · exact ⟨[], wb :: wbs, by simp [semPostLoop, hu, servedLog, activateAll_nil]⟩

end OsCourse.UThread
