import OsCourse.Lib.Transition
import OsCourse.UThread.Sched

/-! The library with joins (uthreads1): event.c, the alive list and the functions of
uthread.c that `ut_join` changed, in both builds. `schedule`, `ut_run`, `ut_yield`,
`ut_activate` and the switch are those of the scheduler without joins. -/
namespace OsCourse.Join
open Function Transition UThread

structure WaitBlock where
  thread : Handle
  deriving DecidableEq, Repr

/-- `wb->thread = ut_self()`. A block of no user thread is never seen: the
`ut_deactivate` that follows ends the program. -/
def initWaitBlock (s : Sched) : Except Fault WaitBlock :=
  match utSelf s with
  | some (.user t) => .ok ⟨t⟩
  | _ => .error .badThread

structure Event where
  waiters : List WaitBlock
  signaled : Bool
  deriving DecidableEq, Repr

def insertTailList {α : Type*} (q : List α) (x : α) : List α := q ++ [x]
def removeEntryList {α : Type*} [DecidableEq α] (q : List α) (x : α) : List α := q.erase x

def eventInit (initialState : Bool) : Event := ⟨[], initialState⟩

def eventWait (event : Event) (s : Sched) : Except Fault (Event × Sched) :=
  if event.signaled then return (event, s)
  else do
    let wb ← initWaitBlock s
    let event := { event with waiters := insertTailList event.waiters wb }
    let s ← utDeactivate s
    return (event, s)

/-- The loop of `event_set`, on the blocks still linked in `waiters`. -/
def eventSetLoop : List WaitBlock → Sched → List WaitBlock × Sched
  | [], s => ([], s)
  | wb :: waiters, s => eventSetLoop waiters (utActivate wb.thread s)

def eventSet (event : Event) (s : Sched) : Event × Sched :=
  let r := eventSetLoop event.waiters s
  (⟨r.1, true⟩, r.2)

/-- Whether JOIN_WITH_EVENT is defined. -/
inductive Build where
  | withEvent
  | withList
  deriving DecidableEq, Repr

/-- The field of a descriptor that joins use: `terminated`, or `join_waiters`. -/
def Build.Field : Build → Type
  | .withEvent => Event
  | .withList => List Handle

def Build.initField : (b : Build) → b.Field
  | .withEvent => eventInit false
  | .withList => []

/-- The end of `ut_join`. In the build without the event the link of the running
thread's own descriptor goes in the list. -/
def Build.waitExit : (b : Build) → b.Field → Sched → Except Fault (b.Field × Sched)
  | .withEvent, terminated, s => eventWait terminated s
  | .withList, joinWaiters, s =>
    match s.runningThread with
    | some (.user t) => do
      let s ← schedule s
      return (insertTailList joinWaiters t, s)
    | _ => .error .badThread

/-- The loop of `ut_exit`, on the descriptors still linked in `join_waiters`. -/
def joinWaitersLoop : List Handle → Sched → List Handle × Sched
  | [], s => ([], s)
  | t :: joinWaiters, s => joinWaitersLoop joinWaiters (s.insertReady t)

def Build.wakeJoiners : (b : Build) → b.Field → Sched → b.Field × Sched
  | .withEvent, terminated, s => eventSet terminated s
  | .withList, joinWaiters, s => joinWaitersLoop joinWaiters s

/-- The static variables of uthread.c, and the field that joins use of each
descriptor. -/
structure Lib (b : Build) where
  sched : Sched
  aliveQueue : List Handle
  field : Handle → b.Field

variable {b : Build}

def utInit (b : Build) : Lib b := ⟨UThread.utInit, [], fun _ => b.initField⟩

/-- `ut_create`, where `h` is the descriptor that `malloc` returned. -/
def utCreate (h : Handle) (l : Lib b) : Lib b :=
  { aliveQueue := insertTailList l.aliveQueue h
    field := update l.field h b.initField
    sched := UThread.utCreate h l.sched }

/-- The loop of `ut_alive`, on the rest of the alive list. -/
def utAliveLoop (thread : Handle) : List Handle → Bool
  | [] => false
  | curr :: rest => if curr = thread then true else utAliveLoop thread rest

def utAlive (thread : Handle) (l : Lib b) : Bool := utAliveLoop thread l.aliveQueue

def utJoin (thread : Handle) (l : Lib b) : Except Fault (Lib b) :=
  if ¬ utAlive thread l then return l
  else do
    let (field, s) ← b.waitExit (l.field thread) l.sched
    return { l with sched := s, field := update l.field thread field }

def utExit (l : Lib b) : Except Fault (Lib b) :=
  match l.sched.runningThread with
  | some (.user t) => do
    let s := { l.sched with numberOfThreads := l.sched.numberOfThreads - 1 }
    let r := b.wakeJoiners (l.field t) s
    let s ← internalExit r.2.runningThread (extractNextThread r.2).1 (extractNextThread r.2).2
    return {
      sched := s
      aliveQueue := removeEntryList l.aliveQueue t
      field := update l.field t r.1 }
  | _ => .error .badThread

def Build.joiners : (b : Build) → b.Field → List Handle
  | .withEvent, terminated => terminated.waiters.map (·.thread)
  | .withList, joinWaiters => joinWaiters

def Build.Unset : (b : Build) → b.Field → Prop
  | .withEvent, terminated => terminated.signaled = false
  | .withList, _ => True

@[simp] theorem joiners_initField (b : Build) : b.joiners b.initField = [] := by
  cases b <;> rfl

theorem unset_initField (b : Build) : b.Unset b.initField := by
  cases b
  · rfl
  · trivial

theorem utAlive_iff {h : Handle} {l : Lib b} : utAlive h l = true ↔ h ∈ l.aliveQueue := by
  unfold utAlive
  induction l.aliveQueue with
  | nil => simp [utAliveLoop]
  | cons x q ih =>
    by_cases hx : x = h
    · simp [utAliveLoop, hx]
    · simp [utAliveLoop, hx, Ne.symm hx, ih]

/-- While its thread lives, a wait puts the caller last among the joiners. -/
theorem waitExit_cases {field field' : b.Field} {s s' : Sched} (hu : b.Unset field)
    (h : b.waitExit field s = .ok (field', s')) :
    ∃ t, s.current = some t ∧ schedule s = .ok s' ∧ b.Unset field' ∧
      b.joiners field' = b.joiners field ++ [t] := by
  cases b with
  | withEvent =>
    have hs : field.signaled = false := hu
    simp only [Build.waitExit, eventWait, hs] at h
    obtain ⟨wb, hwb, h⟩ := bind_ok h
    obtain ⟨s1, hs1, h⟩ := bind_ok h
    cases h
    have hcur : s.current = some wb.thread := by
      unfold initWaitBlock utSelf at hwb
      split at hwb
      · cases hwb
        exact current_eq_some.2 ‹_›
      · cases hwb
    exact ⟨wb.thread, hcur, hs1, rfl, by simp [Build.joiners, insertTailList]⟩
  | withList =>
    simp only [Build.waitExit] at h
    split at h
    · rename_i t hr
      obtain ⟨s1, hs1, h⟩ := bind_ok h
      cases h
      exact ⟨t, current_eq_some.2 hr, hs1, trivial, rfl⟩
    · cases h

theorem waitExit_ok {field : b.Field} {s : Sched} {t : Handle} (hu : b.Unset field)
    (hc : s.current = some t) (hm : s.mainThread = some .main) :
    ∃ field', b.waitExit field s = .ok (field', s.dispatch) := by
  have hr := current_eq_some.1 hc
  have hsch : schedule s = .ok s.dispatch := schedule_ok (by simp [hr]) hm
  cases b with
  | withEvent =>
    have hs : field.signaled = false := hu
    refine ⟨{ field with waiters := insertTailList field.waiters ⟨t⟩ }, ?_⟩
    simp only [Build.waitExit, eventWait, hs, initWaitBlock, utSelf, hr, utDeactivate, hsch]
    rfl
  | withList =>
    refine ⟨insertTailList field t, ?_⟩
    simp only [Build.waitExit, hr, hsch]
    rfl

theorem eventSetLoop_eq (wbs : List WaitBlock) (s : Sched) :
    eventSetLoop wbs s = ([], s.activateAll (wbs.map (·.thread))) := by
  induction wbs generalizing s with
  | nil => simp [eventSetLoop, activateAll_nil]
  | cons wb wbs ih => simp [eventSetLoop, ih, activateAll_cons]

theorem joinWaitersLoop_eq (ts : List Handle) (s : Sched) :
    joinWaitersLoop ts s = ([], s.activateAll ts) := by
  induction ts generalizing s with
  | nil => simp [joinWaitersLoop, activateAll_nil]
  | cons t ts ih =>
    rw [joinWaitersLoop, ih]
    exact congrArg (Prod.mk []) (activateAll_cons s t ts)

theorem wakeJoiners_spec (field : b.Field) (s : Sched) :
    b.joiners (b.wakeJoiners field s).1 = [] ∧
    (b.wakeJoiners field s).2 = s.activateAll (b.joiners field) := by
  cases b with
  | withEvent => simp [Build.wakeJoiners, eventSet, eventSetLoop_eq, Build.joiners]
  | withList =>
    have hloop := joinWaitersLoop_eq field s
    exact ⟨congrArg Prod.fst hloop, congrArg Prod.snd hloop⟩

theorem utExit_ok {l : Lib b} {t : Handle} (hc : l.sched.current = some t)
    (hm : l.sched.mainThread = some .main) : ∃ l', utExit l = .ok l' := by
  unfold utExit
  split
  · rename_i u hu
    have hwake := (wakeJoiners_spec (l.field u)
      { l.sched with numberOfThreads := l.sched.numberOfThreads - 1 }).2
    have hexit := internalExit_ok (s := (b.wakeJoiners (l.field u)
      { l.sched with numberOfThreads := l.sched.numberOfThreads - 1 }).2) (t := t)
      (by rw [hwake]; exact hc) (by rw [hwake]; exact hm)
    simp only [hexit]
    exact ⟨_, rfl⟩
  · rename_i hno
    exact absurd (current_eq_some.1 hc) (hno t)

end OsCourse.Join
