import Mathlib.Data.Finset.Card

/-! The scheduler of the user thread library (uthread.c): descriptors, the ready
queue and the operations that move threads. The queue is the sequence of the
descriptors linked in it; `context_switch` only changes who runs. -/
namespace OsCourse.UThread

/-- Value of a `uthread_t *` that `ut_create` returned. -/
abbrev Handle := Nat

/-- What `running_thread` and `main_thread` point to when they are not NULL. -/
inductive Thread where
  | main
  | user (h : Handle)
  deriving DecidableEq, Repr

/-- How a call ends the program: a descriptor is reached through NULL (or
through the proxy of the main thread), or an assertion of `ut_run` fails. -/
inductive Fault where
  | badThread
  | stillRunning
  | readyLeft
  | threadsLeft
  deriving DecidableEq, Repr

inductive SchedEvent where
  | created (h : Handle)
  | inserted (h : Handle)
  | dispatched (h : Handle)
  | freed (h : Handle)
  deriving DecidableEq, Repr

/-- The static variables of uthread.c. `live` is the set of descriptors that are
allocated; `trace` is history only, no operation reads it. -/
structure Sched where
  numberOfThreads : Nat
  readyQueue : List Handle
  runningThread : Option Thread
  mainThread : Option Thread
  live : Finset Handle
  trace : List SchedEvent

def isListEmpty {α : Type*} (q : List α) : Bool := q.isEmpty
def insertListLast {α : Type*} (q : List α) (x : α) : List α := q ++ [x]

/-- `insert_list_last(&ready_queue, &thread->entry)`. -/
def Sched.insertReady (h : Handle) (s : Sched) : Sched :=
  { s with
    readyQueue := insertListLast s.readyQueue h
    trace := s.trace ++ [.inserted h] }

/-- `running_thread = t`, the only effect of a switch the scheduler sees. -/
def Sched.switchTo (t : Thread) (s : Sched) : Sched :=
  { s with
    runningThread := some t
    trace := s.trace ++ (match t with | .main => [] | .user h => [.dispatched h]) }

def extractNextThread (s : Sched) : Option Thread × Sched :=
  match s.readyQueue with
  | [] => (s.mainThread, s)
  | h :: q => (some (.user h), { s with readyQueue := q })

/-- Both pointers are dereferenced: `(%rdi)` is written, `(%rsi)` is read. -/
def contextSwitch (curr next : Option Thread) (s : Sched) : Except Fault Sched :=
  match curr, next with
  | some _, some t => .ok (s.switchTo t)
  | _, _ => .error .badThread

def schedule (s : Sched) : Except Fault Sched :=
  contextSwitch s.runningThread (extractNextThread s).1 (extractNextThread s).2

def utInit : Sched :=
  { numberOfThreads := 0, readyQueue := [], runningThread := none, mainThread := none,
    live := ∅, trace := [] }

/-- `ut_run` up to its call of `schedule`. -/
def utRun (s : Sched) : Except Fault Sched :=
  if s.runningThread ≠ none then .error .stillRunning
  else if isListEmpty s.readyQueue then .ok s
  else schedule { s with mainThread := some .main, runningThread := some .main }

/-- The rest of `ut_run`, executed when the main thread is switched back in. -/
def utRunEnd (s : Sched) : Except Fault Sched :=
  if ¬ isListEmpty s.readyQueue then .error .readyLeft
  else if s.numberOfThreads ≠ 0 then .error .threadsLeft
  else .ok { s with runningThread := none, mainThread := none }

def internalCleanup (h : Handle) (s : Sched) : Sched :=
  { s with live := s.live.erase h, trace := s.trace ++ [.freed h] }

/-- The cleanup of `curr` runs on the stack of `next`, after the switch. -/
def internalExit (curr next : Option Thread) (s : Sched) : Except Fault Sched :=
  match curr, next with
  | some (.user h), some t => .ok (internalCleanup h (s.switchTo t))
  | _, _ => .error .badThread

def utExit (s : Sched) : Except Fault Sched :=
  let s := { s with numberOfThreads := s.numberOfThreads - 1 }
  internalExit s.runningThread (extractNextThread s).1 (extractNextThread s).2

def utYield (s : Sched) : Except Fault Sched :=
  if isListEmpty s.readyQueue then .ok s
  else match s.runningThread with
    | some (.user t) => schedule (s.insertReady t)
    | _ => .error .badThread

def utSelf (s : Sched) : Option Thread := s.runningThread

def utDeactivate (s : Sched) : Except Fault Sched := schedule s

def utActivate (h : Handle) (s : Sched) : Sched := s.insertReady h

/-- `ut_create`, where `h` is the descriptor that `malloc` returned. -/
def utCreate (h : Handle) (s : Sched) : Sched :=
  utActivate h
    { s with
      live := insert h s.live
      trace := s.trace ++ [.created h]
      numberOfThreads := s.numberOfThreads + 1 }

def Sched.current (s : Sched) : Option Handle :=
  match s.runningThread with
  | some (.user t) => some t
  | _ => none

/-- What `schedule` does when it does not end the program. -/
def Sched.dispatch (s : Sched) : Sched :=
  match s.readyQueue with
  | [] => s.switchTo .main
  | h :: q => { s with readyQueue := q }.switchTo (.user h)

/-- The threads `ts` activated one after the other. -/
def Sched.activateAll (s : Sched) (ts : List Handle) : Sched :=
  { s with
    readyQueue := s.readyQueue ++ ts
    trace := s.trace ++ ts.map .inserted }

theorem current_eq_some {s : Sched} {t : Handle} :
    s.current = some t ↔ s.runningThread = some (.user t) := by
  unfold Sched.current
  split <;> simp_all

theorem schedule_running {s s' : Sched} (h : schedule s = .ok s') : s.runningThread ≠ none := by
  intro hr
  simp [schedule, contextSwitch, hr] at h

theorem schedule_eq_dispatch {s s' : Sched} (h : schedule s = .ok s')
    (hm : s.mainThread = none ∨ s.mainThread = some .main) : s' = s.dispatch := by
  have hr := schedule_running h
  obtain ⟨c, hc⟩ := Option.ne_none_iff_exists'.1 hr
  cases hq : s.readyQueue with
  | nil =>
    obtain hm | hm := hm <;>
      simp [schedule, contextSwitch, extractNextThread, Sched.dispatch, hq, hc, hm] at h ⊢
    exact h.symm
  | cons x q =>
    simp [schedule, contextSwitch, extractNextThread, Sched.dispatch, hq, hc] at h ⊢
    exact h.symm

theorem utRun_cases {s s' : Sched} (h : utRun s = .ok s') :
    s' = s ∨ s.runningThread = none ∧
      s' = { s with mainThread := some .main, runningThread := some .main }.dispatch := by
  unfold utRun at h
  split at h
  · cases h
  · rename_i hr
    split at h
    · cases h
      exact Or.inl rfl
    · exact Or.inr ⟨not_not.mp hr, schedule_eq_dispatch h (Or.inr rfl)⟩

theorem utRunEnd_eq {s s' : Sched} (h : utRunEnd s = .ok s') :
    s.readyQueue = [] ∧ s.numberOfThreads = 0 ∧
      s' = { s with runningThread := none, mainThread := none } := by
  unfold utRunEnd at h
  split at h
  · cases h
  · rename_i hq
    split at h
    · cases h
    · rename_i hn
      cases h
      exact ⟨by simpa [isListEmpty] using hq, by simpa using hn, rfl⟩

theorem internalExit_eq_dispatch {s s' : Sched}
    (h : internalExit s.runningThread (extractNextThread s).1 (extractNextThread s).2 = .ok s')
    (hm : s.mainThread = none ∨ s.mainThread = some .main) :
    ∃ t, s.current = some t ∧ s' = internalCleanup t s.dispatch := by
  cases hr : s.runningThread with
  | none => simp [internalExit, hr] at h
  | some c =>
    cases c with
    | main => simp [internalExit, hr] at h
    | user t =>
      refine ⟨t, current_eq_some.2 hr, ?_⟩
      cases hq : s.readyQueue with
      | nil =>
        obtain hm | hm := hm <;>
          simp [internalExit, extractNextThread, Sched.dispatch, hr, hq, hm] at h ⊢
        exact h.symm
      | cons x q =>
        simp [internalExit, extractNextThread, Sched.dispatch, hr, hq] at h ⊢
        exact h.symm

theorem utExit_eq_dispatch {s s' : Sched} (h : utExit s = .ok s')
    (hm : s.mainThread = none ∨ s.mainThread = some .main) :
    ∃ t, s.current = some t ∧ s' = internalCleanup t
      { s with numberOfThreads := s.numberOfThreads - 1 }.dispatch :=
  internalExit_eq_dispatch h hm

theorem schedule_ok {s : Sched} (hr : s.runningThread ≠ none) (hm : s.mainThread = some .main) :
    schedule s = .ok s.dispatch := by
  obtain ⟨c, hc⟩ := Option.ne_none_iff_exists'.1 hr
  cases hq : s.readyQueue <;>
    simp [schedule, contextSwitch, extractNextThread, Sched.dispatch, hq, hc, hm]

theorem internalExit_ok {s : Sched} {t : Handle} (hc : s.current = some t)
    (hm : s.mainThread = some .main) :
    internalExit s.runningThread (extractNextThread s).1 (extractNextThread s).2 =
      .ok (internalCleanup t s.dispatch) := by
  have hr := current_eq_some.1 hc
  cases hq : s.readyQueue <;>
    simp [internalExit, extractNextThread, Sched.dispatch, hq, hr, hm]

@[simp] theorem dispatch_numberOfThreads (s : Sched) :
    s.dispatch.numberOfThreads = s.numberOfThreads := by
  unfold Sched.dispatch; split <;> rfl

@[simp] theorem dispatch_live (s : Sched) : s.dispatch.live = s.live := by
  unfold Sched.dispatch; split <;> rfl

@[simp] theorem dispatch_mainThread (s : Sched) : s.dispatch.mainThread = s.mainThread := by
  unfold Sched.dispatch; split <;> rfl

theorem dispatch_front (s : Sched) :
    s.dispatch.current.toList ++ s.dispatch.readyQueue = s.readyQueue := by
  unfold Sched.dispatch
  split <;> simp_all [Sched.current, Sched.switchTo]

theorem mem_dispatch {s : Sched} {t : Handle} (h : t ∈ s.readyQueue) :
    s.dispatch.current = some t ∨ t ∈ s.dispatch.readyQueue := by
  rw [← dispatch_front, List.mem_append] at h
  simpa using h

theorem dispatch_readyQueue (s : Sched) : s.dispatch.readyQueue = s.readyQueue.tail := by
  cases hq : s.readyQueue <;> simp [Sched.dispatch, Sched.switchTo, hq]

theorem dispatch_trace (s : Sched) :
    s.dispatch.trace = s.trace ++ s.dispatch.current.toList.map .dispatched := by
  unfold Sched.dispatch
  split <;> simp [Sched.current, Sched.switchTo]

theorem dispatch_running (s : Sched) : s.dispatch.runningThread ≠ none := by
  unfold Sched.dispatch
  split <;> simp [Sched.switchTo]

theorem dispatch_main {s : Sched} (h : s.dispatch.runningThread = some .main) :
    s.readyQueue = [] ∧ s.dispatch.readyQueue = [] := by
  unfold Sched.dispatch at *
  split at h <;> simp_all [Sched.switchTo]

@[simp] theorem insertReady_eq (h : Handle) (s : Sched) :
    s.insertReady h = s.activateAll [h] := rfl

theorem activateAll_nil (s : Sched) : s.activateAll [] = s := by
  simp [Sched.activateAll]

theorem activateAll_cons (s : Sched) (t : Handle) (ts : List Handle) :
    (utActivate t s).activateAll ts = s.activateAll (t :: ts) := by
  simp [Sched.activateAll, utActivate, Sched.insertReady, insertListLast]

theorem activateAll_append (s : Sched) (ts us : List Handle) :
    (s.activateAll ts).activateAll us = s.activateAll (ts ++ us) := by
  simp [Sched.activateAll, List.append_assoc]

@[simp] theorem activateAll_current (s : Sched) (ts : List Handle) :
    (s.activateAll ts).current = s.current := rfl

end OsCourse.UThread
