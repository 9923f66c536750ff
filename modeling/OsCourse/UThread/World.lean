import OsCourse.Lib.Placement
import OsCourse.Lib.Transition
import OsCourse.UThread.Synch

/-! Programs over the library. A world holds the scheduler, the synchronizers and,
for each thread that is switched out, the call it is suspended in. Which call the
running thread makes next is free, so the runs of all programs are covered. -/
namespace OsCourse.UThread
open Function Placement Transition

/-- The calls a program can make. `ret` is the end of a call during which the
thread was switched out: for the main thread, the code of `ut_run` after
`schedule`; for a user thread, the return to its own code. -/
inductive Op where
  | utCreate (h : Handle)
  | utYield
  | utExit
  | utDeactivate
  | utActivate (h : Handle)
  | utRun
  | eventWait (e : Nat)
  | eventSet (e : Nat)
  | autoEventWait (a : Nat)
  | autoEventSet (a : Nat)
  | semWait (i : Nat) (units : Int32)
  | semPost (i : Nat) (units : Int32)
  | ret
  deriving DecidableEq, Repr

/-- A synchronizer, named as the owner of its `waiters` list. -/
inductive Sync where
  | event (e : Nat)
  | auto (a : Nat)
  | sem (i : Nat)
  deriving DecidableEq, Repr

/-- The list of waiters a suspended call stands in. -/
def Op.waitsOn : Op → Option Sync
  | .eventWait e => some (.event e)
  | .autoEventWait a => some (.auto a)
  | .semWait i _ => some (.sem i)
  | _ => none

/-- `halted` lists the threads that called `ut_deactivate` themselves and that
no `ut_activate` has named since: where the program keeps them is its affair. -/
structure World where
  sched : Sched
  events : Nat → Event
  autos : Nat → AutoResetEvent
  sems : Nat → Semaphore
  pending : Handle → Option Op
  halted : List Handle

structure Config where
  autoState : Nat → Bool
  semUnits : Nat → Int32
  semLimit : Nat → Int32

/-- Events not signaled, semaphores with no units and room for one. -/
def Config.plain : Config := ⟨fun _ => false, fun _ => 0, fun _ => 1⟩

def World.init (c : Config) : World :=
  { sched := utInit
    events := fun _ => eventInit
    autos := fun a => autoEventInit (c.autoState a)
    sems := fun i => semInit (c.semUnits i) (c.semLimit i)
    pending := fun _ => none
    halted := [] }

/-- The world after call `op` gave the scheduler `s`: the caller is suspended in
`op` when another thread runs now. -/
def World.leave (w : World) (op : Op) (s : Sched) : World :=
  { w with
    sched := s
    pending := match w.sched.current with
      | some t => if s.current = some t then w.pending else update w.pending t (some op)
      | none => w.pending }

/-- The event whose `event_wait` returns to `t` records it. -/
def World.logReturn (w : World) (t : Handle) (e : Nat) : Event :=
  if w.pending t = some (.eventWait e) then
    { w.events e with log := (w.events e).log ++ [.returned t] }
  else w.events e

def World.resume (w : World) (t : Handle) : World :=
  { w with pending := update w.pending t none, events := w.logReturn t }

def exec (op : Op) (w : World) : Except Fault World :=
  match op with
  | .utCreate h =>
    return { w with sched := utCreate h w.sched, pending := update w.pending h none }
  | .utYield => do return w.leave op (← utYield w.sched)
  | .utExit => do return { w with sched := ← utExit w.sched }
  | .utDeactivate => do
    let s ← utDeactivate w.sched
    return { w.leave op s with halted := w.halted ++ w.sched.current.toList }
  | .utActivate h =>
    return { w with sched := utActivate h w.sched, halted := w.halted.erase h }
  | .utRun => do return { w with sched := ← utRun w.sched }
  | .eventWait e => do
    let (event, s) ← eventWait (w.events e) w.sched
    return { w.leave op s with events := update w.events e event }
  | .eventSet e =>
    let r := eventSet (w.events e) w.sched
    return { w with events := update w.events e r.1, sched := r.2 }
  | .autoEventWait a => do
    let (event, s) ← autoEventWait (w.autos a) w.sched
    return { w.leave op s with autos := update w.autos a event }
  | .autoEventSet a =>
    let r := autoEventSet (w.autos a) w.sched
    return { w with autos := update w.autos a r.1, sched := r.2 }
  | .semWait i units => do
    let (sem, s) ← semWait (w.sems i) units w.sched
    return { w.leave op s with sems := update w.sems i sem }
  | .semPost i units =>
    let r := semPost (w.sems i) units w.sched
    return { w with sems := update w.sems i r.1, sched := r.2 }
  | .ret =>
    match w.sched.runningThread with
    | some .main => do return { w with sched := ← utRunEnd w.sched }
    | some (.user t) => return w.resume t
    | none => return w

/-- Control is inside a call that was suspended: only its end can come next. -/
def World.midCall (w : World) : Bool :=
  match w.sched.runningThread with
  | none => false
  | some .main => true
  | some (.user t) => (w.pending t).isSome

/-- A new descriptor is not one in use, and only a halted thread is activated. -/
def World.admits (w : World) : Op → Bool
  | .utCreate h => h ∉ w.sched.live
  | .utActivate h => h ∈ w.halted
  | _ => true

/-- What `malloc` and the program keep to: `ret` comes exactly where a call is
being left, and the arguments are admitted. -/
def Allowed (w : World) (op : Op) : Prop :=
  (w.midCall = true ↔ op = .ret) ∧ w.admits op = true

instance (w : World) (op : Op) : Decidable (Allowed w op) :=
  inferInstanceAs (Decidable (_ ∧ _))

def Step (w : World) (op : Op) (w' : World) : Prop :=
  Allowed w op ∧ exec op w = .ok w'

inductive Place where
  | running
  | ready
  | waiters (o : Sync)
  | halted
  deriving DecidableEq, Repr

def World.waiting (w : World) : Sync → List Handle
  | .event e => (w.events e).waiters.map (·.thread)
  | .auto a => (w.autos a).waiters.map (·.thread)
  | .sem i => (w.sems i).waiters.map (·.header.thread)

def World.slots (w : World) : Place → List Handle
  | .running => w.sched.current.toList
  | .ready => w.sched.readyQueue
  | .waiters o => w.waiting o
  | .halted => w.halted

end OsCourse.UThread
