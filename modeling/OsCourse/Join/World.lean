import OsCourse.Join.Library
import OsCourse.Lib.Placement

/-! Programs over the library with joins: which call the running thread makes next
is free, and a thread that is switched out is suspended in its call. -/
namespace OsCourse.Join
open Function Placement Transition UThread

/-- The calls of a program. `ret` is the end of a call during which the thread was
switched out; for the main thread it is the rest of `ut_run`. -/
inductive Op where
  | utCreate (h : Handle)
  | utYield
  | utJoin (h : Handle)
  | utExit
  | utRun
  | ret
  deriving DecidableEq, Repr

/-- History of the joins: `joined t h` is a call of `ut_join(h)` by `t` that found
`h` alive, `returned t h` its end. -/
inductive JoinStep where
  | created (h : Handle)
  | joined (t h : Handle)
  | returned (t h : Handle)
  | exited (h : Handle)
  deriving DecidableEq, Repr

structure World (b : Build) where
  lib : Lib b
  pending : Handle → Option Op
  log : List JoinStep

variable {b : Build}

def World.init (b : Build) : World b := ⟨utInit b, fun _ => none, []⟩

/-- The caller is suspended in `op` when another thread runs after the call. -/
def World.leave (w : World b) (op : Op) (l : Lib b) : World b :=
  { w with
    lib := l
    pending := match w.lib.sched.current with
      | some t => if l.sched.current = some t then w.pending else update w.pending t (some op)
      | none => w.pending }

/-- What a call of `ut_join(h)` that led to `l` adds to the history. -/
def World.joinSteps (w : World b) (h : Handle) (l : Lib b) : List JoinStep :=
  match w.lib.sched.current with
  | some t =>
    if utAlive h w.lib then
      if l.sched.current = some t then [.joined t h, .returned t h] else [.joined t h]
    else []
  | none => []

def World.resume (w : World b) (t : Handle) : World b :=
  { w with
    pending := update w.pending t none
    log := w.log ++ (match w.pending t with | some (.utJoin h) => [.returned t h] | _ => []) }

def exec (op : Op) (w : World b) : Except Fault (World b) :=
  match op with
  | .utCreate h =>
    return { lib := utCreate h w.lib
             pending := update w.pending h none
             log := w.log ++ [.created h] }
  | .utYield => do return w.leave op { w.lib with sched := ← utYield w.lib.sched }
  | .utJoin h => do
    let l ← utJoin h w.lib
    return { w.leave op l with log := w.log ++ w.joinSteps h l }
  | .utExit => do
    let l ← utExit w.lib
    return { w with lib := l, log := w.log ++ w.lib.sched.current.toList.map .exited }
  | .utRun => do return { w with lib := { w.lib with sched := ← utRun w.lib.sched } }
  | .ret =>
    match w.lib.sched.runningThread with
    | some .main => do return { w with lib := { w.lib with sched := ← utRunEnd w.lib.sched } }
    | some (.user t) => return w.resume t
    | none => return w

/-- Control is inside a call that was suspended: only its end can come next. -/
def World.midCall (w : World b) : Bool :=
  match w.lib.sched.runningThread with
  | none => false
  | some .main => true
  | some (.user t) => (w.pending t).isSome

def World.admits (w : World b) : Op → Bool
  | .utCreate h => h ∉ w.lib.sched.live
  | _ => true

def Allowed (w : World b) (op : Op) : Prop :=
  (w.midCall = true ↔ op = .ret) ∧ w.admits op = true

instance (w : World b) (op : Op) : Decidable (Allowed w op) :=
  inferInstanceAs (Decidable (_ ∧ _))

def Step (w : World b) (op : Op) (w' : World b) : Prop :=
  Allowed w op ∧ exec op w = .ok w'

/-- The places of a thread; `joining h` is the list of the joiners of `h`. -/
inductive Place where
  | running
  | ready
  | joining (h : Handle)
  deriving DecidableEq, Repr

def World.joiners (w : World b) (h : Handle) : List Handle := b.joiners (w.lib.field h)

def World.slots (w : World b) : Place → List Handle
  | .running => w.lib.sched.current.toList
  | .ready => w.lib.sched.readyQueue
  | .joining h => w.joiners h

/-- Thread `t` is inside `ut_join(s)`, and neither runs nor is ready to. -/
def World.BlockedOn (w : World b) (t s : Handle) : Prop :=
  t ∈ w.lib.sched.live ∧ w.pending t = some (.utJoin s) ∧
    t ∉ w.lib.sched.readyQueue ∧ w.lib.sched.current ≠ some t

end OsCourse.Join
