import OsCourse.Lists.Model
import OsCourse.UThread.World

/-! The user thread library on its memory: the ready queue and the lists of waiters are rings of
list entries, which stand in the descriptors of the threads and in the wait blocks of the calls
that are suspended. The static variables and the values of the synchronizers are as before. -/
namespace OsCourse.Intrusive
open Function Linked OsCourse.Lists Transition
open UThread (Config Fault Handle Op Semaphore SemaphoreWaitblock Sync Thread)

/-- Where a `list_entry_t` can be. -/
inductive Addr where
  | readyQueue
  /-- the field of a synchronizer -/
  | waiters (o : Sync)
  /-- the field of a descriptor -/
  | entry (h : Handle)
  /-- the field of a wait block, a local of the call that waits -/
  | block (b : Nat)
  deriving DecidableEq

/-- `container_of(e, uthread_t, entry)`: none where there is no descriptor around `e`. -/
def containerThread : Addr → Option Thread
  | .entry h => some (.user h)
  | _ => none

/-- `container_of(e, waitblock_t, entry)`. -/
def containerBlock : Addr → Option Nat
  | .block b => some b
  | _ => none

/-- Of a wait block that is none of a semaphore only the header is used. -/
structure Mem where
  links : Heap Addr
  blocks : Nat → SemaphoreWaitblock
  numberOfThreads : Nat
  runningThread : Option Thread
  mainThread : Option Thread
  live : Finset Handle
  signaled : Sync → Bool
  units : Nat → Int32
  limit : Nat → Int32

/-- The heads are linked by `ut_init` and by the functions that initialise the synchronizers;
the other entries of the memory `h` are as they happen to be. -/
def initLinks (h : Heap Addr) : Heap Addr := fun a =>
  match a with
  | .readyQueue | .waiters _ => initListHead h a a
  | .entry _ | .block _ => h a

def Mem.init (c : Config) (h : Heap Addr) (blocks : Nat → SemaphoreWaitblock) : Mem :=
  { links := initLinks h
    blocks := blocks
    numberOfThreads := 0
    runningThread := none
    mainThread := none
    live := ∅
    signaled := fun o => match o with
      | .auto a => c.autoState a
      | _ => false
    units := c.semUnits
    limit := c.semLimit }

section Scheduler

def utActivate (thread : Handle) (m : Mem) : Mem :=
  { m with links := insertListLast m.links .readyQueue (.entry thread) }

def extractNextThread (m : Mem) : Option Thread × Mem :=
  if isListEmpty m.links .readyQueue then (m.mainThread, m)
  else
    let r := removeListFirst m.links .readyQueue
    (containerThread r.2, { m with links := r.1 })

def contextSwitch (curr next : Option Thread) (m : Mem) : Except Fault Mem :=
  match curr, next with
  | some _, some t => .ok { m with runningThread := some t }
  | _, _ => .error .badThread

def schedule (m : Mem) : Except Fault Mem :=
  contextSwitch m.runningThread (extractNextThread m).1 (extractNextThread m).2

def utRun (m : Mem) : Except Fault Mem :=
  if m.runningThread ≠ none then .error .stillRunning
  else if isListEmpty m.links .readyQueue then .ok m
  else schedule { m with mainThread := some .main, runningThread := some .main }

def utRunEnd (m : Mem) : Except Fault Mem :=
  if ¬ isListEmpty m.links .readyQueue then .error .readyLeft
  else if m.numberOfThreads ≠ 0 then .error .threadsLeft
  else .ok { m with runningThread := none, mainThread := none }

def internalCleanup (thread : Handle) (m : Mem) : Mem := { m with live := m.live.erase thread }

def internalExit (curr next : Option Thread) (m : Mem) : Except Fault Mem :=
  match curr, next with
  | some (.user h), some t => .ok (internalCleanup h { m with runningThread := some t })
  | _, _ => .error .badThread

def utExit (m : Mem) : Except Fault Mem :=
  let m := { m with numberOfThreads := m.numberOfThreads - 1 }
  internalExit m.runningThread (extractNextThread m).1 (extractNextThread m).2

def utYield (m : Mem) : Except Fault Mem :=
  if isListEmpty m.links .readyQueue then .ok m
  else match m.runningThread with
    | some (.user t) =>
      schedule { m with links := insertListLast m.links .readyQueue (.entry t) }
    | _ => .error .badThread

def utDeactivate (m : Mem) : Except Fault Mem := schedule m

def utCreate (thread : Handle) (m : Mem) : Mem :=
  utActivate thread
    { m with
      live := insert thread m.live
      numberOfThreads := m.numberOfThreads + 1 }

end Scheduler

section Synchronizers

def initWaitblock (b : Nat) (m : Mem) : Except Fault Mem :=
  match m.runningThread with
  | some (.user t) =>
    .ok { m with blocks := update m.blocks b { m.blocks b with header := ⟨t⟩ } }
  | _ => .error .badThread

/-- The rest of a call that waits, when its wait block is filled in. -/
def enqueue (o : Sync) (b : Nat) (m : Mem) : Except Fault Mem :=
  utDeactivate { m with links := insertListLast m.links (.waiters o) (.block b) }

def eventWait (e b : Nat) (m : Mem) : Except Fault Mem :=
  if m.signaled (.event e) = false then do
    let m ← initWaitblock b m
    enqueue (.event e) b m
  else return m

/-- The loop of `event_set`: none when it is not over after `n` rounds, or when it comes upon an
entry that is in no wait block. -/
def eventSetLoop (o : Sync) : Nat → Mem → Option Mem
  | 0, _ => none
  | n + 1, m =>
    if isListEmpty m.links (.waiters o) then some m
    else
      let r := removeListFirst m.links (.waiters o)
      match containerBlock r.2 with
      | some pwblock =>
        eventSetLoop o n (utActivate (m.blocks pwblock).header.thread { m with links := r.1 })
      | none => none

def eventSet (n e : Nat) (m : Mem) : Option Mem :=
  eventSetLoop (.event e) n { m with signaled := update m.signaled (.event e) true }

def autoEventWait (a b : Nat) (m : Mem) : Except Fault Mem :=
  if m.signaled (.auto a) = true then
    return { m with signaled := update m.signaled (.auto a) false }
  else do
    let m ← initWaitblock b m
    enqueue (.auto a) b m

def autoEventSet (a : Nat) (m : Mem) : Option Mem :=
  if isListEmpty m.links (.waiters (.auto a)) then
    some { m with signaled := update m.signaled (.auto a) true }
  else
    let r := removeListFirst m.links (.waiters (.auto a))
    match containerBlock r.2 with
    | some wb => some (utActivate (m.blocks wb).header.thread { m with links := r.1 })
    | none => none

def initSemWaitblock (b : Nat) (units : Int32) (m : Mem) : Except Fault Mem := do
  let m ← initWaitblock b m
  return { m with blocks := update m.blocks b { m.blocks b with units := units } }

def semWait (i b : Nat) (units : Int32) (m : Mem) : Except Fault Mem :=
  if isListEmpty m.links (.waiters (.sem i)) ∧ m.units i ≥ units then
    return { m with units := update m.units i (m.units i - units) }
  else do
    let m ← initSemWaitblock b units m
    enqueue (.sem i) b m

/-- The loop of `sem_post`, which looks at the first entry before it removes it. -/
def semPostLoop (i : Nat) : Nat → Mem → Option Mem
  | 0, _ => none
  | n + 1, m =>
    let entry := (m.links (.waiters (.sem i))).next
    if m.units i > 0 ∧ entry ≠ .waiters (.sem i) then
      match containerBlock entry with
      | some waitblock =>
        if m.units i < (m.blocks waitblock).units then some m
        else
          let m := { m with units := update m.units i (m.units i - (m.blocks waitblock).units) }
          let m := { m with links := (removeListFirst m.links (.waiters (.sem i))).1 }
          semPostLoop i n (utActivate (m.blocks waitblock).header.thread m)
      | none => none
    else some m

def semPost (n i : Nat) (units : Int32) (m : Mem) : Option Mem :=
  let sum := m.units i + units
  semPostLoop i n
    { m with units := update m.units i (if sum > m.limit i then m.limit i else sum) }

end Synchronizers

/-- A program on the memory. `frame` is the wait block of the call that a thread is suspended in;
`pending` and `halted` are as in a world. -/
structure HeapWorld where
  mem : Mem
  pending : Handle → Option Op
  frame : Handle → Option Nat
  halted : List Handle

def HeapWorld.init (c : Config) (h : Heap Addr) (blocks : Nat → SemaphoreWaitblock) : HeapWorld :=
  { mem := Mem.init c h blocks
    pending := fun _ => none
    frame := fun _ => none
    halted := [] }

section Programs

def Mem.current (m : Mem) : Option Handle :=
  match m.runningThread with
  | some (.user t) => some t
  | _ => none

/-- After call `op`, with its wait block `b` if it has one. -/
def HeapWorld.leave (c : HeapWorld) (op : Op) (b : Nat) (m : Mem) : HeapWorld :=
  match c.mem.current with
  | some t =>
    if m.current = some t then { c with mem := m }
    else { c with
      mem := m
      pending := update c.pending t (some op)
      frame := update c.frame t (op.waitsOn.map fun _ => b) }
  | none => { c with mem := m }

def HeapWorld.resume (c : HeapWorld) (t : Handle) : HeapWorld :=
  { c with pending := update c.pending t none, frame := update c.frame t none }

/-- Call `op`, with `b` for the wait block on its stack: none when a loop of it is not over after
`n` rounds. -/
def exec (n b : Nat) (op : Op) (c : HeapWorld) : Option (Except Fault HeapWorld) :=
  match op with
  | .utCreate h => some (.ok { c with
      mem := utCreate h c.mem
      pending := update c.pending h none
      frame := update c.frame h none })
  | .utYield => some (do return c.leave op b (← utYield c.mem))
  | .utExit => some (do return { c with mem := ← utExit c.mem })
  | .utDeactivate => some (do
      let m ← utDeactivate c.mem
      return { c.leave op b m with halted := c.halted ++ c.mem.current.toList })
  | .utActivate h => some (.ok { c with
      mem := utActivate h c.mem
      halted := c.halted.erase h })
  | .utRun => some (do return { c with mem := ← utRun c.mem })
  | .eventWait e => some (do return c.leave op b (← eventWait e b c.mem))
  | .eventSet e => (eventSet n e c.mem).map fun m => .ok { c with mem := m }
  | .autoEventWait a => some (do return c.leave op b (← autoEventWait a b c.mem))
  | .autoEventSet a => (autoEventSet a c.mem).map fun m => .ok { c with mem := m }
  | .semWait i units => some (do return c.leave op b (← semWait i b units c.mem))
  | .semPost i units => (semPost n i units c.mem).map fun m => .ok { c with mem := m }
  | .ret => some (match c.mem.runningThread with
    | some .main => do return { c with mem := ← utRunEnd c.mem }
    | some (.user t) => .ok (c.resume t)
    | none => .ok c)

def HeapWorld.midCall (c : HeapWorld) : Bool :=
  match c.mem.runningThread with
  | none => false
  | some .main => true
  | some (.user t) => (c.pending t).isSome

def HeapWorld.admits (c : HeapWorld) : Op → Bool
  | .utCreate h => h ∉ c.mem.live
  | .utActivate h => h ∈ c.halted
  | _ => true

/-- As in a world, and the wait block is none of a call that is suspended, which is on the stack
of another thread. -/
def Allowed (c : HeapWorld) (op : Op) (b : Nat) : Prop :=
  (c.midCall = true ↔ op = .ret) ∧ c.admits op = true ∧ ∀ t, c.frame t ≠ some b

def Step (c : HeapWorld) (l : Op × Nat) (c' : HeapWorld) : Prop :=
  Allowed c l.1 l.2 ∧ ∃ n, exec n l.2 l.1 c = some (.ok c')

end Programs

end OsCourse.Intrusive
