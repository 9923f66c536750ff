import OsCourse.CtxSwitch.Code
import OsCourse.Lib.Transition

/-! The threads of uthread.c on the machine: what the running thread may do between two
switches, and the calls that switch. -/
namespace OsCourse.CtxSwitch
open Function Machine

/-- `out m`: switched out, where `m` is the machine that was about to execute
`call context_switch`. -/
inductive Status where
  | running
  | fresh (function argument : Nat)
  | out (m : State Reg)

/-- `created` is false for the thread that called `ut_run`. -/
structure Thread where
  stack : Area
  created : Bool
  status : Status

/-- The threads stand at the addresses of their descriptors. Outside `ut_run` no thread
is running. -/
structure Sys where
  machine : State Reg
  threads : Nat → Option Thread
  running : Option Nat

inductive Part where
  | runningThread
  | descriptor (t : Nat)
  | stack (t : Nat)
  deriving DecidableEq

def descriptorArea (t : Nat) : Area := ⟨t, t + sizeofUthread⟩

def blockOfStack (b : Nat) : Area := ⟨b, b + stackSize⟩

def Sys.area (L : Layout) (S : Sys) : Part → Option Area
  | .runningThread => some ⟨L.runningThread, L.runningThread + 8⟩
  | .descriptor t => (S.threads t).map fun _ => descriptorArea t
  | .stack t => (S.threads t).map Thread.stack

def Sys.Free (L : Layout) (S : Sys) (B : Area) : Prop := ∀ p A, S.area L p = some A → A.Apart B

/-- The fields that only `ut_create` and `context_switch` write. -/
def fields : List Nat := [contextField, functionField, argumentField, stackField]

structure Sys.Keeps (L : Layout) (S : Sys) (mem : Nat → Nat) : Prop where
  suspended : ∀ t T, S.threads t = some T → S.running ≠ some t →
    ∀ a, T.stack.Has a → mem a = S.machine.mem a
  descriptors : ∀ t T, S.threads t = some T → ∀ f ∈ fields, mem (t + f) = S.machine.mem (t + f)
  runningThread : mem L.runningThread = S.machine.mem L.runningThread

/-- The running thread `c` is about to call `context_switch(running_thread, next)` or
`internal_exit(running_thread, next)`, with room on its stack. -/
structure Sys.Calls (L : Layout) (S : Sys) (c next : Nat) (T N : Thread) : Prop where
  running : S.running = some c
  current : S.threads c = some T
  target : S.threads next = some N
  saved : N.status ≠ .running
  rdi : S.machine.reg .rdi = S.machine.mem L.runningThread
  rsi : S.machine.reg .rsi = next
  low : T.stack.lo + 64 ≤ S.machine.reg .rsp
  high : S.machine.reg .rsp ≤ T.stack.hi

/-- The blocks that `internal_cleanup` frees, from its entry. -/
def internalCleanup (m : State Reg) : List Area :=
  [blockOfStack (m.mem (m.reg .rdi + stackField)), descriptorArea (m.reg .rdi)]

/-- `internal_cleanup` ran from `m` and returned to `m'`: it keeps the calling
convention, and `free` leaves the blocks in use alone. -/
structure Sys.Cleaned (L : Layout) (S : Sys) (c next : Nat) (m m' : State Reg) : Prop where
  rip : m'.rip = m.mem (m.reg .rsp)
  rsp : m'.reg .rsp = m.reg .rsp + 8
  suspended : ∀ t T, S.threads t = some T → t ≠ c → t ≠ next →
    ∀ a, T.stack.Has a → m'.mem a = m.mem a
  frames : ∀ N, S.threads next = some N → ∀ a, N.stack.Has a → m.reg .rsp + 8 ≤ a →
    m'.mem a = m.mem a
  descriptors : ∀ t T, S.threads t = some T → t ≠ c →
    ∀ f ∈ fields, m'.mem (t + f) = m.mem (t + f)
  runningThread : m'.mem L.runningThread = m.mem L.runningThread

inductive Op where
  | compute
  | utCreate (thread stack function argument : Nat)
  | utRun (thread : Nat) (stack : Area)
  | utRunReturn
  | contextSwitch (next : Nat)
  | internalExit (next : Nat)
  deriving DecidableEq

def Op.Dispatches (t : Nat) : Op → Prop
  | .contextSwitch next | .internalExit next => next = t
  | _ => False

def Sys.switchTo (S : Sys) (c next : Nat) (T : Option Thread) (N : Thread) (m : State Reg) : Sys :=
  { machine := m
    threads := update (update S.threads c T) next (some { N with status := .running })
    running := some next }

inductive Step (L : Layout) : Sys → Op → Sys → Prop
  | compute {S : Sys} {m : State Reg} (hm : S.Keeps L m.mem) :
      Step L S .compute { S with machine := m }
  | utCreate {S : Sys} {d b function argument : Nat} (hd : S.Free L (descriptorArea d))
      (hb : S.Free L (blockOfStack b)) (hap : (descriptorArea d).Apart (blockOfStack b)) :
      Step L S (.utCreate d b function argument)
        { machine := { S.machine with mem := utCreate L d b function argument S.machine.mem }
          threads := update S.threads d
            (some { stack := blockOfStack b, created := true, status := .fresh function argument })
          running := S.running }
  | utRun {S : Sys} {d : Nat} {A : Area} (hr : S.running = none)
      (hd : S.Free L (descriptorArea d)) (hA : S.Free L A) (hap : (descriptorArea d).Apart A) :
      Step L S (.utRun d A)
        { machine := { S.machine with mem := update S.machine.mem L.runningThread d }
          threads := update S.threads d
            (some { stack := A, created := false, status := .running })
          running := some d }
  | utRunReturn {S : Sys} {d : Nat} {T : Thread} (hr : S.running = some d)
      (hT : S.threads d = some T) (hmain : T.created = false) :
      Step L S .utRunReturn
        { machine := { S.machine with mem := update S.machine.mem L.runningThread 0 }
          threads := update S.threads d none
          running := none }
  | contextSwitch {S : Sys} {c next : Nat} {T N : Thread} {m : State Reg}
      (hc : S.Calls L c next T N)
      (hm : run .rsp L.code 16 (step .rsp (.call L.contextSwitch) S.machine) = some m) :
      Step L S (.contextSwitch next)
        (S.switchTo c next (some { T with status := .out S.machine }) N m)
  | internalExit {S : Sys} {c next : Nat} {T N : Thread} {m m' m'' : State Reg}
      (hc : S.Calls L c next T N) (hT : T.created = true)
      (hm : run .rsp L.code 3 (step .rsp (.call L.internalExit) S.machine) = some m)
      (hm' : S.Cleaned L c next m m') (hm'' : run .rsp L.code 7 m' = some m'') :
      Step L S (.internalExit next) (S.switchTo c next none N m'')

structure Sys.Start (L : Layout) (S : Sys) : Prop where
  threads : ∀ t, S.threads t = none
  running : S.running = none
  runningThread : S.machine.mem L.runningThread = 0

end OsCourse.CtxSwitch
