import OsCourse.Lib.Wakeup

/-! The cyclic barrier (barrier.c). What a thread does under the mutex, up to its wait or
its unlock, is one step. -/
namespace OsCourse.Barriers
open Function Transition Wakeup

/-- The fields of `barrier_t` that the mutex protects. -/
structure Barrier where
  parties : Int32
  arrived : Int32
  round : Int32
  deriving DecidableEq

def barrierInit (parties : Int32) : Barrier := ⟨parties, 0, 0⟩

def serialThread : Int32 := -1

/-- The locals `index` and `r` of a call; `number` is history, its place in the order of
the increments of `arrived`. -/
structure Call where
  number : Nat
  index : Int32
  r : Int32
  deriving DecidableEq

/-- `barrier_await` from its lock to its wait or its unlock. -/
def arrive (b : Barrier) (number : Nat) : Call × Barrier :=
  let index := b.arrived + 1
  let call := ⟨number, index, b.round⟩
  if index = b.parties then (call, { b with arrived := 0, round := b.round + 1 })
  else (call, { b with arrived := index })

def Call.result (c : Call) (b : Barrier) : Int32 := if c.index = b.parties then serialThread else 0

inductive Pc where
  | idle
  /-- before the lock -/
  | calling
  /-- in `pthread_cond_wait` -/
  | blocked (c : Call)
  /-- released there, and not yet holding the mutex again -/
  | woken (c : Call)
  /-- after the unlock -/
  | exiting (c : Call)
  deriving DecidableEq

def Pc.wake : Pc → Option Pc
  | .blocked c => some (.woken c)
  | _ => none

/-- `arrivals` and `returns` are history: how many calls have incremented `arrived`, and the
calls that have returned with what they returned. -/
structure State (T : Type*) where
  barrier : Barrier
  pc : T → Pc
  arrivals : Nat
  returns : List (Nat × Int32)

inductive Label (T : Type*) where
  | call (t : T)
  | lock (t : T)
  | recheck (t : T)
  | spurious (t : T)
  | finish (t : T)

variable {T : Type*} [DecidableEq T]

def init (parties : Int32) : State T :=
  { barrier := barrierInit parties
    pc := fun _ => .idle
    arrivals := 0
    returns := [] }

inductive Step : State T → Label T → State T → Prop
  | call {s : State T} {t : T} : s.pc t = .idle →
      Step s (.call t) { s with pc := update s.pc t .calling }
  /-- the last to arrive: `pthread_cond_broadcast` -/
  | last {s : State T} {t : T} {c : Call} {b : Barrier} : s.pc t = .calling →
      arrive s.barrier s.arrivals = (c, b) → c.index = s.barrier.parties →
      Step s (.lock t) { s with
        barrier := b
        pc := update (broadcast Pc.wake s.pc) t (.exiting c)
        arrivals := s.arrivals + 1 }
  | wait {s : State T} {t : T} {c : Call} {b : Barrier} : s.pc t = .calling →
      arrive s.barrier s.arrivals = (c, b) → c.index ≠ s.barrier.parties →
      Step s (.lock t) { s with
        barrier := b
        pc := update s.pc t (.blocked c)
        arrivals := s.arrivals + 1 }
  | waitAgain {s : State T} {t : T} {c : Call} : s.pc t = .woken c → s.barrier.round = c.r →
      Step s (.recheck t) { s with pc := update s.pc t (.blocked c) }
  | leave {s : State T} {t : T} {c : Call} : s.pc t = .woken c → s.barrier.round ≠ c.r →
      Step s (.recheck t) { s with pc := update s.pc t (.exiting c) }
  | spurious {s : State T} {t : T} {c : Call} : s.pc t = .blocked c →
      Step s (.spurious t) { s with pc := update s.pc t (.woken c) }
  | finish {s : State T} {t : T} {c : Call} : s.pc t = .exiting c →
      Step s (.finish t) { s with
        pc := update s.pc t .idle
        returns := s.returns ++ [(c.number, c.result s.barrier)] }

end OsCourse.Barriers
