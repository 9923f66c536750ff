import OsCourse.Lib.Wakeup

/-! The countdown latch (cdl.c). A locked section is one step, and the broadcast after it
another. -/
namespace OsCourse.Latch
open Function Transition Wakeup

/-- The field of `cdl_t` that the mutex protects. -/
structure Cdl where
  counter : Int32
  deriving DecidableEq

def cdlInit (initial : Int32) : Cdl := ⟨initial⟩

/-- The section of `cdl_signal`, with its `to_complete`. -/
def cdlSignal (c : Cdl) : Bool × Cdl :=
  let counter := c.counter - 1
  (counter = 0, ⟨counter⟩)

/-- The test of the loop of `cdl_wait`. -/
def cdlMustWait (c : Cdl) : Bool := 0 < c.counter

inductive Pc where
  | idle
  /-- before the lock of `cdl_signal` -/
  | signalling
  /-- after the unlock, with `to_complete` -/
  | broadcasting
  /-- before the lock of `cdl_wait` -/
  | waiting
  | blocked
  | woken
  /-- after the unlock of `cdl_wait` -/
  | leaving
  deriving DecidableEq

def Pc.wake : Pc → Option Pc
  | .blocked => some .woken
  | _ => none

/-- At a lock that leads to the test of `cdl_wait`. -/
def Pc.tests : Pc → Bool
  | .waiting | .woken => true
  | _ => false

/-- `decrements` is history: how many sections of `cdl_signal` have run. -/
structure State (T : Type*) where
  cdl : Cdl
  pc : T → Pc
  decrements : Nat

inductive Label (T : Type*) where
  | callSignal (t : T)
  | signal (t : T)
  | broadcast (t : T)
  | callWait (t : T)
  | test (t : T)
  | spurious (t : T)
  | leave (t : T)

variable {T : Type*} [DecidableEq T]

def init (initial : Int32) : State T := ⟨cdlInit initial, fun _ => .idle, 0⟩

inductive Step : State T → Label T → State T → Prop
  | callSignal {s : State T} {t : T} : s.pc t = .idle →
      Step s (.callSignal t) { s with pc := update s.pc t .signalling }
  | signalLast {s : State T} {t : T} : s.pc t = .signalling → (cdlSignal s.cdl).1 = true →
      Step s (.signal t) { s with
        cdl := (cdlSignal s.cdl).2
        pc := update s.pc t .broadcasting
        decrements := s.decrements + 1 }
  | signal {s : State T} {t : T} : s.pc t = .signalling → (cdlSignal s.cdl).1 = false →
      Step s (.signal t) { s with
        cdl := (cdlSignal s.cdl).2
        pc := update s.pc t .idle
        decrements := s.decrements + 1 }
  | broadcast {s : State T} {t : T} : s.pc t = .broadcasting →
      Step s (.broadcast t) { s with pc := update (Wakeup.broadcast Pc.wake s.pc) t .idle }
  | callWait {s : State T} {t : T} : s.pc t = .idle →
      Step s (.callWait t) { s with pc := update s.pc t .waiting }
  | wait {s : State T} {t : T} : (s.pc t).tests = true → cdlMustWait s.cdl = true →
      Step s (.test t) { s with pc := update s.pc t .blocked }
  | pass {s : State T} {t : T} : (s.pc t).tests = true → cdlMustWait s.cdl = false →
      Step s (.test t) { s with pc := update s.pc t .leaving }
  | spurious {s : State T} {t : T} : s.pc t = .blocked →
      Step s (.spurious t) { s with pc := update s.pc t .woken }
  | leave {s : State T} {t : T} : s.pc t = .leaving →
      Step s (.leave t) { s with pc := update s.pc t .idle }

end OsCourse.Latch
