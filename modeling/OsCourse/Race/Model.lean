import OsCourse.Lib.Sections

/-! The threads of race.c: each adds one to `result` a number of times, in three statements under
the mutex, while `main` creates them all and then waits for all. -/
namespace OsCourse.Race
open Sections

inductive Status where
  | unborn
  | running
  | ended
  deriving DecidableEq

inductive Pc where
  /-- before `pthread_create` of thread `i` -/
  | creating (i : Nat)
  | joining (i : Nat)
  | printing
  | start
  /-- at the head of the loop -/
  | head (i : Nat)
  | locked (i : Nat)
  | read (i : Nat) (temp : Int32)
  | added (i : Nat) (temp : Int32)
  /-- before the unlock -/
  | stored (i : Nat)
  | returned
  deriving DecidableEq

section Code
variable {maxThreads niterations : Nat}

/-- `main`, which is the thread `none`, and what `pthread_func` does outside of the mutex. -/
inductive Outside (maxThreads niterations : Nat) :
    Option (Fin maxThreads) → Pc → (Fin maxThreads → Status) → Pc →
      (Fin maxThreads → Status) → Prop
  | create {i : Nat} {e : Fin maxThreads → Status} (h : i < maxThreads) :
      Outside maxThreads niterations none (.creating i) e (.creating (i + 1))
        (Function.update e ⟨i, h⟩ .running)
  | created {e : Fin maxThreads → Status} :
      Outside maxThreads niterations none (.creating maxThreads) e (.joining 0) e
  | join {i : Nat} {e : Fin maxThreads → Status} (h : i < maxThreads) : e ⟨i, h⟩ = .ended →
      Outside maxThreads niterations none (.joining i) e (.joining (i + 1)) e
  | joined {e : Fin maxThreads → Status} :
      Outside maxThreads niterations none (.joining maxThreads) e .printing e
  | begin {w : Fin maxThreads} {e : Fin maxThreads → Status} : e w = .running →
      Outside maxThreads niterations (some w) .start e (.head 0) e
  | finish {w : Fin maxThreads} {i : Nat} {e : Fin maxThreads → Status} : ¬ i < niterations →
      Outside maxThreads niterations (some w) (.head i) e .returned (Function.update e w .ended)

inductive Lock (niterations : Nat) : Pc → Pc → Prop
  | lock {i : Nat} : i < niterations → Lock niterations (.head i) (.locked i)

/-- `temp` is an `int`, and `result` a `long`. -/
inductive Inside : Pc × Int64 → Pc × Int64 → Prop
  | read {i : Nat} {result : Int64} :
      Inside (.locked i, result) (.read i result.toInt32, result)
  | add {i : Nat} {temp : Int32} {result : Int64} :
      Inside (.read i temp, result) (.added i (temp + 1), result)
  | store {i : Nat} {temp : Int32} {result : Int64} :
      Inside (.added i temp, result) (.stored i, temp.toInt64)

inductive Unlock : Pc → Pc → Prop
  | unlock {i : Nat} : Unlock (.stored i) (.head (i + 1))

def pthreadFunc (maxThreads niterations : Nat) :
    Code (Option (Fin maxThreads)) Pc (Fin maxThreads → Status) Int64 where
  outside := Outside maxThreads niterations
  lock := Lock niterations
  inside := Inside
  unlock := Unlock

end Code

abbrev World (maxThreads : Nat) :=
  Sections.State (Option (Fin maxThreads)) Pc (Fin maxThreads → Status) Int64

def init (maxThreads : Nat) : World maxThreads where
  shared := 0
  holder := none
  env := fun _ => .unborn
  pc := fun t => if t = none then .creating 0 else .start

/-- What `main` prints. -/
def printed {maxThreads : Nat} (s : World maxThreads) : Option Int :=
  if s.pc none = .printing then some s.shared.toInt else none

end OsCourse.Race
