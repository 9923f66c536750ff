import Mathlib.Logic.Function.Basic
import OsCourse.Lib.Transition

/-! The bounded message queue over the POSIX semaphores (queues/queue.c), used by any
threads. A semaphore call is one step, and a section under the mutex another. -/
namespace OsCourse.SemQueue
open Function

structure Node where
  msgSize : Int32
  msg : List UInt8
  deriving DecidableEq

/-- `node_create`, of the bytes from `msg` on. -/
def nodeCreate (msg : Nat → UInt8) (size : Int32) : Node :=
  { msgSize := size
    msg := (List.range size.toInt.toNat).map msg }

/-- POSIX `sem_init`: the units of the semaphore are its third argument. -/
def semInit (_pshared value : Nat) : Nat := value

/-- An empty list gives its own head, which is no node. -/
def removeListFirst (head : List Node) : Option Node × List Node :=
  match head with
  | [] => (none, [])
  | node :: rest => (some node, rest)

inductive Pc where
  | idle
  /-- before `sem_wait` of `space_avaiable` -/
  | putCalled (msg : Nat → UInt8) (size : Int32)
  | putting (msg : Nat → UInt8) (size : Int32)
  /-- before `sem_post` of `elem_avaiable` -/
  | put
  /-- before `sem_wait` of `elem_avaiable` -/
  | getCalled (capacity : Int32)
  | getting (capacity : Int32)
  /-- before `sem_post` of `space_avaiable` -/
  | got (capacity : Int32) (node : Option Node)
  | copying (capacity : Int32) (node : Option Node)

/-- `inserted`, `removed` and `returned` are history: the nodes inserted, those that each
thread removed, and the size and bytes that `queue_get` returned to it. -/
structure State (T : Type*) where
  head : List Node
  elemAvaiable : Nat
  spaceAvaiable : Nat
  pc : T → Pc
  inserted : List Node
  removed : List (T × Node)
  returned : List (T × Node)

variable {T : Type*}

def State.fresh (elem space : Nat) : State T := ⟨[], elem, space, fun _ => .idle, [], [], []⟩

def queueInit (maxSize : Nat) : State T :=
  State.fresh (semInit 0 maxSize) (semInit maxSize maxSize)

inductive Label (T : Type*) where
  | callPut (t : T) (msg : Nat → UInt8) (size : Int32)
  | waitSpace (t : T)
  | lockPut (t : T)
  | postElem (t : T)
  | callGet (t : T) (capacity : Int32)
  | waitElem (t : T)
  | lockGet (t : T)
  | postSpace (t : T)
  | ret (t : T)

variable [DecidableEq T]

inductive Step : State T → Label T → State T → Prop
  | callPut {s : State T} {t : T} {msg : Nat → UInt8} {size : Int32} : s.pc t = .idle →
      Step s (.callPut t msg size) { s with pc := update s.pc t (.putCalled msg size) }
  | waitSpace {s : State T} {t : T} {msg : Nat → UInt8} {size : Int32} {units : Nat} :
      s.pc t = .putCalled msg size → s.spaceAvaiable = units + 1 →
      Step s (.waitSpace t)
        { s with spaceAvaiable := units, pc := update s.pc t (.putting msg size) }
  | lockPut {s : State T} {t : T} {msg : Nat → UInt8} {size : Int32} :
      s.pc t = .putting msg size →
      Step s (.lockPut t)
        { s with
          head := s.head ++ [nodeCreate msg size]
          pc := update s.pc t .put
          inserted := s.inserted ++ [nodeCreate msg size] }
  | postElem {s : State T} {t : T} : s.pc t = .put →
      Step s (.postElem t)
        { s with elemAvaiable := s.elemAvaiable + 1, pc := update s.pc t .idle }
  | callGet {s : State T} {t : T} {capacity : Int32} : s.pc t = .idle →
      Step s (.callGet t capacity) { s with pc := update s.pc t (.getCalled capacity) }
  | waitElem {s : State T} {t : T} {capacity : Int32} {units : Nat} :
      s.pc t = .getCalled capacity → s.elemAvaiable = units + 1 →
      Step s (.waitElem t)
        { s with elemAvaiable := units, pc := update s.pc t (.getting capacity) }
  | lockGet {s : State T} {t : T} {capacity : Int32} {node : Option Node} {rest : List Node} :
      s.pc t = .getting capacity → removeListFirst s.head = (node, rest) →
      Step s (.lockGet t)
        { s with
          head := rest
          pc := update s.pc t (.got capacity node)
          removed := s.removed ++ node.toList.map fun n => (t, n) }
  | postSpace {s : State T} {t : T} {capacity : Int32} {node : Option Node} :
      s.pc t = .got capacity node →
      Step s (.postSpace t)
        { s with
          spaceAvaiable := s.spaceAvaiable + 1
          pc := update s.pc t (.copying capacity node) }
  -- without a node, what follows is undefined
  | ret {s : State T} {t : T} {capacity : Int32} {node : Node} :
      s.pc t = .copying capacity (some node) →
      Step s (.ret t)
        { s with pc := update s.pc t .idle, returned := s.returned ++ [(t, node)] }

end OsCourse.SemQueue
