import OsCourse.Lib.BoundedFifo
import OsCourse.Lib.Wakeup

/-! The memory channel (memchan.c) and the processes that put and get. A locked section, up
to its wait or its unlock, is one step, and the signal after it another. -/
namespace OsCourse.MemChan
open Function Transition Wakeup

/-- `mem_channel_t`; `buf` is the memory mapped from its last field on. -/
structure MemChannel where
  iput : Int32
  iget : Int32
  capacity : Int32
  elemSize : Int32
  size : Int32
  owner : Int32
  buf : Int → UInt8

def sizeofMemChannel : UInt64 := 168

/-- `mc_create`, where `shmemCreate` maps a shared memory of the given name and size. -/
def mcCreate (shmemCreate : String → UInt64 → Option (Int → UInt8)) (pid : Int32)
    (elemSize capacity : Int32) (name : String) : Option MemChannel :=
  let capacityInBytes := elemSize * capacity
  let totalSizeInBytes := (capacityInBytes.toInt64.toUInt64 + sizeofMemChannel).toUInt32.toInt32
  (shmemCreate name totalSizeInBytes.toInt64.toUInt64).map fun buf =>
    { iput := 0
      iget := 0
      capacity := capacity
      elemSize := elemSize
      size := 0
      owner := pid
      buf := buf }

/-- `memcpy` of `n` bytes into the memory. -/
def copyIn (mem : Int → UInt8) (dst : Int) (item : Nat → UInt8) (n : Nat) : Int → UInt8 :=
  fun a => if dst ≤ a ∧ a < dst + n then item (a - dst).toNat else mem a

/-- `memcpy` of `n` bytes out of the memory. -/
def copyOut (mem : Int → UInt8) (src : Int) (n : Nat) : List UInt8 :=
  (List.range n).map fun k : Nat => mem (src + k)

def itemBytes (item : Nat → UInt8) (n : Nat) : List UInt8 := (List.range n).map item

/-- `mc_put` under the lock: none when it has to wait. -/
def mcPut (rb : MemChannel) (item : Nat → UInt8) : Option MemChannel :=
  if rb.size = rb.capacity then none
  else
    let buf := copyIn rb.buf (rb.iput * rb.elemSize).toInt item rb.elemSize.toInt.toNat
    let iput := rb.iput + 1
    some { rb with
      buf := buf
      iput := if iput = rb.capacity then 0 else iput
      size := rb.size + 1 }

/-- `mc_get` under the lock: none when it has to wait. -/
def mcGet (rb : MemChannel) : Option (List UInt8 × MemChannel) :=
  if rb.size = 0 then none
  else
    let item := copyOut rb.buf (rb.iget * rb.elemSize).toInt rb.elemSize.toInt.toNat
    let iget := rb.iget + 1
    some (item, { rb with
      iget := if iget = rb.capacity then 0 else iget
      size := rb.size - 1 })

inductive Pc where
  | idle
  /-- before the lock of `mc_put` -/
  | putting (item : Nat → UInt8)
  /-- in `pthread_cond_wait` on `hasSpace` -/
  | putBlocked (item : Nat → UInt8)
  | putWoken (item : Nat → UInt8)
  /-- before the signal of `hasItems` -/
  | putSignal
  /-- before the lock of `mc_get` -/
  | getting
  /-- in `pthread_cond_wait` on `hasItems` -/
  | getBlocked
  | getWoken
  /-- before the signal of `hasSpace` -/
  | getSignal

/-- What a process has to put, at a lock of `mc_put` that leads to the test. -/
def Pc.toPut : Pc → Option (Nat → UInt8)
  | .putting item | .putWoken item => some item
  | _ => none

/-- At a lock of `mc_get` that leads to the test. -/
def Pc.toGet : Pc → Bool
  | .getting | .getWoken => true
  | _ => false

def Pc.wakeHasItems : Pc → Option Pc
  | .getBlocked => some .getWoken
  | _ => none

def Pc.wakeHasSpace : Pc → Option Pc
  | .putBlocked item => some (.putWoken item)
  | _ => none

/-- `ops` is history: the byte strings put and delivered, in the order of the sections. -/
structure State (P : Type*) where
  chan : MemChannel
  pc : P → Pc
  ops : List (BoundedFifo.Op (List UInt8))

inductive Label (P : Type*) where
  | callPut (p : P) (item : Nat → UInt8)
  | lockPut (p : P)
  | spuriousPut (p : P)
  | signalItems (p : P) (woken : Option P)
  | callGet (p : P)
  | lockGet (p : P)
  | spuriousGet (p : P)
  | signalSpace (p : P) (woken : Option P)

variable {P : Type*} [DecidableEq P]

def init (rb : MemChannel) : State P := ⟨rb, fun _ => .idle, []⟩

inductive Step : State P → Label P → State P → Prop
  | callPut {s : State P} {p : P} {item : Nat → UInt8} : s.pc p = .idle →
      Step s (.callPut p item) { s with pc := update s.pc p (.putting item) }
  | waitSpace {s : State P} {p : P} {item : Nat → UInt8} : (s.pc p).toPut = some item →
      mcPut s.chan item = none →
      Step s (.lockPut p) { s with pc := update s.pc p (.putBlocked item) }
  | put {s : State P} {p : P} {item : Nat → UInt8} {rb : MemChannel} :
      (s.pc p).toPut = some item → mcPut s.chan item = some rb →
      Step s (.lockPut p)
        { chan := rb
          pc := update s.pc p .putSignal
          ops := s.ops ++ [.put (itemBytes item s.chan.elemSize.toInt.toNat)] }
  | spuriousPut {s : State P} {p : P} {item : Nat → UInt8} : s.pc p = .putBlocked item →
      Step s (.spuriousPut p) { s with pc := update s.pc p (.putWoken item) }
  | signalItems {s : State P} {p : P} {o : Option P} {pc' : P → Pc} : s.pc p = .putSignal →
      Signal Pc.wakeHasItems s.pc o pc' →
      Step s (.signalItems p o) { s with pc := update pc' p .idle }
  | callGet {s : State P} {p : P} : s.pc p = .idle →
      Step s (.callGet p) { s with pc := update s.pc p .getting }
  | waitItems {s : State P} {p : P} : (s.pc p).toGet = true → mcGet s.chan = none →
      Step s (.lockGet p) { s with pc := update s.pc p .getBlocked }
  | get {s : State P} {p : P} {item : List UInt8} {rb : MemChannel} :
      (s.pc p).toGet = true → mcGet s.chan = some (item, rb) →
      Step s (.lockGet p)
        { chan := rb
          pc := update s.pc p .getSignal
          ops := s.ops ++ [.get item] }
  | spuriousGet {s : State P} {p : P} : s.pc p = .getBlocked →
      Step s (.spuriousGet p) { s with pc := update s.pc p .getWoken }
  | signalSpace {s : State P} {p : P} {o : Option P} {pc' : P → Pc} : s.pc p = .getSignal →
      Signal Pc.wakeHasSpace s.pc o pc' →
      Step s (.signalSpace p o) { s with pc := update pc' p .idle }

end OsCourse.MemChan
