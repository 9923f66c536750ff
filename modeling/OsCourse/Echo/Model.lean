import Mathlib.Logic.Function.Basic
import OsCourse.MemChan.Items

/-! The echo service over memory channels (echo_srv.c, echo_cli.c): a server, and any number
of clients, each with its pid. A call of `mc_put` or `mc_get` is a step up to its unlock and
another for its signal. -/
namespace OsCourse.Echo
open Function MemChan

structure EchoMsg where
  sender : Int32
  msg : String
  deriving DecidableEq

def echoServiceName : String := "echo_memchannel_service"

def echoClientPrefix : String := "client_"

/-- `MAX_MSGS` of the server. -/
def maxMsgs : Nat := 1024

/-- The name that server and client print for the response channel of a pid. -/
def respName (pid : Int32) : String := echoClientPrefix ++ pid.toInt.repr

def request (pid : Int32) (i : Nat) : EchoMsg :=
  ⟨pid, "Hello_" ++ pid.toInt.repr ++ "_" ++ i.repr⟩

/-- The requests of the first `n` iterations. -/
def requests (pid : Int32) (n : Nat) : List EchoMsg :=
  (List.range n).map fun k => request pid (k + 1)

section Shm

/-- The shared memory objects: those that have a name, and the channel in each. -/
structure Shm where
  names : String → Option Nat
  segs : Nat → Chan EchoMsg
  segCount : Nat
  /-- the mutex and the conditions have been destroyed -/
  destroyed : Nat → Bool

variable (m : Shm) (seg : Nat) (name : String) (pid : Int32)

def Shm.empty : Shm := ⟨fun _ => none, fun _ => ⟨0, 0, []⟩, 0, fun _ => false⟩

/-- The object that `shm_open` with `O_CREAT` gives: a new one when the name is free. -/
def Shm.segFor : Nat := (m.names name).getD m.segCount

def Shm.mcCreate (capacity : Nat) : Shm :=
  { names := update m.names name (some (m.segFor name))
    segs := update m.segs (m.segFor name) ⟨pid, capacity, []⟩
    segCount := max m.segCount (m.segFor name + 1)
    destroyed := update m.destroyed (m.segFor name) false }

def Shm.mcOpen : Option Nat := m.names name

def Shm.store (c : Chan EchoMsg) : Shm := { m with segs := update m.segs seg c }

/-- The owner destroys the objects of the channel and its name; others unmap the memory. -/
def Shm.mcDestroy : Shm :=
  if pid = (m.segs seg).owner then
    { m with names := update m.names name none, destroyed := update m.destroyed seg true }
  else m

end Shm

inductive ServerPc where
  | start
  | getting (svc : Nat)
  /-- before the signal of `hasSpace` -/
  | got (svc : Nat) (msg : EchoMsg)
  | opening (svc : Nat) (msg : EchoMsg)
  | putting (svc : Nat) (msg : EchoMsg) (resp : Nat)
  /-- before the signal of `hasItems` -/
  | put (svc : Nat) (msg : EchoMsg) (resp : Nat)
  | closing (svc : Nat) (msg : EchoMsg) (resp : Nat)
  | failing (svc : Nat)
  | done

inductive ClientPc where
  | start
  | creating (svc : Nat)
  | putting (svc resp i : Nat)
  /-- before the signal of `hasItems` -/
  | put (svc resp i : Nat)
  | getting (svc resp i : Nat)
  /-- before the signal of `hasSpace` -/
  | got (svc resp i : Nat) (msg : EchoMsg)
  | destroying (svc resp : Nat)
  | closing (svc : Nat)
  | done

/-- The head of the loop of a client with `niters` iterations. -/
def loopHead (niters svc resp i : Nat) : ClientPc :=
  if i ≤ niters then .putting svc resp i else .destroying svc resp

/-- `sent` and `received` are history: the requests each client put and the responses it got. -/
structure State where
  shm : Shm
  server : ServerPc
  client : Int32 → ClientPc
  sent : Int32 → List EchoMsg
  received : Int32 → List EchoMsg

def init : State := ⟨Shm.empty, .start, fun _ => .start, fun _ => [], fun _ => []⟩

inductive Label where
  | server
  | client (pid : Int32)

/-- The server has the pid `srv`, and the client `p` makes `niters p` iterations. -/
inductive Step (srv : Int32) (niters : Int32 → Nat) : State → Label → State → Prop
  | srvCreate {s : State} : s.server = .start →
      Step srv niters s .server
        { s with
          shm := s.shm.mcCreate echoServiceName srv maxMsgs
          server := .getting (s.shm.segFor echoServiceName) }
  | srvGet {s : State} {svc : Nat} {msg : EchoMsg} {c : Chan EchoMsg} :
      s.server = .getting svc → (s.shm.segs svc).get = some (msg, c) →
      Step srv niters s .server { s with shm := s.shm.store svc c, server := .got svc msg }
  | srvSignalSpace {s : State} {svc : Nat} {msg : EchoMsg} : s.server = .got svc msg →
      Step srv niters s .server { s with server := .opening svc msg }
  | srvOpen {s : State} {svc resp : Nat} {msg : EchoMsg} : s.server = .opening svc msg →
      s.shm.mcOpen (respName msg.sender) = some resp →
      Step srv niters s .server { s with server := .putting svc msg resp }
  | srvNoChannel {s : State} {svc : Nat} {msg : EchoMsg} : s.server = .opening svc msg →
      s.shm.mcOpen (respName msg.sender) = none →
      Step srv niters s .server { s with server := .failing svc }
  | srvPut {s : State} {svc resp : Nat} {msg : EchoMsg} {c : Chan EchoMsg} :
      s.server = .putting svc msg resp → (s.shm.segs resp).put msg = some c →
      Step srv niters s .server
        { s with shm := s.shm.store resp c, server := .put svc msg resp }
  | srvSignalItems {s : State} {svc resp : Nat} {msg : EchoMsg} :
      s.server = .put svc msg resp →
      Step srv niters s .server { s with server := .closing svc msg resp }
  | srvClose {s : State} {svc resp : Nat} {msg : EchoMsg} :
      s.server = .closing svc msg resp →
      Step srv niters s .server
        { s with
          shm := s.shm.mcDestroy resp (respName msg.sender) srv
          server := .getting svc }
  | srvExit {s : State} {svc : Nat} : s.server = .failing svc →
      Step srv niters s .server
        { s with shm := s.shm.mcDestroy svc echoServiceName srv, server := .done }
  | cliOpen {s : State} {p : Int32} {svc : Nat} : p ≠ srv → s.client p = .start →
      s.shm.mcOpen echoServiceName = some svc →
      Step srv niters s (.client p) { s with client := update s.client p (.creating svc) }
  | cliNoService {s : State} {p : Int32} : p ≠ srv → s.client p = .start →
      s.shm.mcOpen echoServiceName = none →
      Step srv niters s (.client p) { s with client := update s.client p .done }
  | cliCreate {s : State} {p : Int32} {svc : Nat} : s.client p = .creating svc →
      Step srv niters s (.client p)
        { s with
          shm := s.shm.mcCreate (respName p) p 1
          client := update s.client p
            (loopHead (niters p) svc (s.shm.segFor (respName p)) 1) }
  | cliPut {s : State} {p : Int32} {svc resp i : Nat} {c : Chan EchoMsg} :
      s.client p = .putting svc resp i → (s.shm.segs svc).put (request p i) = some c →
      Step srv niters s (.client p)
        { s with
          shm := s.shm.store svc c
          client := update s.client p (.put svc resp i)
          sent := update s.sent p (s.sent p ++ [request p i]) }
  | cliSignalItems {s : State} {p : Int32} {svc resp i : Nat} :
      s.client p = .put svc resp i →
      Step srv niters s (.client p)
        { s with client := update s.client p (.getting svc resp i) }
  | cliGet {s : State} {p : Int32} {svc resp i : Nat} {msg : EchoMsg} {c : Chan EchoMsg} :
      s.client p = .getting svc resp i → (s.shm.segs resp).get = some (msg, c) →
      Step srv niters s (.client p)
        { s with
          shm := s.shm.store resp c
          client := update s.client p (.got svc resp i msg)
          received := update s.received p (s.received p ++ [msg]) }
  | cliSignalSpace {s : State} {p : Int32} {svc resp i : Nat} {msg : EchoMsg} :
      s.client p = .got svc resp i msg →
      Step srv niters s (.client p)
        { s with client := update s.client p (loopHead (niters p) svc resp (i + 1)) }
  | cliDestroy {s : State} {p : Int32} {svc resp : Nat} :
      s.client p = .destroying svc resp →
      Step srv niters s (.client p)
        { s with
          shm := s.shm.mcDestroy resp (respName p) p
          client := update s.client p (.closing svc) }
  | cliClose {s : State} {p : Int32} {svc : Nat} : s.client p = .closing svc →
      Step srv niters s (.client p)
        { s with
          shm := s.shm.mcDestroy svc echoServiceName p
          client := update s.client p .done }

end OsCourse.Echo
