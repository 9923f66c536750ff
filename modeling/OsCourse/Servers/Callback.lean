import Mathlib.Data.Finset.Insert
import OsCourse.Servers.Loop
import OsCourse.Servers.Msg

/-! The echo server of callbacks (echo_srv.c of echo_ip_epoll_cb), on top of the loop. A step
runs a callback to its end. -/
namespace OsCourse.Servers.Callback
open Loop Relay

inductive Cb where
  | onReadRequest
  | onNewConnection
  deriving DecidableEq

inductive Pc where
  | main
  | process
  /-- about to call `epoll_wait` -/
  | wait
  | exited
  /-- `ah_accept_async` was given NULL -/
  | crashed
  deriving DecidableEq

/-- `conns` are the descriptors of the connections accepted and not closed. -/
structure State where
  loop : AsyncLoop Cb
  batch : List Event
  pc : Pc
  listenfd : Nat
  conns : Finset Nat
  net : Net

def init : State := ⟨ahInit, [], .main, 0, ∅, Net.empty⟩

section Callbacks
variable (s : State)

/-- `server_init`, when `listen` succeeds, and the call that starts the accepts. -/
def serverInit (listenfd ah : Nat) (added : Bool) : State :=
  { s with
    listenfd := listenfd
    loop := ahAcceptAsync (ahRegistFd s.loop ah listenfd added) ah .onNewConnection 0 }

/-- A connection accepted as 0 is neither served nor closed. -/
def onNewConnection (cfd ah : Nat) (added : Bool) : State :=
  { s with
    conns := insert cfd s.conns
    net := s.net.restart cfd
    loop :=
      if cfd > 0 then ahReadAsync (ahRegistFd s.loop ah cfd added) ah .onReadRequest 0
      else s.loop }

/-- `request` is what the local has before the read. -/
def onReadRequest (ah cfd : Nat) (request : EchoMsg) (res : ReadResult) : State :=
  match res with
  | .data c => { s with net := Net.writeMsg (s.net.gets cfd c.bytes) cfd (request.fill c) }
  | .done => { s with loop := ahClose s.loop ah }

end Callbacks

inductive Label where
  | start (listenfd ah : Nat) (added : Bool)
  | fails
  | wait (batch : List Event)
  | skip
  | acceptFails
  | accept (cfd ah : Nat) (added : Bool)
  | read (request : EchoMsg) (res : ReadResult)
  | batchDone
  | leave

/-- The head of the batch is an event of a handle with callback `cb`. -/
structure Calls (s : State) (evd : Event) (rest : List Event) (h : AsyncHandle Cb) (cb : Cb) :
    Prop where
  pc : s.pc = .process
  batch : s.batch = evd :: rest
  ready : evd.Ready
  handle : s.loop.heap evd.entry.ptr = some h
  callback : h.cb = some cb

/-- An address is free, and the descriptor is not in the epoll set when it is added. -/
def Registers (s : State) (ah fd : Nat) (added : Bool) : Prop :=
  s.loop.heap ah = none ∧ (added = true → fd ∉ s.loop.epoll.map Entry.fd)

inductive Step : State → Label → State → Prop
  | start {s : State} {listenfd ah : Nat} {added : Bool} : s.pc = .main →
      Registers s ah listenfd added →
      Step s (.start listenfd ah added) { serverInit s listenfd ah added with pc := .wait }
  /-- no socket, or no `listen` on it -/
  | fails {s : State} : s.pc = .main → Step s .fails { s with pc := .crashed }
  | wait {s : State} {batch : List Event} : s.pc = .wait → s.loop.nclients > 0 →
      Batch s.loop batch → Step s (.wait batch) { s with batch := batch, pc := .process }
  | skip {s : State} {evd : Event} {rest : List Event} : s.pc = .process →
      s.batch = evd :: rest →
      (¬evd.Ready ∨ ∃ h, s.loop.heap evd.entry.ptr = some h ∧ h.cb = none) →
      Step s .skip { s with batch := rest }
  | acceptFails {s : State} {evd : Event} {rest : List Event} {h : AsyncHandle Cb} :
      Calls s evd rest h .onNewConnection → Step s .acceptFails { s with batch := rest }
  /-- What `accept` returns is not open. -/
  | accept {s : State} {evd : Event} {rest : List Event} {h : AsyncHandle Cb} {cfd ah : Nat}
      {added : Bool} : Calls s evd rest h .onNewConnection →
      cfd ∉ insert s.listenfd s.conns → Registers s ah cfd added →
      Step s (.accept cfd ah added) { onNewConnection s cfd ah added with batch := rest }
  | read {s : State} {evd : Event} {rest : List Event} {h : AsyncHandle Cb} {cfd : Nat}
      {request : EchoMsg} {res : ReadResult} : Calls s evd rest h .onReadRequest →
      ahGetfd s.loop evd.entry.ptr = some cfd →
      Step s (.read request res)
        { onReadRequest s evd.entry.ptr cfd request res with batch := rest }
  | batchDone {s : State} : s.pc = .process → s.batch = [] →
      Step s .batchDone { s with pc := .wait }
  | leave {s : State} : s.pc = .wait → s.loop.nclients = 0 →
      Step s .leave { s with pc := .exited }

end OsCourse.Servers.Callback
