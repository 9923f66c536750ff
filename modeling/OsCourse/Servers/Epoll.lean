import Mathlib.Data.Finset.Basic
import OsCourse.Servers.Msg

/-! The echo server over `epoll` (echo_ip_epollchannel). The set also has the standard input,
which ends the server. -/
namespace OsCourse.Servers.Epoll
open Relay

/-- `EPOOL_MAX_FDS`, the length of the array of events. -/
def epoolMaxFds : Nat := 1024

def epollin : UInt32 := 1
def epollerr : UInt32 := 8

/-- A ready event, with the descriptor in `data.fd`. -/
structure EpollEvent where
  fd : Nat
  events : UInt32
  deriving DecidableEq

def EpollEvent.Input (evd : EpollEvent) : Prop := evd.events &&& epollin ≠ 0

/-- `events & (EPOLLIN | EPOLLERR)` -/
def EpollEvent.Ready (evd : EpollEvent) : Prop := evd.events &&& (epollin ||| epollerr) ≠ 0

instance (evd : EpollEvent) : Decidable evd.Input := inferInstanceAs (Decidable (_ ≠ _))
instance (evd : EpollEvent) : Decidable evd.Ready := inferInstanceAs (Decidable (_ ≠ _))

inductive Pc where
  | main
  /-- at the head of the loop over the events -/
  | process
  /-- at the head of the loop over `epoll_wait` -/
  | wait
  | exited
  deriving DecidableEq

/-- `epoll` is the epoll set, `opened` are the open descriptors of the process, and `batch` is
what `process` has left of the events. -/
structure State where
  epoll : List Nat
  nclients : Nat
  listenfd : Nat
  opened : Finset Nat
  batch : List EpollEvent
  pc : Pc
  net : Net

def init : State := ⟨[], 0, 0, {0, 1, 2}, [], .main, Net.empty⟩

section Operations
variable (s : State) (cfd : Nat)

/-- When `EPOLL_CTL_ADD` succeeds. -/
def addClient : State := { s with epoll := s.epoll ++ [cfd], nclients := s.nclients + 1 }

/-- `EPOLL_CTL_DEL` fails when the descriptor is not in the set. -/
def remClient : State :=
  if cfd ∈ s.epoll then
    { s with epoll := s.epoll.filter (· ≠ cfd), nclients := s.nclients - 1 }
  else s

/-- A descriptor that is closed leaves the epoll set. -/
def close : State :=
  { s with opened := s.opened.erase cfd, epoll := s.epoll.filter (· ≠ cfd) }

def processRequest (cfd : Nat) (request : EchoMsg) (net : Net) : Net := net.writeMsg cfd request

def terminateLoop : State := close (remClient (remClient s s.listenfd) 0) s.listenfd

end Operations

/-- What `epoll_wait` may return: events of descriptors of the set, each once. -/
structure Batch (s : State) (batch : List EpollEvent) : Prop where
  mem : ∀ evd ∈ batch, evd.fd ∈ s.epoll
  nodup : (batch.map EpollEvent.fd).Nodup
  length_le : batch.length ≤ s.nclients

inductive Label where
  | start (listenfd epollFd : Nat)
  | fails
  | wait (batch : List EpollEvent)
  | acceptFails
  | refuse (cfd : Nat)
  | accept (cfd : Nat)
  | terminate
  /-- what `request` has from before the read, and the result of the read -/
  | read (request : EchoMsg) (res : ReadResult)
  | skip
  | batchDone
  | leave

structure Connects (s : State) (evd : EpollEvent) (rest : List EpollEvent) : Prop where
  pc : s.pc = .process
  batch : s.batch = evd :: rest
  listens : evd.fd = s.listenfd ∧ evd.Input

structure Serves (s : State) (evd : EpollEvent) (rest : List EpollEvent) : Prop where
  pc : s.pc = .process
  batch : s.batch = evd :: rest
  other : ¬(evd.fd = s.listenfd ∧ evd.Input)

inductive Step : State → Label → State → Prop
  /-- The socket and the epoll descriptor are new, and both are added. -/
  | start {s : State} {listenfd epollFd : Nat} : s.pc = .main → listenfd ∉ s.opened →
      epollFd ∉ insert listenfd s.opened →
      Step s (.start listenfd epollFd)
        (addClient (addClient { s with
          listenfd := listenfd
          opened := insert epollFd (insert listenfd s.opened)
          pc := .wait } listenfd) 0)
  | fails {s : State} : s.pc = .main → Step s .fails { s with pc := .exited }
  | wait {s : State} {batch : List EpollEvent} : s.pc = .wait → s.nclients > 0 →
      Batch s batch → Step s (.wait batch) { s with batch := batch, pc := .process }
  /-- The rest of the batch is dropped. -/
  | acceptFails {s : State} {evd : EpollEvent} {rest : List EpollEvent} : Connects s evd rest →
      Step s .acceptFails { s with batch := [], pc := .wait }
  /-- The new descriptor cannot be added. It is closed, and the rest of the batch dropped. -/
  | refuse {s : State} {evd : EpollEvent} {rest : List EpollEvent} {cfd : Nat} :
      Connects s evd rest → s.listenfd ∈ s.opened → cfd ∉ s.opened →
      Step s (.refuse cfd) { s with batch := [], pc := .wait }
  | accept {s : State} {evd : EpollEvent} {rest : List EpollEvent} {cfd : Nat} :
      Connects s evd rest → s.listenfd ∈ s.opened → cfd ∉ s.opened →
      Step s (.accept cfd)
        (addClient { s with
          opened := insert cfd s.opened
          net := s.net.restart cfd
          batch := rest } cfd)
  | skip {s : State} {evd : EpollEvent} {rest : List EpollEvent} : Serves s evd rest →
      ¬evd.Ready → Step s .skip { s with batch := rest }
  | terminate {s : State} {evd : EpollEvent} {rest : List EpollEvent} : Serves s evd rest →
      evd.Ready → evd.fd = 0 → Step s .terminate { terminateLoop s with batch := rest }
  /-- There is data only on an open connection. -/
  | echo {s : State} {evd : EpollEvent} {rest : List EpollEvent} {request : EchoMsg}
      {c : Chunk} : Serves s evd rest → evd.Ready → evd.fd ≠ 0 → evd.fd ∈ s.opened →
      evd.fd ≠ s.listenfd →
      Step s (.read request (.data c))
        { s with
          net := processRequest evd.fd (request.fill c) (s.net.gets evd.fd c.bytes)
          batch := rest }
  | close {s : State} {evd : EpollEvent} {rest : List EpollEvent} {request : EchoMsg} :
      Serves s evd rest → evd.Ready → evd.fd ≠ 0 →
      Step s (.read request .done) { close (remClient s evd.fd) evd.fd with batch := rest }
  | batchDone {s : State} : s.pc = .process → s.batch = [] →
      Step s .batchDone { s with pc := .wait }
  | leave {s : State} : s.pc = .wait → s.nclients = 0 → Step s .leave { s with pc := .exited }

end OsCourse.Servers.Epoll
