import Mathlib.Data.Finset.Basic
import OsCourse.Lib.Compact
import OsCourse.Servers.Msg

/-! The echo server over `select` (echo_ip_selchannel). A step is what its loop does between
two tests, so that accepts, reads and closes can be told apart. -/
namespace OsCourse.Servers.Select
open OsCourse.Compact Function Relay

def fdSetsize : Nat := 1024

/-- Set by `main`. -/
def maxclients : Nat := fdSetsize - 4

inductive Pc where
  | main
  /-- about to call `select` -/
  | select
  /-- about to test the listening descriptor -/
  | process (nready : Int)
  /-- at the head of the loop over the clients -/
  | scan (i : Nat) (nready : Int)
  | exited
  deriving DecidableEq

/-- The globals of the server. `conns` are the descriptors of the connections accepted and not
yet closed, `passed` those given to `FD_SET`, `FD_ISSET` or `FD_CLR` so far. -/
structure State where
  clients : Nat → Nat
  maxclientFd : Nat
  nclients : Nat
  listenfd : Nat
  rset : Finset Nat
  allset : Finset Nat
  pc : Pc
  conns : Finset Nat
  passed : List Nat
  net : Net

def init : State := ⟨fun _ => 0, 0, 0, 0, ∅, ∅, .main, ∅, [], Net.empty⟩

/-- The lowest descriptor that is not open. -/
def LowestFree (opened : Finset Nat) (fd : Nat) : Prop := fd ∉ opened ∧ ∀ n < fd, n ∈ opened

instance (opened : Finset Nat) (fd : Nat) : Decidable (LowestFree opened fd) :=
  inferInstanceAs (Decidable (_ ∧ _))

def stdFds : Finset Nat := {0, 1, 2}

def State.opened (s : State) : Finset Nat := insert s.listenfd (stdFds ∪ s.conns)

section Operations
variable (s : State) (cfd i : Nat)

def State.fdSet : State :=
  { s with allset := insert cfd s.allset, passed := s.passed ++ [cfd] }

def State.fdClr : State :=
  { s with allset := s.allset.erase cfd, passed := s.passed ++ [cfd] }

/-- `FD_ISSET(cfd, &rset)` is the test `cfd ∈ s.rset`. -/
def State.fdIsset : State := { s with passed := s.passed ++ [cfd] }

def addClient : Option State :=
  if s.nclients = maxclients then none
  else some { s with
    clients := update s.clients s.nclients cfd
    nclients := s.nclients + 1
    maxclientFd := if cfd > s.maxclientFd then cfd else s.maxclientFd }

/-- `close(cfd)` first. -/
def remClient : State :=
  { s with
    conns := s.conns.erase cfd
    clients := remove s.clients s.nclients i
    nclients := s.nclients - 1 }.fdClr cfd

def processRequest (cfd : Nat) (request : EchoMsg) (net : Net) : Net := net.writeMsg cfd request

end Operations

inductive Label where
  | socket (fd : Nat)
  | fails
  | select (ready : Finset Nat) (nready : Int)
  | accept (cfd : Nat)
  | acceptFails
  | noAccept
  | skip
  /-- what `request` has from before the read, and the result of the read -/
  | read (request : EchoMsg) (res : ReadResult)
  | done

/-- Where the accept branch goes on: `if (--nready == 0) return`. -/
def afterAccept (nready : Int) : Pc := if nready - 1 = 0 then .select else .scan 0 (nready - 1)

inductive Step : State → Label → State → Prop
  | socket {s : State} {fd : Nat} : s.pc = .main → LowestFree stdFds fd →
      Step s (.socket fd)
        ({ s with
            listenfd := fd, maxclientFd := fd, nclients := 0, allset := ∅, rset := ∅,
            pc := .select }.fdSet fd)
  /-- no socket, or no `listen` on it -/
  | fails {s : State} : s.pc = .main → Step s .fails { s with pc := .exited }
  | select {s : State} {ready : Finset Nat} {nready : Int} : s.pc = .select → ready ⊆ s.allset →
      Step s (.select ready nready) { s with rset := ready, pc := .process nready }
  | noAccept {s : State} {nready : Int} : s.pc = .process nready → s.listenfd ∉ s.rset →
      Step s .noAccept ({ s with pc := .scan 0 nready }.fdIsset s.listenfd)
  | acceptFails {s : State} {nready : Int} : s.pc = .process nready → s.listenfd ∈ s.rset →
      Step s .acceptFails ({ s with pc := .select }.fdIsset s.listenfd)
  /-- `close(cfd)` -/
  | refuse {s : State} {nready : Int} {cfd : Nat} : s.pc = .process nready →
      s.listenfd ∈ s.rset → LowestFree s.opened cfd →
      s.nclients = maxclients ∨ addClient s cfd = none →
      Step s (.accept cfd) ({ s with pc := .select }.fdIsset s.listenfd)
  | accept {s t : State} {nready : Int} {cfd : Nat} : s.pc = .process nready →
      s.listenfd ∈ s.rset → LowestFree s.opened cfd →
      s.nclients ≠ maxclients → addClient s cfd = some t →
      Step s (.accept cfd)
        ({ t with
            conns := insert cfd s.conns
            net := s.net.restart cfd
            pc := afterAccept nready }.fdIsset s.listenfd |>.fdSet cfd)
  /-- No client is -1: the clients are descriptors that were accepted. -/
  | skip {s : State} {i : Nat} {nready : Int} : s.pc = .scan i nready → i < s.nclients →
      nready > 0 → s.clients i ∉ s.rset →
      Step s .skip ({ s with pc := .scan (i + 1) nready }.fdIsset (s.clients i))
  | echo {s : State} {i : Nat} {nready : Int} {request : EchoMsg} {c : Chunk} :
      s.pc = .scan i nready → i < s.nclients → nready > 0 → s.clients i ∈ s.rset →
      Step s (.read request (.data c))
        ({ s with
            net := processRequest (s.clients i) (request.fill c) (s.net.gets (s.clients i) c.bytes)
            pc := .scan (i + 1) nready }.fdIsset (s.clients i))
  | close {s : State} {i : Nat} {nready : Int} {request : EchoMsg} :
      s.pc = .scan i nready → i < s.nclients → nready > 0 → s.clients i ∈ s.rset →
      Step s (.read request .done)
        (remClient ({ s with pc := .scan (i + 1) (nready - 1) }.fdIsset (s.clients i))
          (s.clients i) i)
  | done {s : State} {i : Nat} {nready : Int} : s.pc = .scan i nready →
      ¬(i < s.nclients ∧ nready > 0) → Step s .done { s with pc := .select }

end OsCourse.Servers.Select
