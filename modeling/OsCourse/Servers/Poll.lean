import Mathlib.Data.List.Count
import OsCourse.Lib.Compact
import OsCourse.Servers.Msg

/-! The echo server over `poll` (echo_ip_pollchannel). Slot 0 of the table is that of the
listening socket. `poll` writes the `revents` of the slots it is given, and nobody else does. -/
namespace OsCourse.Servers.Poll
open OsCourse.Compact Function Relay

def fopenMax : Nat := 16

def pollin : UInt16 := 1
def pollerr : UInt16 := 8

structure Pollfd where
  fd : Nat
  events : UInt16
  revents : UInt16
  deriving DecidableEq

/-- The test of the scan: `revents & (POLLIN | POLLERR)`. -/
def Pollfd.Ready (slot : Pollfd) : Prop := slot.revents &&& (pollin ||| pollerr) ≠ 0

instance (slot : Pollfd) : Decidable slot.Ready := inferInstanceAs (Decidable (_ ≠ _))

inductive Pc where
  | main
  /-- about to call `poll` -/
  | poll
  /-- about to test the slot of the listening socket -/
  | process (nready : Int)
  /-- at the head of the loop over the other slots -/
  | scan (i : Nat) (nready : Int)
  | exited
  deriving DecidableEq

/-- The globals of the server. `reported` is history: the descriptors whose slots were given
`POLLIN` or `POLLERR` by the last call of `poll`. -/
structure State where
  clients : Nat → Pollfd
  nclients : Nat
  listenfd : Nat
  pc : Pc
  reported : List Nat
  net : Net

def init : State := ⟨fun _ => ⟨0, 0, 0⟩, 0, 0, .main, [], Net.empty⟩

section Operations
variable (s : State) (cfd i : Nat)

/-- The `revents` of the slot stay as they are. -/
def addClient : Option State :=
  if s.nclients = fopenMax then none
  else some { s with
    clients := update s.clients s.nclients
      { s.clients s.nclients with fd := cfd, events := pollin ||| pollerr }
    nclients := s.nclients + 1 }

/-- `close(cfd)`, and the last slot moves down. -/
def remClient : State :=
  { s with clients := remove s.clients s.nclients i, nclients := s.nclients - 1 }

def processRequest (cfd : Nat) (request : EchoMsg) (net : Net) : Net := net.writeMsg cfd request

/-- The table after a call of `poll`. -/
def poll (revents : Nat → UInt16) : Nat → Pollfd := fun j =>
  if j < s.nclients then { s.clients j with revents := revents j } else s.clients j

def readyCount (revents : Nat → UInt16) : Nat :=
  (List.range s.nclients).countP fun j => revents j ≠ 0

/-- The descriptors among the first `n` slots that have input or an error. -/
def readyFds (clients : Nat → Pollfd) (n : Nat) : List Nat :=
  ((entries clients n).filter fun slot => slot.Ready).map Pollfd.fd

/-- What `accept` returns is not open, so it is in no slot. -/
def State.Fresh : Prop := ∀ j < s.nclients, (s.clients j).fd ≠ cfd

instance : Decidable (s.Fresh cfd) :=
  inferInstanceAs (Decidable (∀ j < s.nclients, (s.clients j).fd ≠ cfd))

end Operations

inductive Label where
  | socket (fd : Nat)
  | fails
  | poll (revents : Nat → UInt16)
  | noAccept
  | acceptFails
  | accept (cfd : Nat)
  | skip
  /-- what `request` has from before the read, and the result of the read -/
  | read (request : EchoMsg) (res : ReadResult)
  | done

/-- Where the accept branch goes on: `if (--nready == 0) return`. -/
def afterAccept (nready : Int) : Pc := if nready - 1 = 0 then .poll else .scan 1 (nready - 1)

inductive Step : State → Label → State → Prop
  | socket {s t : State} {fd : Nat} : s.pc = .main → addClient s fd = some t →
      Step s (.socket fd) { t with listenfd := fd, pc := .poll }
  /-- no socket, or no `listen` on it -/
  | fails {s : State} : s.pc = .main → Step s .fails { s with pc := .exited }
  | poll {s : State} {revents : Nat → UInt16} : s.pc = .poll → s.nclients > 0 →
      Step s (.poll revents)
        { s with
          clients := poll s revents
          reported := readyFds (poll s revents) s.nclients
          pc := .process (readyCount s revents) }
  | noAccept {s : State} {nready : Int} : s.pc = .process nready →
      (s.clients 0).revents &&& pollin = 0 →
      Step s .noAccept { s with pc := .scan 1 nready }
  | acceptFails {s : State} {nready : Int} : s.pc = .process nready →
      (s.clients 0).revents &&& pollin ≠ 0 →
      Step s .acceptFails { s with pc := .poll }
  /-- `close(cfd)` -/
  | refuse {s : State} {nready : Int} {cfd : Nat} : s.pc = .process nready →
      (s.clients 0).revents &&& pollin ≠ 0 → s.Fresh cfd → addClient s cfd = none →
      Step s (.accept cfd) { s with pc := .poll }
  | accept {s t : State} {nready : Int} {cfd : Nat} : s.pc = .process nready →
      (s.clients 0).revents &&& pollin ≠ 0 → s.Fresh cfd → addClient s cfd = some t →
      Step s (.accept cfd) { t with net := s.net.restart cfd, pc := afterAccept nready }
  | skip {s : State} {i : Nat} {nready : Int} : s.pc = .scan i nready → nready > 0 →
      i < s.nclients → ¬(s.clients i).Ready →
      Step s .skip { s with pc := .scan (i + 1) nready }
  | echo {s : State} {i : Nat} {nready : Int} {request : EchoMsg} {c : Chunk} :
      s.pc = .scan i nready → nready > 0 → i < s.nclients → (s.clients i).Ready →
      Step s (.read request (.data c))
        { s with
          net := processRequest (s.clients i).fd (request.fill c)
            (s.net.gets (s.clients i).fd c.bytes)
          pc := .scan (i + 1) nready }
  | close {s : State} {i : Nat} {nready : Int} {request : EchoMsg} :
      s.pc = .scan i nready → nready > 0 → i < s.nclients → (s.clients i).Ready →
      Step s (.read request .done)
        (remClient { s with pc := .scan (i + 1) (nready - 1) } i)
  | done {s : State} {i : Nat} {nready : Int} : s.pc = .scan i nready →
      ¬(nready > 0 ∧ i < s.nclients) → Step s .done { s with pc := .poll }

end OsCourse.Servers.Poll
