import OsCourse.Lib.Bytes
import OsCourse.Lib.Fifos

/-! The echo service over named pipes (echo_srv.c, echo_cli.c of echo_fifo_channel): a server, and
any number of clients, each with its pid. A system call is a step, with the code up to the next
one. Messages are the bytes of `echo_msg_t`. -/
namespace OsCourse.EchoFifo
open Bytes Fifos Function

inductive Proc where
  | server
  | client (pid : Int32)
  deriving DecidableEq

/-- `sizeof(echo_msg_t)`: the sender, and 256 bytes of text. -/
def msgSize : Nat := 260

/-- Where `msg` is in an `echo_msg_t`. -/
def msgOffset : Nat := 4

def echoServiceName : String := "echo_fifo_service"

def echoClientPrefix : String := "client_"

/-- The name that server and client print for the pipe of a client. -/
def clientName (pid : Int32) : String := echoClientPrefix ++ pid.toInt.repr

/-- The `sender` of the message in memory `m`. -/
def senderOf (m : List UInt8) : Int32 := (UInt32.ofNat (ofBytes (m.take msgOffset))).toInt32

def setSender (m : List UInt8) (pid : Int32) : List UInt8 :=
  write m 0 (toBytes msgOffset pid.toUInt32.toNat)

/-- What `sprintf` writes in an iteration, without the zero at its end. -/
def hello (pid : Int32) (i : Nat) : List UInt8 :=
  ("Hello_" ++ pid.toInt.repr ++ "_" ++ i.repr).toList.map fun c => UInt8.ofNat c.toNat

def setMsg (m : List UInt8) (i : Nat) : List UInt8 :=
  write m msgOffset (hello (senderOf m) i ++ [0])

/-- The texts of the first `n` iterations. -/
def hellos (pid : Int32) (n : Nat) : List (List UInt8) :=
  (List.range n).map fun k => hello pid (k + 1)

inductive ServerPc where
  | start
  | creating
  | reading (fd : Nat)
  | opening (fd : Nat) (msg : List UInt8)
  | writing (fd : Nat) (msg : List UInt8) (cfd : Nat)
  | closing (fd cfd : Nat)
  /-- after the `break` -/
  | failing (fd : Nat)
  | done
  /-- `return 1` of `main` -/
  | failed
  | killed

inductive ClientPc where
  | start
  | making (sfd : Nat)
  | creating (sfd : Nat)
  | writing (sfd cfd i : Nat)
  | reading (sfd cfd i : Nat)
  | closing (sfd cfd : Nat)
  | closingOwn (cfd : Nat)
  | unlinking
  | done
  /-- `return 1` of `main` -/
  | failed
  | killed

/-- The head of the loop of a client with `niters` iterations. -/
def loopHead (niters sfd cfd i : Nat) : ClientPc :=
  if i ≤ niters then .writing sfd cfd i else .closing sfd cfd

/-- `msg` and `resp` are the variables of each client, and `printed` is what it has printed. -/
structure State where
  files : Files Proc
  server : ServerPc
  client : Int32 → ClientPc
  msg : Int32 → List UInt8
  resp : Int32 → List UInt8
  printed : Int32 → List (List UInt8)

/-- Nothing runs yet. The names of earlier runs may be there, and the variables hold any bytes. -/
structure State.Start (s : State) : Prop where
  files : s.files.Quiet
  server : s.server = .start
  client : ∀ p, s.client p = .start
  msg : ∀ p, (s.msg p).length = msgSize
  resp : ∀ p, (s.resp p).length = msgSize
  printed : ∀ p, s.printed p = []

/-- A `write` of `n` bytes, not more than `PIPE_BUF`, is done in one piece when `room` says so of
the bytes that are in the pipe. Without a reader it ends the process. -/
inductive Step (room : Nat → Nat → Bool) (niters : Nat) : State → Proc → State → Prop
  | srvMkfifo {s : State} : s.server = .start →
      Step room niters s .server
        { s with files := s.files.mkfifo echoServiceName, server := .creating }
  | srvCreate {s : State} {fd : Nat} : s.server = .creating →
      s.files.names echoServiceName = some fd →
      Step room niters s .server
        { s with files := s.files.openBoth fd .server, server := .reading fd }
  | srvNoFifo {s : State} : s.server = .creating → s.files.names echoServiceName = none →
      Step room niters s .server { s with server := .failed }
  | srvRead {s : State} {fd : Nat} {msg : List UInt8} : s.server = .reading fd →
      (s.files.fifos fd).bytes ≠ [] → msg = (s.files.fifos fd).bytes.take msgSize →
      Step room niters s .server
        { s with
          files := s.files.take fd msgSize
          server := if msg.length = msgSize then .opening fd msg else .reading fd }
  | srvReadEnd {s : State} {fd : Nat} : s.server = .reading fd →
      (s.files.fifos fd).bytes = [] → (s.files.fifos fd).writers = [] →
      Step room niters s .server s
  | srvOpen {s : State} {fd cfd : Nat} {msg : List UInt8} : s.server = .opening fd msg →
      s.files.names (clientName (senderOf msg)) = some cfd →
      (s.files.fifos cfd).readers ≠ [] →
      Step room niters s .server
        { s with files := s.files.openWrite cfd .server, server := .writing fd msg cfd }
  | srvNoClient {s : State} {fd : Nat} {msg : List UInt8} : s.server = .opening fd msg →
      s.files.names (clientName (senderOf msg)) = none →
      Step room niters s .server { s with server := .failing fd }
  | srvWrite {s : State} {fd cfd : Nat} {msg : List UInt8} : s.server = .writing fd msg cfd →
      (s.files.fifos cfd).readers ≠ [] →
      room (s.files.fifos cfd).bytes.length msg.length = true →
      Step room niters s .server
        { s with files := s.files.put cfd msg, server := .closing fd cfd }
  | srvPipe {s : State} {fd cfd : Nat} {msg : List UInt8} : s.server = .writing fd msg cfd →
      (s.files.fifos cfd).readers = [] →
      Step room niters s .server
        { s with
          files := (s.files.close cfd .server).close fd .server
          server := .killed }
  | srvClose {s : State} {fd cfd : Nat} : s.server = .closing fd cfd →
      Step room niters s .server
        { s with files := s.files.close cfd .server, server := .reading fd }
  | srvExit {s : State} {fd : Nat} : s.server = .failing fd →
      Step room niters s .server { s with files := s.files.close fd .server, server := .done }
  | cliOpen {s : State} {p : Int32} {sfd : Nat} : s.client p = .start →
      s.files.names echoServiceName = some sfd → (s.files.fifos sfd).readers ≠ [] →
      Step room niters s (.client p)
        { s with
          files := s.files.openWrite sfd (.client p)
          client := update s.client p (.making sfd) }
  | cliNoService {s : State} {p : Int32} : s.client p = .start →
      s.files.names echoServiceName = none →
      Step room niters s (.client p) { s with client := update s.client p .failed }
  | cliMkfifo {s : State} {p : Int32} {sfd : Nat} : s.client p = .making sfd →
      Step room niters s (.client p)
        { s with
          files := s.files.mkfifo (clientName p)
          client := update s.client p (.creating sfd) }
  | cliCreate {s : State} {p : Int32} {sfd cfd : Nat} : s.client p = .creating sfd →
      s.files.names (clientName p) = some cfd →
      Step room niters s (.client p)
        { s with
          files := s.files.openBoth cfd (.client p)
          client := update s.client p (loopHead niters sfd cfd 1)
          msg := update s.msg p (setSender (s.msg p) p) }
  | cliNoFifo {s : State} {p : Int32} {sfd : Nat} : s.client p = .creating sfd →
      s.files.names (clientName p) = none →
      Step room niters s (.client p)
        { s with
          files := s.files.close sfd (.client p)
          client := update s.client p .failed }
  | cliWrite {s : State} {p : Int32} {sfd cfd i : Nat} {msg : List UInt8} :
      s.client p = .writing sfd cfd i → msg = setMsg (s.msg p) i →
      (s.files.fifos sfd).readers ≠ [] →
      room (s.files.fifos sfd).bytes.length msg.length = true →
      Step room niters s (.client p)
        { s with
          files := s.files.put sfd msg
          client := update s.client p (.reading sfd cfd i)
          msg := update s.msg p msg }
  | cliPipe {s : State} {p : Int32} {sfd cfd i : Nat} : s.client p = .writing sfd cfd i →
      (s.files.fifos sfd).readers = [] →
      Step room niters s (.client p)
        { s with
          files := (s.files.close sfd (.client p)).close cfd (.client p)
          client := update s.client p .killed
          msg := update s.msg p (setMsg (s.msg p) i) }
  | cliRead {s : State} {p : Int32} {sfd cfd i : Nat} {resp : List UInt8} :
      s.client p = .reading sfd cfd i → (s.files.fifos cfd).bytes ≠ [] →
      resp = write (s.resp p) 0 ((s.files.fifos cfd).bytes.take msgSize) →
      Step room niters s (.client p)
        { s with
          files := s.files.take cfd msgSize
          client := update s.client p (loopHead niters sfd cfd (i + 1))
          resp := update s.resp p resp
          printed := update s.printed p (s.printed p ++ [text resp msgOffset]) }
  | cliReadEnd {s : State} {p : Int32} {sfd cfd i : Nat} : s.client p = .reading sfd cfd i →
      (s.files.fifos cfd).bytes = [] → (s.files.fifos cfd).writers = [] →
      Step room niters s (.client p)
        { s with
          client := update s.client p (loopHead niters sfd cfd (i + 1))
          printed := update s.printed p (s.printed p ++ [text (s.resp p) msgOffset]) }
  | cliClose {s : State} {p : Int32} {sfd cfd : Nat} : s.client p = .closing sfd cfd →
      Step room niters s (.client p)
        { s with
          files := s.files.close sfd (.client p)
          client := update s.client p (.closingOwn cfd) }
  | cliCloseOwn {s : State} {p : Int32} {cfd : Nat} : s.client p = .closingOwn cfd →
      Step room niters s (.client p)
        { s with
          files := s.files.close cfd (.client p)
          client := update s.client p .unlinking }
  | cliUnlink {s : State} {p : Int32} : s.client p = .unlinking →
      Step room niters s (.client p)
        { s with
          files := s.files.unlink (clientName p)
          client := update s.client p .done }

end OsCourse.EchoFifo
