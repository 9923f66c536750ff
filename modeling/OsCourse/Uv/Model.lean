import Mathlib.Logic.Function.Basic

/-! The libuv echo server that answers through the thread pool (echo_uv_srv.c of aula-06-23).
The loop thread runs one callback at a time. `do_work` only sleeps, so a work item is queued
until its `send_resp`, and the `send_resp` of queued items come in any order. -/
namespace OsCourse.Uv
open Function

/-- A buffer that `echo_read` was given: `len` bytes of a connection's stream, from the one
numbered `start`. -/
structure Buf where
  conn : Nat
  start : Nat
  len : Nat
  deriving DecidableEq

/-- `uv_echo_work_t`. The client is a pointer. -/
structure EchoWork where
  client : Nat
  buf : Buf
  deriving DecidableEq

/-- A `uv_tcp_t` on the heap: its connection, and whether `uv_close` was called. -/
structure Client where
  conn : Nat
  closed : Bool
  deriving DecidableEq

/-- Connections are numbered as they come. `read` and `written` are history: how much of the
stream of each was read, and the buffers written to it. -/
structure State where
  heap : Nat → Option Client
  conns : Nat
  work : List EchoWork
  read : Nat → Nat
  written : Nat → List Buf

def init : State := ⟨fun _ => none, 0, [], fun _ => 0, fun _ => []⟩

/-- `uv_write` of a buffer: it fails on a handle that is closed. -/
def uvWrite (client : Option Client) (buf : Buf) (written : Nat → List Buf) :
    Nat → List Buf :=
  match client with
  | some c => if c.closed then written else update written c.conn (written c.conn ++ [buf])
  | none => written

section Write
variable {c : Client} {client : Option Client} {buf : Buf} {written : Nat → List Buf} {k : Nat}

theorem uvWrite_self (hopen : c.closed = false) :
    uvWrite (some c) buf written c.conn = written c.conn ++ [buf] := by
  simp [uvWrite, hopen]

theorem uvWrite_of_ne (h : ∀ c, client = some c → c.closed = false → c.conn ≠ k) :
    uvWrite client buf written k = written k := by
  cases client with
  | none => rfl
  | some c =>
    dsimp only [uvWrite]
    split
    · rfl
    · rename_i hopen
      rw [update_of_ne]
      exact (h c rfl (Bool.eq_false_iff.mpr hopen)).symm

end Write

/-- A callback of the loop. The pointer is that of its client. -/
inductive Label where
  | onNewConnection (client : Nat)
  | onNewConnectionError
  | echoRead (client nread : Nat)
  | echoReadEnd (client : Nat)
  | sendResp (i : Nat)
  | onClose (client : Nat)
  deriving DecidableEq

inductive Step : State → Label → State → Prop
  /-- `malloc` gives any address that is free. -/
  | accept {s : State} {p : Nat} : s.heap p = none →
      Step s (.onNewConnection p)
        { s with heap := update s.heap p (some ⟨s.conns, false⟩), conns := s.conns + 1 }
  /-- `uv_accept` fails. -/
  | acceptFails {s : State} {p : Nat} : s.heap p = none →
      Step s (.onNewConnection p)
        { s with heap := update s.heap p (some ⟨s.conns, true⟩), conns := s.conns + 1 }
  | connectionError {s : State} : Step s .onNewConnectionError s
  /-- `dispatch_work` queues what was read. -/
  | read {s : State} {p nread : Nat} {c : Client} : s.heap p = some c → c.closed = false →
      0 < nread →
      Step s (.echoRead p nread)
        { s with
          work := s.work ++ [⟨p, ⟨c.conn, s.read c.conn, nread⟩⟩]
          read := update s.read c.conn (s.read c.conn + nread) }
  | readNothing {s : State} {p : Nat} {c : Client} : s.heap p = some c → c.closed = false →
      Step s (.echoRead p 0) s
  /-- End of the stream, or an error: `uv_close`. -/
  | readEnd {s : State} {p : Nat} {c : Client} : s.heap p = some c → c.closed = false →
      Step s (.echoReadEnd p) { s with heap := update s.heap p (some ⟨c.conn, true⟩) }
  | sendResp {s : State} {before after : List EchoWork} {wreq : EchoWork} :
      s.work = before ++ wreq :: after →
      Step s (.sendResp before.length)
        { s with
          work := before ++ after
          written := uvWrite (s.heap wreq.client) wreq.buf s.written }
  | onClose {s : State} {p : Nat} {c : Client} : s.heap p = some c → c.closed = true →
      Step s (.onClose p) { s with heap := update s.heap p none }

theorem getElem?_work {work before after : List EchoWork} {wreq : EchoWork}
    (h : work = before ++ wreq :: after) : work[before.length]? = some wreq := by
  rw [h, List.getElem?_append_right (Nat.le_refl _), Nat.sub_self, List.getElem?_cons_zero]

theorem mem_work {work before after : List EchoWork} {wreq w : EchoWork}
    (h : work = before ++ wreq :: after) (hw : w ∈ before ++ after) : w ∈ work := by
  rw [h]
  cases List.mem_append.mp hw with
  | inl hbefore => exact List.mem_append_left _ hbefore
  | inr hafter => exact List.mem_append_right _ (List.mem_cons_of_mem _ hafter)

end OsCourse.Uv
