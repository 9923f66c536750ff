import OsCourse.Servers.Blocking
import OsCourse.TPool.Model

/-! The echo server with a thread pool (echo_ipchannel/echo_srv.c): its main thread, the workers
of the pool and the table of descriptors. -/
namespace OsCourse.PoolServer
open Function Servers Transition
variable {W L : Type*} {n : Nat}

/-- The pool. `tp_submit` and `tp_shutdown` are called by the main thread only, and each task is
`dispatch_connection` on a descriptor. -/
abbrev Pool (W L : Type*) := TPool.State W Unit Unit Unit L

/-- `n` connections arrive before `accept` fails, and `accepted` of them have been accepted. A
descriptor that is open is that of a connection. `msg` has the local of each worker. -/
structure State (W L : Type*) (n : Nat) where
  pool : Pool W L
  files : L → Option (Fin n)
  conn : Fin n → Conn
  msg : W → EchoMsg
  accepted : Nat

inductive Label (W L : Type*) where
  | accept (cfd : L)
  | acceptFails
  /-- a whole message is read and written back -/
  | echo (w : W)
  /-- the last `read`, `close` and the return to the pool -/
  | hangUp (w : W)
  /-- the same, on a descriptor that is not open -/
  | badFile (w : W)
  | pool (l : TPool.Label W Unit Unit Unit L)

def ofPool : TPool.Label W Unit Unit Unit L → Bool
  | .submit _ _ _ | .shutdown _ | .comeBack _ => false
  | _ => true

def Conn.next (k : Conn) : Option (Chunk × List Chunk) :=
  match k.reads with
  | [] => none
  | c :: rest => if c.bytes.length = maxMsgSize then some (c, rest) else none

/-- One turn of the loop of `process_connection`. -/
def Conn.echo (k : Conn) (msg : EchoMsg) (c : Chunk) (rest : List Chunk) : Conn :=
  { k with reads := rest, written := k.written ++ (msg.fill c).msg }

/-- The end of the loop: what was read last is lost. -/
def Conn.close (k : Conn) : Conn := { k with reads := k.reads.tail, closed := true }

section Steps
variable [DecidableEq W] [DecidableEq L]

def init [Fintype W] (reads : Fin n → List Chunk) (msg : W → EchoMsg) : State W L n :=
  { pool := TPool.init (Fintype.card W)
    files := fun _ => none
    conn := fun c => ⟨reads c, [], false⟩
    msg := msg
    accepted := 0 }

inductive Step : State W L n → Label W L → State W L n → Prop
  | accept {s : State W L n} {cfd : L} {p : Pool W L} (h : s.accepted < n) :
      s.files cfd = none → TPool.Step s.pool (.submit () (some ()) cfd) p →
      Step s (.accept cfd) { s with
        pool := p
        files := update s.files cfd (some ⟨s.accepted, h⟩)
        accepted := s.accepted + 1 }
  /-- `run` returns, and `main` calls `tp_shutdown` -/
  | acceptFails {s : State W L n} {p : Pool W L} : s.accepted = n → s.pool.submitter () = .idle →
      TPool.Step s.pool (.shutdown ()) p → Step s .acceptFails { s with pool := p }
  | echo {s : State W L n} {w : W} {func : Option Unit} {cfd : L} {c : Fin n} {m : Chunk}
      {rest : List Chunk} : s.pool.worker w = .running ⟨func, some cfd⟩ → s.files cfd = some c →
      Conn.next (s.conn c) = some (m, rest) →
      Step s (.echo w) { s with
        conn := update s.conn c (Conn.echo (s.conn c) (s.msg w) m rest)
        msg := update s.msg w ((s.msg w).fill m) }
  | hangUp {s : State W L n} {w : W} {func : Option Unit} {cfd : L} {c : Fin n} {p : Pool W L} :
      s.pool.worker w = .running ⟨func, some cfd⟩ → s.files cfd = some c →
      Conn.next (s.conn c) = none → TPool.Step s.pool (.comeBack w) p →
      Step s (.hangUp w) { s with
        pool := p
        files := update s.files cfd none
        conn := update s.conn c (Conn.close (s.conn c)) }
  | badFile {s : State W L n} {w : W} {func : Option Unit} {cfd : L} {p : Pool W L} :
      s.pool.worker w = .running ⟨func, some cfd⟩ → s.files cfd = none →
      TPool.Step s.pool (.comeBack w) p → Step s (.badFile w) { s with pool := p }
  | pool {s : State W L n} {l : TPool.Label W Unit Unit Unit L} {p : Pool W L} :
      ofPool l = true → TPool.Step s.pool l p → Step s (.pool l) { s with pool := p }

end Steps

/-- `main` has come back from `tp_shutdown`. -/
def State.Finished (s : State W L n) : Prop := s.pool.closer () = .finished

instance (s : State W L n) : Decidable s.Finished :=
  inferInstanceAs (Decidable (s.pool.closer () = .finished))

/-- What has become of the connections, when the server is finished. -/
def State.result (s : State W L n) : Option (Fin n → Conn) :=
  if s.Finished then some s.conn else none

end OsCourse.PoolServer
