import Mathlib.Algebra.Order.Ring.Nat
import OsCourse.Lib.Relay

/-! The message of the stream servers, what one `read` into it returns, and the traffic on
the connections of a server. -/
namespace OsCourse.Servers
open Relay

/-- `MAX_MSG_SIZE`, which is also `sizeof(echo_msg_t)`. -/
def maxMsgSize : Nat := 256

/-- A read result: between one byte and a whole message. -/
structure Chunk where
  bytes : List UInt8
  pos : 0 < bytes.length
  le : bytes.length ≤ maxMsgSize

/-- `echo_msg_t`, as a buffer. -/
structure EchoMsg where
  msg : List UInt8
  size : msg.length = maxMsgSize

/-- The message after a read into it: what was there stays behind the bytes read. -/
def EchoMsg.fill (m : EchoMsg) (c : Chunk) : EchoMsg where
  msg := c.bytes ++ m.msg.drop c.bytes.length
  size := by
    have hle := c.le
    rw [List.length_append, List.length_drop, m.size]
    omega

def EchoMsg.zeros : EchoMsg := ⟨List.replicate maxMsgSize 0, List.length_replicate⟩

def Chunk.zeros (n : Nat) (pos : 0 < n) (le : n ≤ maxMsgSize) : Chunk where
  bytes := List.replicate n 0
  pos := by rwa [List.length_replicate]
  le := by rwa [List.length_replicate]

theorem EchoMsg.fill_full (m : EchoMsg) {c : Chunk} (h : c.bytes.length = maxMsgSize) :
    (m.fill c).msg = c.bytes := by
  have hle : m.msg.length ≤ c.bytes.length := le_of_eq (m.size.trans h.symm)
  dsimp only [EchoMsg.fill]
  rw [List.drop_eq_nil_of_le hle, List.append_nil]

/-- The result of a `read`: bytes, or a number that is not positive. -/
inductive ReadResult where
  | data (c : Chunk)
  | done

def ReadResult.Whole : ReadResult → Prop
  | .data c => c.bytes.length = maxMsgSize
  | .done => True

/-- The bytes read from and written to the connections, by their descriptors. A descriptor
starts anew with each connection. -/
abbrev Net := Traffic Nat UInt8

def Net.empty : Net := Traffic.empty

def Net.writeMsg (net : Net) (cfd : Nat) (request : EchoMsg) : Net := net.sends cfd request.msg

theorem moves_writeMsg (net : Net) (cfd : Nat) (request : EchoMsg) (c : Chunk) :
    Moves (ReadResult.data c).Whole net
      (Net.writeMsg (net.gets cfd c.bytes) cfd (request.fill c)) := by
  refine Moves.answer cfd ?_
  have hle := c.le
  have hsize := request.size
  rw [← List.length_eq_zero_iff, List.length_drop]
  dsimp only [ReadResult.Whole]
  omega

end OsCourse.Servers
