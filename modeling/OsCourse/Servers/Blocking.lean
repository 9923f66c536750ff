import Mathlib.Algebra.Order.Ring.Nat
import Mathlib.Data.List.TakeWhile
import OsCourse.Servers.Msg

/-! The servers that give a thread to a connection: echo_ipchannel and echo_udschannel of
aula-06-09. Their loop goes on only while reads return whole messages. -/
namespace OsCourse.Servers

/-- A way to split a stream into read results. The end of the stream follows them. -/
structure Split (stream : List UInt8) where
  reads : List Chunk
  flatten : reads.flatMap Chunk.bytes = stream

/-- A connection: the read results to come and the bytes written to it. -/
structure Conn where
  reads : List Chunk
  written : List UInt8
  closed : Bool

/-- The loop of `process_connection`. -/
def echoLoop : EchoMsg → List Chunk → List UInt8 → Conn
  -- the read returns 0
  | _, [], written => ⟨[], written, true⟩
  | msg, c :: reads, written =>
    if c.bytes.length = maxMsgSize then
      echoLoop (msg.fill c) reads (written ++ (msg.fill c).msg)
    else ⟨reads, written, true⟩

namespace IpChannel

/-- `msg` is what the local has before the first read. -/
def processConnection (msg : EchoMsg) (reads : List Chunk) : Conn := echoLoop msg reads []

def dispatchConnection (msg : EchoMsg) (reads : List Chunk) : Conn := processConnection msg reads

end IpChannel

namespace UdsChannel

def processConnection (msg : EchoMsg) (reads : List Chunk) : Conn := echoLoop msg reads []

end UdsChannel

def completeMessages (stream : List UInt8) : List UInt8 :=
  stream.take (stream.length / maxMsgSize * maxMsgSize)

section Loop
variable {msg : EchoMsg} {reads : List Chunk} {written stream : List UInt8}

def Chunk.full (c : Chunk) : Bool := c.bytes.length = maxMsgSize

theorem Chunk.full_zeros {n : Nat} {pos : 0 < n} {le : n ≤ maxMsgSize} :
    (Chunk.zeros n pos le).full = decide (n = maxMsgSize) := by
  unfold Chunk.full Chunk.zeros
  rw [List.length_replicate]

theorem echoLoop_written (msg : EchoMsg) (reads : List Chunk) (written : List UInt8) :
    (echoLoop msg reads written).written =
      written ++ (reads.takeWhile Chunk.full).flatMap Chunk.bytes := by
  induction reads generalizing msg written with
  | nil => simp [echoLoop]
  | cons c reads ih =>
    by_cases hc : c.bytes.length = maxMsgSize
    · have hfull : c.full = true := decide_eq_true hc
      simp only [echoLoop, hc, if_true]
      rw [ih, EchoMsg.fill_full _ hc, List.takeWhile_cons_of_pos hfull, List.flatMap_cons,
        List.append_assoc]
    · have hshort : ¬c.full = true := by simpa [Chunk.full] using hc
      simp only [echoLoop, hc, if_false]
      rw [List.takeWhile_cons_of_neg hshort, List.flatMap_nil, List.append_nil]

theorem length_flatMap_full (h : ∀ c ∈ reads, c.full = true) :
    (reads.flatMap Chunk.bytes).length = reads.length * maxMsgSize := by
  induction reads with
  | nil => exact (Nat.zero_mul _).symm
  | cons c reads ih =>
    have hc : c.bytes.length = maxMsgSize := of_decide_eq_true (h c (by simp))
    rw [List.flatMap_cons, List.length_append, List.length_cons, Nat.succ_mul, hc,
      ih fun d hd => h d (List.mem_cons_of_mem c hd)]
    omega

theorem length_flatMap_le (reads : List Chunk) :
    (reads.flatMap Chunk.bytes).length ≤ reads.length * maxMsgSize := by
  induction reads with
  | nil => exact Nat.zero_le _
  | cons c reads ih =>
    have hc := c.le
    rw [List.flatMap_cons, List.length_append, List.length_cons, Nat.succ_mul]
    omega

theorem takeWhile_full_prefix (reads : List Chunk) :
    (reads.takeWhile Chunk.full).flatMap Chunk.bytes <+: reads.flatMap Chunk.bytes ∧
    ((reads.takeWhile Chunk.full).flatMap Chunk.bytes).length =
      (reads.takeWhile Chunk.full).length * maxMsgSize := by
  constructor
  · obtain ⟨rest, hrest⟩ := List.takeWhile_prefix (l := reads) Chunk.full
    refine ⟨rest.flatMap Chunk.bytes, ?_⟩
    rw [← List.flatMap_append, hrest]
  · exact length_flatMap_full fun c hc => List.mem_takeWhile_imp hc

theorem all_take_iff {n : Nat} (hn : n ≤ reads.length) :
    (∀ c ∈ reads.take n, c.full = true) ↔ n ≤ (reads.takeWhile Chunk.full).length := by
  induction reads generalizing n with
  | nil =>
    have hzero : n = 0 := Nat.le_zero.mp hn
    simp [hzero]
  | cons c reads ih =>
    cases n with
    | zero => simp
    | succ n =>
      rw [List.take_succ_cons, List.forall_mem_cons, ih (Nat.le_of_succ_le_succ hn)]
      by_cases hc : c.full = true
      · rw [List.takeWhile_cons_of_pos hc, List.length_cons, Nat.succ_le_succ_iff]
        exact and_iff_right hc
      · rw [List.takeWhile_cons_of_neg hc]
        exact ⟨fun h => absurd h.1 hc, fun h => absurd h (Nat.not_succ_le_zero n)⟩

/-- Everything that should be echoed is echoed when no read before its end is short. -/
theorem echoLoop_complete_iff (msg : EchoMsg) (split : Split stream) :
    (echoLoop msg split.reads []).written = completeMessages stream ↔
      ∀ c ∈ split.reads.take (stream.length / maxMsgSize), c.full = true := by
  have hsize : 0 < maxMsgSize := Nat.succ_pos 255
  have hlen := length_flatMap_le split.reads
  obtain ⟨hbegins, hwhole⟩ := takeWhile_full_prefix split.reads
  rw [split.flatten] at hlen hbegins
  have hreads : stream.length / maxMsgSize ≤ split.reads.length :=
    Nat.div_le_of_le_mul (by rwa [Nat.mul_comm])
  have hmost : (split.reads.takeWhile Chunk.full).length ≤ stream.length / maxMsgSize := by
    rw [Nat.le_div_iff_mul_le hsize, ← hwhole]
    exact hbegins.length_le
  rw [all_take_iff hreads, echoLoop_written, List.nil_append,
    List.prefix_iff_eq_take.mp hbegins, hwhole]
  unfold completeMessages
  constructor
  · intro h
    have hcut := congrArg List.length h
    rw [List.length_take_of_le (hwhole ▸ hbegins.length_le),
      List.length_take_of_le (Nat.div_mul_le_self _ _)] at hcut
    exact le_of_eq (Nat.eq_of_mul_eq_mul_right hsize hcut).symm
  · intro h
    rw [Nat.le_antisymm hmost h]

end Loop

section Servers

/-- For every stream and every split of it, the servers write back its complete messages
exactly when the reads that deliver these messages, one for each, return them whole. -/
theorem process_connection_complete_iff (stream : List UInt8) (split : Split stream)
    (msg : EchoMsg) :
    ((IpChannel.processConnection msg split.reads).written = completeMessages stream ∧
      (UdsChannel.processConnection msg split.reads).written = completeMessages stream) ↔
    ∀ c ∈ split.reads.take (stream.length / maxMsgSize), c.bytes.length = maxMsgSize := by
  have hloop := echoLoop_complete_iff msg split
  simp only [Chunk.full, decide_eq_true_eq] at hloop
  rw [← hloop]
  exact and_self_iff

/-- A message of 256 bytes that arrives in parts of 100 and 156 is not echoed, and is when
it arrives whole. -/
theorem message_cut_not_echoed : ∃ cut whole : Split (List.replicate maxMsgSize 0),
    (IpChannel.processConnection EchoMsg.zeros cut.reads).written = [] ∧
    (UdsChannel.processConnection EchoMsg.zeros cut.reads).written = [] ∧
    (IpChannel.processConnection EchoMsg.zeros whole.reads).written =
      completeMessages (List.replicate maxMsgSize 0) ∧
    completeMessages (List.replicate maxMsgSize 0) = List.replicate maxMsgSize 0 := by
  have hcut : [Chunk.zeros 100 (by decide) (by decide),
      Chunk.zeros 156 (by decide) (by decide)].flatMap Chunk.bytes =
        List.replicate maxMsgSize 0 := by
    rw [List.flatMap_cons, List.flatMap_singleton]
    exact List.replicate_append_replicate
  have hwhole : [Chunk.zeros maxMsgSize (by decide) (le_refl _)].flatMap Chunk.bytes =
      List.replicate maxMsgSize 0 := List.flatMap_singleton _ _
  have hall : completeMessages (List.replicate maxMsgSize 0) = List.replicate maxMsgSize 0 := by
    unfold completeMessages
    rw [List.length_replicate]
    exact List.take_of_length_le (le_of_eq List.length_replicate)
  have hshort : ¬(Chunk.zeros 100 (by decide) (by decide)).full = true := by
    rw [Chunk.full_zeros]
    decide
  have hfull : (Chunk.zeros maxMsgSize (by decide) (le_refl _)).full = true := by
    rw [Chunk.full_zeros, decide_eq_true rfl]
  have hnone : ∀ rest, (echoLoop EchoMsg.zeros
      (Chunk.zeros 100 (by decide) (by decide) :: rest) []).written = [] := by
    intro rest
    rw [echoLoop_written, List.takeWhile_cons_of_neg hshort]
    rfl
  refine ⟨⟨_, hcut⟩, ⟨_, hwhole⟩, hnone _, hnone _, ?_, hall⟩
  rw [hall]
  refine (echoLoop_written _ _ _).trans ?_
  rw [List.takeWhile_cons_of_pos hfull, List.takeWhile_nil]
  exact hwhole

end Servers

end OsCourse.Servers
