import OsCourse.Echo.Shm
import OsCourse.EchoFifo.Model

/-! The names of the pipes, and what the variables of a client hold: a message carries the pid of
its sender and a text that fits. -/
namespace OsCourse.EchoFifo
open Bytes

section Names

theorem clientName_inj {p q : Int32} (h : clientName p = clientName q) : p = q :=
  Echo.respName_inj h

theorem clientName_ne_service (p : Int32) : clientName p ≠ echoServiceName := by
  intro h
  have hlist := congrArg (fun t : String => t.toList.head?) h
  unfold clientName at hlist
  rw [String.toList_append, List.head?_append] at hlist
  have hc : echoClientPrefix.toList.head? = some 'c' := by decide
  have he : echoServiceName.toList.head? = some 'e' := by decide
  rw [hc, he] at hlist
  cases hlist

end Names

section Texts
variable {m : List UInt8} {p : Int32} {i : Nat}

theorem length_repr_int {x : Int} {k : Nat} (hk : 0 < k) (h : x.natAbs < 10 ^ k) :
    x.repr.length ≤ k + 1 := by
  cases x with
  | ofNat n =>
    have hn : n.repr.length ≤ k := (Nat.length_repr_le_iff hk).mpr h
    exact Nat.le_succ_of_le hn
  | negSucc n =>
    have hn : (n + 1).repr.length ≤ k := (Nat.length_repr_le_iff hk).mpr h
    change ("-" ++ (n + 1).repr).length ≤ k + 1
    rw [String.length_append]
    have hone : "-".length = 1 := rfl
    omega

theorem length_hello (hi : i < 2 ^ 31) : (hello p i).length ≤ 28 := by
  have hp : p.toInt.natAbs < 10 ^ 10 := by
    have hlow := p.le_toInt
    have hhigh := p.toInt_lt
    omega
  have hpid := length_repr_int (by decide) hp
  have hiter : i.repr.length ≤ 10 := (Nat.length_repr_le_iff (by decide)).mpr (by omega)
  have hhello : "Hello_".length = 6 := rfl
  have hbar : "_".length = 1 := rfl
  unfold hello
  rw [List.length_map, String.length_toList, String.length_append, String.length_append,
    String.length_append]
  omega

theorem digits_ne_zero {c : Char} {n : Nat} (h : c ∈ n.repr.toList) :
    UInt8.ofNat c.toNat ≠ 0 := by
  rw [Nat.toList_repr] at h
  have hdigit := Nat.isDigit_of_mem_toDigits (by decide) (by decide) h
  have hrange : 48 ≤ c.toNat ∧ c.toNat ≤ 57 := by
    simpa [Char.isDigit, UInt32.le_iff_toNat_le] using hdigit
  intro hzero
  have hnat := congrArg UInt8.toNat hzero
  rw [UInt8.toNat_ofNat'] at hnat
  simp at hnat
  omega

theorem int_ne_zero {c : Char} {x : Int} (h : c ∈ x.repr.toList) : UInt8.ofNat c.toNat ≠ 0 := by
  cases x with
  | ofNat n => exact digits_ne_zero h
  | negSucc n =>
    change c ∈ ("-" ++ (n + 1).repr).toList at h
    rw [String.toList_append, List.mem_append] at h
    obtain hsign | hdigits := h
    · rw [List.mem_singleton.mp hsign]
      decide
    · exact digits_ne_zero hdigits

theorem hello_ne_zero : ∀ x ∈ hello p i, x ≠ 0 := by
  intro x hx
  obtain ⟨c, hc, rfl⟩ := List.mem_map.mp hx
  rw [String.toList_append, String.toList_append, String.toList_append, List.mem_append,
    List.mem_append, List.mem_append] at hc
  obtain ((hhello | hpid) | hbar) | hiter := hc
  · have hlist : "Hello_".toList = ['H', 'e', 'l', 'l', 'o', '_'] := by decide
    rw [hlist] at hhello
    simp only [List.mem_cons, List.not_mem_nil, or_false] at hhello
    obtain rfl | rfl | rfl | rfl | rfl | rfl := hhello <;> decide
  · exact int_ne_zero hpid
  · rw [List.mem_singleton.mp hbar]
    decide
  · exact digits_ne_zero hiter

theorem length_setSender (h : m.length = msgSize) : (setSender m p).length = msgSize := by
  unfold setSender
  rw [length_write, h]
  rw [h, length_toBytes]
  decide

theorem senderOf_setSender : senderOf (setSender m p) = p := by
  unfold senderOf setSender
  rw [take_write_self (length_toBytes _ _), ofBytes_toBytes]
  · simp
  · exact p.toUInt32.toNat_lt

theorem setMsg_fits (h : m.length = msgSize) (hi : i < 2 ^ 31) :
    msgOffset + (hello (senderOf m) i ++ [0]).length ≤ m.length := by
  have hlen := length_hello (p := senderOf m) hi
  rw [h, List.length_append, List.length_singleton]
  unfold msgOffset msgSize
  omega

theorem length_setMsg (h : m.length = msgSize) (hi : i < 2 ^ 31) :
    (setMsg m i).length = msgSize := by
  unfold setMsg
  rw [length_write (setMsg_fits h hi), h]

theorem senderOf_setMsg (h : m.length = msgSize) : senderOf (setMsg m i) = senderOf m := by
  have hoff : msgOffset ≤ m.length := by
    rw [h]
    decide
  have htake : (setMsg m i).take msgOffset = m.take msgOffset := take_write le_rfl hoff
  unfold senderOf
  rw [htake]

/-- The text of a message is what was written last, whatever the variable held before. -/
theorem text_setMsg (h : m.length = msgSize) :
    text (setMsg m i) msgOffset = hello (senderOf m) i := by
  have hoff : msgOffset ≤ m.length := by
    rw [h]
    decide
  exact text_write hoff hello_ne_zero

end Texts

end OsCourse.EchoFifo
