import Mathlib.Algebra.Order.Ring.Nat
import Mathlib.Data.List.Basic
import Mathlib.Tactic.Common

/-! Memory as bytes: numbers of a fixed width with the least significant byte first, writes at a
place, and texts that end at a zero byte. -/
namespace OsCourse.Bytes

/-- The `w` bytes of a number. -/
def toBytes : Nat → Nat → List UInt8
  | 0, _ => []
  | w + 1, n => UInt8.ofNat n :: toBytes w (n / 256)

def ofBytes : List UInt8 → Nat
  | [] => 0
  | b :: bs => b.toNat + 256 * ofBytes bs

/-- The memory after `xs` was written from place `k` on. -/
def write (m : List UInt8) (k : Nat) (xs : List UInt8) : List UInt8 :=
  m.take k ++ xs ++ m.drop (k + xs.length)

/-- The text from place `k` on. -/
def text (m : List UInt8) (k : Nat) : List UInt8 := (m.drop k).takeWhile (· ≠ 0)

variable {m xs ys : List UInt8} {k w n : Nat}

@[simp] theorem length_toBytes (w n : Nat) : (toBytes w n).length = w := by
  induction w generalizing n with
  | zero => rfl
  | succ w ih => rw [toBytes, List.length_cons, ih]

theorem ofBytes_toBytes (h : n < 256 ^ w) : ofBytes (toBytes w n) = n := by
  induction w generalizing n with
  | zero =>
    rw [Nat.pow_zero, Nat.lt_one_iff] at h
    rw [h]
    rfl
  | succ w ih =>
    have hrest : n / 256 < 256 ^ w := by
      apply Nat.div_lt_of_lt_mul
      rw [Nat.pow_succ] at h
      omega
    have hlow : (UInt8.ofNat n).toNat = n % 256 := UInt8.toNat_ofNat'
    rw [toBytes, ofBytes, ih hrest, hlow]
    omega

theorem length_write (h : k + xs.length ≤ m.length) : (write m k xs).length = m.length := by
  unfold write
  rw [List.length_append, List.length_append, List.length_take, List.length_drop]
  omega

theorem take_write (h : n ≤ k) (hk : k ≤ m.length) : (write m k xs).take n = m.take n := by
  unfold write
  rw [List.append_assoc, List.take_append_of_le_length, List.take_take, Nat.min_eq_left h]
  rw [List.length_take]
  omega

theorem take_write_self (h : xs.length = n) : (write m 0 xs).take n = xs := by
  unfold write
  rw [List.take_zero, List.nil_append, List.take_left' h]

theorem write_all (h : xs.length = m.length) : write m 0 xs = xs := by
  unfold write
  rw [List.take_zero, List.nil_append, Nat.zero_add, h, List.drop_length, List.append_nil]

theorem text_write (hk : k ≤ m.length) (hxs : ∀ x ∈ xs, x ≠ 0) :
    text (write m k (xs ++ [0])) k = xs := by
  have hlen : (m.take k).length = k := List.length_take_of_le hk
  unfold text write
  rw [List.append_assoc, List.drop_left' hlen, List.append_assoc,
    List.takeWhile_append_of_pos (by simpa using hxs)]
  simp

end OsCourse.Bytes
