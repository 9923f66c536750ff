import Mathlib.Logic.Function.Basic
import OsCourse.Lib.BoundedFifo

/-! Ring buffers. The size tells a full ring from an empty one, and the indices wrap; a ring
is a bounded FIFO of the slots from `iget` on. -/
namespace OsCourse.RingBuffer
open Function

structure Buffer (α : Type*) where
  cap : Nat
  iput : Nat
  iget : Nat
  size : Nat
  slot : Nat → α
  iget_lt : iget < cap
  size_le : size ≤ cap
  iput_eq : iput = (iget + size) % cap

/-- The index after `i`. -/
def next (cap i : Nat) : Nat := if i + 1 = cap then 0 else i + 1

theorem next_eq {cap i : Nat} (h : i < cap) : next cap i = (i + 1) % cap := by
  unfold next
  split
  · rename_i he
    rw [he, Nat.mod_self]
  · rw [Nat.mod_eq_of_lt (by omega)]

theorem next_lt {cap i : Nat} (h : i < cap) : next cap i < cap := by
  rw [next_eq h]
  exact Nat.mod_lt _ (by omega)

theorem slot_ne {cap i j k : Nat} (hk : k < cap) (hj : j < k) :
    (i + j) % cap ≠ (i + k) % cap := by
  intro he
  have hsub := Nat.sub_mod_eq_zero_of_mod_eq he.symm
  have heq : i + k - (i + j) = k - j := by omega
  rw [heq, Nat.mod_eq_of_lt (by omega)] at hsub
  omega

namespace Buffer
variable {α : Type*}

/-- What the ring holds, the oldest first. -/
def contents (r : Buffer α) : List α :=
  (List.range r.size).map fun k => r.slot ((r.iget + k) % r.cap)

theorem length_contents (r : Buffer α) : r.contents.length = r.size := by simp [contents]

theorem iput_lt (r : Buffer α) : r.iput < r.cap := by
  rw [r.iput_eq]
  exact Nat.mod_lt _ (Nat.lt_of_le_of_lt (Nat.zero_le _) r.iget_lt)

def empty (cap : Nat) (slot : Nat → α) (h : 0 < cap) : Buffer α :=
  { cap := cap
    iput := 0
    iget := 0
    size := 0
    slot := slot
    iget_lt := h
    size_le := Nat.zero_le cap
    iput_eq := (Nat.zero_mod cap).symm }

def put (r : Buffer α) (x : α) (h : r.size < r.cap) : Buffer α :=
  { r with
    iput := next r.cap r.iput
    size := r.size + 1
    slot := update r.slot r.iput x
    size_le := h
    iput_eq := by
      rw [next_eq r.iput_lt, r.iput_eq, Nat.mod_add_mod, Nat.add_assoc] }

def get (r : Buffer α) (h : 0 < r.size) : Buffer α :=
  { r with
    iget := next r.cap r.iget
    size := r.size - 1
    iget_lt := next_lt r.iget_lt
    size_le := Nat.le_trans (Nat.sub_le _ _) r.size_le
    iput_eq := by
      have hsum : r.iget + 1 + (r.size - 1) = r.iget + r.size := by omega
      rw [next_eq r.iget_lt, Nat.mod_add_mod, hsum, r.iput_eq] }

/-- A put writes a slot that holds nothing, and appends to what the ring holds. -/
theorem contents_put (r : Buffer α) (x : α) (h : r.size < r.cap) :
    (r.put x h).contents = r.contents ++ [x] := by
  have hlast : update r.slot r.iput x ((r.iget + r.size) % r.cap) = x := by
    rw [← r.iput_eq, update_self]
  have hrest : ∀ k ∈ List.range r.size, update r.slot r.iput x ((r.iget + k) % r.cap) =
      r.slot ((r.iget + k) % r.cap) := by
    intro k hk
    apply update_of_ne
    rw [r.iput_eq]
    exact slot_ne h (List.mem_range.mp hk)
  simp only [contents, put, List.range_succ, List.map_append, List.map_singleton, hlast]
  rw [List.map_congr_left hrest]

theorem contents_get (r : Buffer α) (h : 0 < r.size) :
    r.contents = r.slot r.iget :: (r.get h).contents := by
  obtain ⟨n, hn⟩ := Nat.exists_eq_succ_of_ne_zero (Nat.pos_iff_ne_zero.mp h)
  have hfirst : (r.iget + 0) % r.cap = r.iget := Nat.mod_eq_of_lt r.iget_lt
  simp only [contents, get, hn, List.range_succ_eq_map, List.map_cons, List.map_map, hfirst,
    Nat.succ_sub_one]
  congr 1
  apply List.map_congr_left
  intro k _
  rw [next_eq r.iget_lt, Nat.mod_add_mod]
  simp only [comp_apply, Nat.succ_eq_add_one]
  rw [Nat.add_assoc, Nat.add_comm 1 k]

open BoundedFifo in
theorem put_step (r : Buffer α) (x : α) (h : r.size < r.cap) :
    Step r.cap r.contents (.put x) (r.put x h).contents := by
  rw [contents_put]
  apply Step.put
  rwa [length_contents]

open BoundedFifo in
theorem get_step (r : Buffer α) (h : 0 < r.size) :
    Step r.cap r.contents (.get (r.slot r.iget)) (r.get h).contents := by
  rw [contents_get r h]
  exact Step.get _

end Buffer

end OsCourse.RingBuffer
