import Mathlib.Algebra.Order.Ring.Nat
import Mathlib.Data.List.Perm.Basic
import Mathlib.Data.List.Nodup

/-! A table kept in the first cells of an array: an entry is added after the last one, and
the last one takes the place of an entry that is removed. -/
namespace OsCourse.Compact
open Function
variable {α : Type*} {cells : Nat → α} {n i : Nat} {x : α}

/-- The entries of a table of `n` cells. -/
def entries (cells : Nat → α) (n : Nat) : List α := (List.range n).map cells

/-- The cells after the entry in cell `i` of `n` was removed. -/
def remove (cells : Nat → α) (n i : Nat) : Nat → α := update cells i (cells (n - 1))

theorem mem_entries : x ∈ entries cells n ↔ ∃ i < n, cells i = x := by
  simp [entries]

theorem entries_succ : entries cells (n + 1) = entries cells n ++ [cells n] := by
  unfold entries
  rw [List.range_succ, List.map_append, List.map_singleton]

theorem entries_update_of_le (h : n ≤ i) : entries (update cells i x) n = entries cells n := by
  apply List.map_congr_left
  intro j hj
  have hlt := List.mem_range.mp hj
  rw [update_of_ne (by omega)]

theorem entries_add : entries (update cells n x) (n + 1) = entries cells n ++ [x] := by
  rw [entries_succ, entries_update_of_le (le_refl n), update_self]

theorem entries_update_perm (h : i < n) :
    (cells i :: entries (update cells i x) n).Perm (x :: entries cells n) := by
  induction n with
  | zero => cases h
  | succ n ih =>
    cases Nat.lt_succ_iff_lt_or_eq.mp h with
    | inl hlt =>
      rw [entries_succ, entries_succ, update_of_ne hlt.ne', ← List.cons_append,
        ← List.cons_append]
      exact (ih hlt).append_right _
    | inr heq =>
      rw [entries_succ, entries_succ, heq, update_self, entries_update_of_le (le_refl n)]
      exact (List.perm_append_singleton x (entries cells n)).cons _ |>.trans
        ((List.Perm.swap x (cells n) _).trans
          ((List.perm_append_singleton (cells n) (entries cells n)).symm.cons x))

theorem entries_remove (h : i < n) :
    (cells i :: entries (remove cells n i) (n - 1)).Perm (entries cells n) := by
  cases n with
  | zero => cases h
  | succ n =>
    rw [Nat.add_sub_cancel, entries_succ]
    unfold remove
    rw [Nat.add_sub_cancel]
    cases Nat.lt_succ_iff_lt_or_eq.mp h with
    | inl hlt =>
      exact (entries_update_perm hlt).trans (List.perm_append_singleton _ _).symm
    | inr heq =>
      rw [heq, entries_update_of_le (le_refl n)]
      exact (List.perm_append_singleton _ _).symm

theorem remove_of_ne {j : Nat} (h : j ≠ i) : remove cells n i j = cells j := update_of_ne h _ _

theorem length_entries : (entries cells n).length = n := by
  unfold entries
  rw [List.length_map, List.length_range]

theorem drop_entries (h : i < n) :
    (entries cells n).drop i = cells i :: (entries cells n).drop (i + 1) := by
  rw [List.drop_eq_getElem_cons (by rw [length_entries]; exact h)]
  simp [entries]

theorem drop_entries_eq_nil : (entries cells n).drop i = [] ↔ n ≤ i := by
  rw [List.drop_eq_nil_iff, length_entries]

theorem mem_drop_entries : x ∈ (entries cells n).drop i ↔ ∃ j, i ≤ j ∧ j < n ∧ cells j = x := by
  rw [List.mem_drop_iff_getElem]
  constructor
  · intro h
    obtain ⟨j, hj, hx⟩ := h
    rw [length_entries] at hj
    refine ⟨i + j, Nat.le_add_right i j, by omega, ?_⟩
    simpa [entries] using hx
  · intro h
    obtain ⟨j, hij, hj, hx⟩ := h
    refine ⟨j - i, by rw [length_entries]; omega, ?_⟩
    have hsum : i + (j - i) = j := by omega
    simpa [entries, hsum] using hx

theorem drop_entries_remove :
    (entries (remove cells n i) (n - 1)).drop (i + 1) =
      ((entries cells n).drop (i + 1)).dropLast := by
  apply List.ext_getElem
  · simp only [List.length_drop, List.length_dropLast, length_entries]
    omega
  · intro j hj _
    rw [List.length_drop, length_entries] at hj
    rw [List.getElem_dropLast, List.getElem_drop, List.getElem_drop]
    simp only [entries, List.getElem_map, List.getElem_range]
    exact remove_of_ne (by omega)

theorem mem_getLast_drop_entries :
    x ∈ ((entries cells n).drop i).getLast? ↔ i < n ∧ cells (n - 1) = x := by
  rw [Option.mem_def, List.getLast?_eq_getElem?, List.length_drop, length_entries,
    List.getElem?_drop]
  by_cases h : i < n
  · have hsum : i + (n - i - 1) = n - 1 := by omega
    have hlt : n - 1 < n := by omega
    simp [hsum, entries, hlt, h]
  · have hnone : n ≤ i + (n - i - 1) := by omega
    simp [h, entries, hnone]

theorem forall_getLast_drop_entries {P : α → Prop} :
    (∀ x ∈ ((entries cells n).drop i).getLast?, P x) ↔ (i < n → P (cells (n - 1))) := by
  constructor
  · intro h hi
    exact h _ (mem_getLast_drop_entries.mpr ⟨hi, rfl⟩)
  · intro h x hx
    obtain ⟨hi, rfl⟩ := mem_getLast_drop_entries.mp hx
    exact h hi

end OsCourse.Compact
