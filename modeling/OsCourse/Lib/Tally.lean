import Mathlib.Algebra.BigOperators.Group.Finset.Piecewise
import Mathlib.Algebra.Order.BigOperators.Group.Finset
import Mathlib.Algebra.Order.Ring.Nat

/-! Weights of the program points of finitely many threads, added up. A step moves one
thread, or all those that a broadcast releases. -/
namespace OsCourse.Tally
open Function
variable {T P : Type*} [Fintype T]

def tally (w : P → Nat) (pc : T → P) : Nat := ∑ t, w (pc t)

/-- One thread moves: its old weight is exchanged for the new one. -/
theorem tally_update [DecidableEq T] (w : P → Nat) (pc : T → P) (t : T) (p : P) :
    tally w (update pc t p) + w (pc t) = tally w pc + w p := by
  have hold := Finset.add_sum_erase Finset.univ (fun u => w (pc u)) (Finset.mem_univ t)
  have hnew := Finset.add_sum_erase Finset.univ (fun u => w (update pc t p u))
    (Finset.mem_univ t)
  have hrest : ∑ u ∈ Finset.univ.erase t, w (update pc t p u) =
      ∑ u ∈ Finset.univ.erase t, w (pc u) := by
    apply Finset.sum_congr rfl
    intro u hu
    rw [update_of_ne (Finset.ne_of_mem_erase hu)]
  simp only [update_self] at hnew
  unfold tally
  omega

theorem tally_same [DecidableEq T] {w : P → Nat} {pc : T → P} {t : T} {p : P}
    (h : w (pc t) = w p) : tally w (update pc t p) = tally w pc := by
  have := tally_update w pc t p
  omega

theorem tally_const (w : P → Nat) (p : P) : tally w (fun _ : T => p) = Fintype.card T * w p := by
  simp [tally]

theorem tally_congr {w v : P → Nat} {pc qc : T → P} (h : ∀ t, w (pc t) = v (qc t)) :
    tally w pc = tally v qc :=
  Finset.sum_congr rfl fun t _ => h t

theorem le_tally (w : P → Nat) (pc : T → P) (t : T) : w (pc t) ≤ tally w pc :=
  Finset.single_le_sum (f := fun u => w (pc u)) (fun _ _ => Nat.zero_le _) (Finset.mem_univ t)

theorem tally_eq_zero {w : P → Nat} {pc : T → P} : tally w pc = 0 ↔ ∀ t, w (pc t) = 0 := by
  simp [tally]

theorem exists_of_tally {w : P → Nat} {pc : T → P} (h : 0 < tally w pc) :
    ∃ t, 0 < w (pc t) := by
  by_contra hnone
  have hzero : tally w pc = 0 := tally_eq_zero.mpr fun t => by
    have hle : ¬0 < w (pc t) := fun ht => hnone ⟨t, ht⟩
    omega
  omega

theorem tally_le {w v : P → Nat} {pc qc : T → P} (h : ∀ t, w (pc t) ≤ v (qc t)) :
    tally w pc ≤ tally v qc :=
  Finset.sum_le_sum fun t _ => h t

theorem all_of_tally {w : P → Nat} {pc : T → P} (hw : ∀ t, w (pc t) ≤ 1)
    (h : Fintype.card T ≤ tally w pc) : ∀ t, w (pc t) = 1 := by
  intro t
  by_contra hne
  have hlt : tally w pc < ∑ _ : T, 1 :=
    Finset.sum_lt_sum (fun u _ => hw u) ⟨t, Finset.mem_univ t, by have := hw t; omega⟩
  have hcard : ∑ _ : T, 1 = Fintype.card T := by simp
  omega

end OsCourse.Tally
