import Mathlib.Algebra.Order.BigOperators.Group.Finset
import Mathlib.Data.Fintype.BigOperators
import OsCourse.Lib.Tally

/-! Parties that go through the same rounds. None arrives in the next round before all have
arrived in this one. -/
namespace OsCourse.Lockstep
open Function Tally
variable {T : Type*} [Fintype T] {n : Nat} {arrived : T → Nat}

/-- `n` arrivals in all: each party has arrived once in each complete round, and at most once
in the round after them. -/
structure Even (n : Nat) (arrived : T → Nat) : Prop where
  total : Finset.univ.sum arrived = n
  low : ∀ t, n / Fintype.card T ≤ arrived t
  high : ∀ t, arrived t ≤ n / Fintype.card T + 1

theorem Even.init : Even 0 (fun _ : T => 0) := by
  refine ⟨by simp, ?_, ?_⟩ <;> simp

/-- Somebody has not arrived in the current round. -/
theorem Even.exists_behind [Nonempty T] (h : Even n arrived) :
    ∃ t, arrived t = n / Fintype.card T := by
  by_contra hnone
  have hall : ∀ t, arrived t = n / Fintype.card T + 1 := by
    intro t
    have hlow := h.low t
    have hhigh := h.high t
    have hne : arrived t ≠ n / Fintype.card T := fun he => hnone ⟨t, he⟩
    omega
  have hsum := h.total
  rw [Finset.sum_congr rfl fun t _ => hall t, Finset.sum_const_nat fun _ _ => rfl, Finset.card_univ,
    Nat.mul_add, Nat.mul_one] at hsum
  have hdiv := Nat.div_add_mod n (Fintype.card T)
  have hmod := Nat.mod_lt n (Fintype.card_pos (α := T))
  omega

variable [DecidableEq T] {t : T}

theorem sum_update (arrived : T → Nat) (t : T) (k : Nat) :
    Finset.univ.sum (update arrived t k) + arrived t = Finset.univ.sum arrived + k :=
  tally_update id arrived t k

theorem Even.arrive (h : Even n arrived) (ht : arrived t = n / Fintype.card T) :
    Even (n + 1) (update arrived t (arrived t + 1)) := by
  have hpos : 0 < Fintype.card T := Fintype.card_pos_iff.mpr ⟨t⟩
  have hsum : Finset.univ.sum (update arrived t (arrived t + 1)) = n + 1 := by
    have := sum_update arrived t (arrived t + 1)
    have := h.total
    omega
  have hle : ∀ u, update arrived t (arrived t + 1) u ≤ n / Fintype.card T + 1 := by
    intro u
    by_cases hu : u = t
    · subst hu
      rw [update_self, ht]
    · rw [update_of_ne hu]
      exact h.high u
  have hsame : (n + 1) / Fintype.card T = n / Fintype.card T ∨
      (n + 1) / Fintype.card T = n / Fintype.card T + 1 ∧
        n + 1 = Fintype.card T * (n / Fintype.card T + 1) := by
    rw [Nat.succ_div]
    split
    · rename_i hdvd
      obtain ⟨k, hk⟩ := hdvd
      refine Or.inr ⟨rfl, ?_⟩
      have hmul : (n + 1) / Fintype.card T = k := by
        rw [hk, Nat.mul_div_cancel_left _ hpos]
      rw [Nat.succ_div, if_pos ⟨k, hk⟩] at hmul
      rw [hmul, hk]
    · exact Or.inl (Nat.add_zero _)
  obtain hsame | ⟨hnext, hfull⟩ := hsame
  · refine ⟨hsum, fun u => ?_, fun u => hsame ▸ hle u⟩
    rw [hsame]
    by_cases hu : u = t
    · subst hu
      rw [update_self, ht]
      exact Nat.le_succ _
    · rw [update_of_ne hu]
      exact h.low u
  · -- the round is complete: all have arrived in it
    have hall : ∀ u, update arrived t (arrived t + 1) u = n / Fintype.card T + 1 := by
      intro u
      by_contra hne
      have hlt : Finset.univ.sum (update arrived t (arrived t + 1)) <
          Finset.univ.sum fun _ : T => n / Fintype.card T + 1 :=
        Finset.sum_lt_sum (fun v _ => hle v) ⟨u, Finset.mem_univ u, lt_of_le_of_ne (hle u) hne⟩
      rw [hsum, Finset.sum_const_nat fun _ _ => rfl, Finset.card_univ, ← hfull] at hlt
      omega
    exact ⟨hsum, fun u => by rw [hall u, hnext], fun u => by rw [hall u, hnext]; omega⟩

end OsCourse.Lockstep
