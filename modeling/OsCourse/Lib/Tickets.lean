import Mathlib.Data.List.Nodup
import OsCourse.Lib.Transition

/-! Tickets numbered in the order in which they are drawn. Each ticket is held by one
holder until it is handed back. -/
namespace OsCourse.Tickets
open Function Transition
variable {T : Type*} {drawn : Nat} {held : T → Option Nat} {back : List Nat}

structure Ledger (drawn : Nat) (held : T → Option Nat) (back : List Nat) : Prop where
  own : ∀ t u k, held t = some k → held u = some k → t = u
  held_lt : ∀ t k, held t = some k → k < drawn
  back_lt : ∀ k ∈ back, k < drawn
  apart : ∀ t k, held t = some k → k ∉ back
  nodup : back.Nodup
  every : ∀ k < drawn, k ∈ back ∨ ∃ t, held t = some k

theorem Ledger.empty : Ledger 0 (fun _ : T => none) [] := by
  refine ⟨?_, ?_, ?_, ?_, List.nodup_nil, ?_⟩
  · intro t u k h
    cases h
  · intro t k h
    cases h
  · intro k h
    cases h
  · intro t k h
    cases h
  · intro k h
    cases h

variable [DecidableEq T] {t : T}

theorem Ledger.draw (h : Ledger drawn held back) (ht : held t = none) :
    Ledger (drawn + 1) (update held t (some drawn)) back := by
  have hcases : ∀ u k, update held t (some drawn) u = some k →
      (u = t ∧ k = drawn) ∨ (u ≠ t ∧ held u = some k) := by
    intro u k hu
    obtain ⟨hut, hk⟩ | hold := update_cases hu
    · exact Or.inl ⟨hut, (Option.some.inj hk).symm⟩
    · exact Or.inr hold
  refine ⟨?_, ?_, ?_, ?_, h.nodup, ?_⟩
  · intro u v k hu hv
    obtain ⟨rfl, rfl⟩ | ⟨_, hu'⟩ := hcases u k hu
    · obtain ⟨rfl, _⟩ | ⟨_, hv'⟩ := hcases v _ hv
      · rfl
      · exact absurd (h.held_lt v _ hv') (by omega)
    · obtain ⟨rfl, rfl⟩ | ⟨_, hv'⟩ := hcases v k hv
      · exact absurd (h.held_lt u _ hu') (by omega)
      · exact h.own u v k hu' hv'
  · intro u k hu
    obtain ⟨_, rfl⟩ | ⟨_, hu'⟩ := hcases u k hu
    · omega
    · have := h.held_lt u k hu'
      omega
  · intro k hk
    have := h.back_lt k hk
    omega
  · intro u k hu hk
    obtain ⟨_, rfl⟩ | ⟨_, hu'⟩ := hcases u k hu
    · have := h.back_lt k hk
      omega
    · exact h.apart u k hu' hk
  · intro k hk
    obtain hlt | rfl := Nat.lt_succ_iff_lt_or_eq.mp hk
    · obtain hb | ⟨u, hu⟩ := h.every k hlt
      · exact Or.inl hb
      · have hut : u ≠ t := fun he => by
          rw [he, ht] at hu
          cases hu
        exact Or.inr ⟨u, by rw [update_of_ne hut, hu]⟩
    · exact Or.inr ⟨t, update_self t _ held⟩

theorem Ledger.handBack (h : Ledger drawn held back) {k : Nat} (ht : held t = some k) :
    Ledger drawn (update held t none) (back ++ [k]) := by
  have hcases : ∀ u j, update held t none u = some j → u ≠ t ∧ held u = some j := by
    intro u j hu
    obtain ⟨_, hk⟩ | hold := update_cases hu
    · cases hk
    · exact hold
  refine ⟨?_, ?_, ?_, ?_, ?_, ?_⟩
  · intro u v j hu hv
    exact h.own u v j (hcases u j hu).2 (hcases v j hv).2
  · intro u j hu
    exact h.held_lt u j (hcases u j hu).2
  · intro j hj
    cases List.mem_append.mp hj with
    | inl hold =>
      exact h.back_lt j hold
    | inr hnew =>
      rw [List.mem_singleton.mp hnew]
      exact h.held_lt t k ht
  · intro u j hu hj
    obtain ⟨hut, hu'⟩ := hcases u j hu
    cases List.mem_append.mp hj with
    | inl hold =>
      exact h.apart u j hu' hold
    | inr hnew =>
      rw [List.mem_singleton.mp hnew] at hu'
      exact hut (h.own u t k hu' ht)
  · rw [List.nodup_append]
    refine ⟨h.nodup, List.nodup_singleton k, ?_⟩
    intro i hi j hj hij
    rw [List.mem_singleton.mp hj] at hij
    exact h.apart t k ht (hij ▸ hi)
  · intro j hj
    obtain hb | ⟨u, hu⟩ := h.every j hj
    · exact Or.inl (List.mem_append_left _ hb)
    · by_cases hut : u = t
      · rw [hut, ht] at hu
        rw [Option.some.inj hu]
        exact Or.inl (List.mem_append_right _ (List.mem_singleton_self j))
      · exact Or.inr ⟨u, by rw [update_of_ne hut, hu]⟩

end OsCourse.Tickets
