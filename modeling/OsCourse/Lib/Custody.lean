import Mathlib.Data.List.Nodup
import Mathlib.Logic.Function.Basic

/-! Who holds the cells of a heap. In custody each allocated cell is with one holder, once, and
nobody holds another. -/
namespace OsCourse.Alloc
open Function
variable {K L V : Type*}

structure Custody (heap : L → Option V) (held : K → List L) : Prop where
  live : ∀ {k a}, a ∈ held k → heap a ≠ none
  kept : ∀ {a}, heap a ≠ none → ∃ k, a ∈ held k
  once : ∀ k, (held k).Nodup
  apart : ∀ {k j a}, a ∈ held k → a ∈ held j → k = j

namespace Custody
variable {heap : L → Option V} {held : K → List L} {k j : K} {a : L} {rest : List L} {x : V}

theorem empty : Custody (fun _ : L => (none : Option V)) (fun _ : K => []) where
  live := by
    intro k a ha
    cases ha
  kept := by
    intro a ha
    exact absurd rfl ha
  once := fun _ => List.nodup_nil
  apart := by
    intro k j a ha
    cases ha

theorem exists_unique (h : Custody heap held) (ha : heap a ≠ none) :
    ∃ k, a ∈ held k ∧ ∀ j, a ∈ held j → j = k := by
  obtain ⟨k, hk⟩ := h.kept ha
  exact ⟨k, hk, fun j hj => h.apart hj hk⟩

variable [DecidableEq K]

theorem malloc [DecidableEq L] (h : Custody heap held) (ha : heap a = none) (k : K) :
    Custody (update heap a (some x)) (update held k (held k ++ [a])) := by
  have hout : ∀ j, a ∉ held j := fun j hj => h.live hj ha
  have hmem : ∀ {j b}, b ∈ update held k (held k ++ [a]) j → b ∈ held j ∨ (j = k ∧ b = a) := by
    intro j b hb
    by_cases hj : j = k
    · rw [hj, update_self, List.mem_append, List.mem_singleton] at hb
      rw [hj]
      exact hb.imp_right fun he => ⟨rfl, he⟩
    · rw [update_of_ne hj] at hb
      exact Or.inl hb
  have hold : ∀ {j b}, b ∈ held j → b ∈ update held k (held k ++ [a]) j := by
    intro j b hb
    by_cases hj : j = k
    · rw [hj] at hb
      rw [hj, update_self]
      exact List.mem_append_left _ hb
    · rwa [update_of_ne hj]
  refine ⟨?_, ?_, ?_, ?_⟩
  · intro j b hb
    by_cases hba : b = a
    · rw [hba, update_self]
      simp
    · rw [update_of_ne hba]
      obtain hin | ⟨_, he⟩ := hmem hb
      · exact h.live hin
      · exact absurd he hba
  · intro b hb
    by_cases hba : b = a
    · exact ⟨k, by rw [hba, update_self]; simp⟩
    · rw [update_of_ne hba] at hb
      obtain ⟨j, hj⟩ := h.kept hb
      exact ⟨j, hold hj⟩
  · intro j
    by_cases hj : j = k
    · rw [hj, update_self]
      apply List.Nodup.append (h.once k) (List.nodup_singleton a)
      simpa using hout k
    · rw [update_of_ne hj]
      exact h.once j
  · intro i j b hi hj
    obtain hi | ⟨hik, hba⟩ := hmem hi
    · obtain hj | ⟨_, hba⟩ := hmem hj
      · exact h.apart hi hj
      · exact absurd hi (hba ▸ hout i)
    · obtain hj | ⟨hjk, _⟩ := hmem hj
      · exact absurd hj (hba ▸ hout j)
      · rw [hik, hjk]

theorem mem_rest (h : Custody heap held) (hk : held k = a :: rest) {j : K} {b : L} :
    b ∈ update held k rest j ↔ b ∈ held j ∧ b ≠ a := by
  have hnodup := h.once k
  rw [hk, List.nodup_cons] at hnodup
  by_cases hj : j = k
  · rw [hj, update_self, hk, List.mem_cons]
    constructor
    · intro hb
      exact ⟨Or.inr hb, fun he => hnodup.1 (he ▸ hb)⟩
    · intro hb
      exact hb.1.resolve_left hb.2
  · rw [update_of_ne hj]
    constructor
    · intro hb
      refine ⟨hb, fun he => hj (h.apart hb ?_)⟩
      rw [he, hk]
      exact List.mem_cons_self
    · intro hb
      exact hb.1

theorem once_rest (h : Custody heap held) (hk : held k = a :: rest) (j : K) :
    (update held k rest j).Nodup := by
  by_cases hj : j = k
  · have hnodup := h.once k
    rw [hk, List.nodup_cons] at hnodup
    rw [hj, update_self]
    exact hnodup.2
  · rw [update_of_ne hj]
    exact h.once j

theorem free [DecidableEq L] (h : Custody heap held) (hk : held k = a :: rest) :
    Custody (update heap a none) (update held k rest) where
  live := by
    intro j b hb
    obtain ⟨hb, hba⟩ := (h.mem_rest hk).mp hb
    rw [update_of_ne hba]
    exact h.live hb
  kept := by
    intro b hb
    by_cases hba : b = a
    · rw [hba, update_self] at hb
      exact absurd rfl hb
    · rw [update_of_ne hba] at hb
      obtain ⟨j, hj⟩ := h.kept hb
      exact ⟨j, (h.mem_rest hk).mpr ⟨hj, hba⟩⟩
  once := h.once_rest hk
  apart := by
    intro i j b hi hj
    exact h.apart ((h.mem_rest hk).mp hi).1 ((h.mem_rest hk).mp hj).1

/-- The holder of a cell hands it over. -/
theorem hand (h : Custody heap held) (hk : held k = a :: rest) (hne : j ≠ k) :
    Custody heap (update (update held k rest) j (held j ++ [a])) := by
  have hmem : ∀ {i b}, b ∈ update (update held k rest) j (held j ++ [a]) i ↔
      (b ∈ held i ∧ b ≠ a) ∨ (i = j ∧ b = a) := by
    intro i b
    by_cases hi : i = j
    · have hjb := h.mem_rest hk (j := j) (b := b)
      rw [update_of_ne hne] at hjb
      rw [hi, update_self, List.mem_append, List.mem_singleton, ← hjb]
      simp
    · rw [update_of_ne hi, h.mem_rest hk]
      simp [hi]
  have ha : a ∈ held k := by
    rw [hk]
    exact List.mem_cons_self
  refine ⟨?_, ?_, ?_, ?_⟩
  · intro i b hb
    obtain ⟨hb, _⟩ | ⟨_, he⟩ := hmem.mp hb
    · exact h.live hb
    · exact he ▸ h.live ha
  · intro b hb
    by_cases hba : b = a
    · exact ⟨j, hmem.mpr (Or.inr ⟨rfl, hba⟩)⟩
    · obtain ⟨i, hi⟩ := h.kept hb
      exact ⟨i, hmem.mpr (Or.inl ⟨hi, hba⟩)⟩
  · intro i
    by_cases hi : i = j
    · rw [hi, update_self]
      apply List.Nodup.append (h.once j) (List.nodup_singleton a)
      rw [List.disjoint_singleton]
      exact fun hj => hne (h.apart hj ha)
    · rw [update_of_ne hi]
      exact h.once_rest hk i
  · intro i i' b hi hi'
    obtain ⟨hi, hba⟩ | ⟨hij, hba⟩ := hmem.mp hi
    · obtain ⟨hi', _⟩ | ⟨_, he⟩ := hmem.mp hi'
      · exact h.apart hi hi'
      · exact absurd he hba
    · obtain ⟨_, hne'⟩ | ⟨hij', _⟩ := hmem.mp hi'
      · exact absurd hba hne'
      · rw [hij, hij']

end Custody

end OsCourse.Alloc
