import Mathlib.Data.Finset.Card
import Mathlib.Data.List.Nodup

/-! A running count of the keys of a set that is kept as a list: additions of new keys, and
removals that find their key. -/
namespace OsCourse
variable {κ : Type*} {keys : List κ} {n : Nat} {k : κ}

/-- No key is there twice, and `n` says how many there are. -/
structure Counted (keys : List κ) (n : Nat) : Prop where
  nodup : keys.Nodup
  count : n = keys.length

theorem Counted.nil : Counted ([] : List κ) 0 := ⟨List.nodup_nil, rfl⟩

theorem Counted.add (h : Counted keys n) (hk : k ∉ keys) : Counted (keys ++ [k]) (n + 1) where
  nodup := by
    rw [List.nodup_append]
    refine ⟨h.nodup, List.nodup_singleton k, ?_⟩
    intro a ha b hb
    rw [List.mem_singleton.mp hb]
    rintro rfl
    exact hk ha
  count := by
    rw [List.length_append, ← h.count]
    rfl

variable [DecidableEq κ]

theorem Counted.remove (h : Counted keys n) (hk : k ∈ keys) :
    Counted (keys.filter (· ≠ k)) (n - 1) where
  nodup := h.nodup.filter _
  count := by
    have herase : keys.erase k = keys.filter (· ≠ k) := by
      rw [h.nodup.erase_eq_filter]
      apply List.filter_congr
      intro a _
      simp [bne, beq_eq_decide]
    rw [← herase, List.length_erase_of_mem hk, ← h.count]

theorem Counted.card (h : Counted keys n) : keys.toFinset.card = n := by
  rw [List.toFinset_card_of_nodup h.nodup, h.count]

end OsCourse
