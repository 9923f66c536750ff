import Mathlib.Logic.Function.Basic

/-! Slots filled by several workers: slot `i` is handed out with `start i` in it, and the
worker that takes it leaves `final i`. Which worker does, and when, does not matter. -/
namespace OsCourse.Gather
open Function
variable {α : Type*} {start final : Nat → α} {slots slots' : Nat → Option α}
  {waiting waiting' : Nat → Prop} {sent i : Nat}

/-- The slots below `sent` are handed out; `waiting` are those not filled yet. -/
structure Filling (start final : Nat → α) (slots : Nat → Option α) (waiting : Nat → Prop)
    (sent : Nat) : Prop where
  slot : ∀ i < sent, slots i = some (final i) ∨ (slots i = some (start i) ∧ waiting i)
  sent_of_waiting : ∀ i, waiting i → i < sent

theorem Filling.init (start final : Nat → α) (slots : Nat → Option α)
    (h : ∀ i, ¬ waiting i) : Filling start final slots waiting 0 :=
  ⟨fun i hi => absurd hi (Nat.not_lt_zero i), fun i hi => absurd hi (h i)⟩

theorem Filling.congr (h : Filling start final slots waiting sent)
    (hw : ∀ j, waiting' j ↔ waiting j) : Filling start final slots waiting' sent := by
  have hsame : waiting' = waiting := funext fun j => propext (hw j)
  rw [hsame]
  exact h

theorem Filling.submit (h : Filling start final slots waiting sent)
    (hw : ∀ j, waiting' j ↔ waiting j ∨ j = sent) :
    Filling start final (update slots sent (some (start sent))) waiting' (sent + 1) := by
  refine ⟨?_, ?_⟩
  · intro j hj
    by_cases hjs : j = sent
    · subst hjs
      exact Or.inr ⟨update_self _ _ _, (hw j).mpr (Or.inr rfl)⟩
    · rw [update_of_ne hjs]
      cases h.slot j (by omega) with
      | inl hdone => exact Or.inl hdone
      | inr hwait => exact Or.inr ⟨hwait.1, (hw j).mpr (Or.inl hwait.2)⟩
  · intro j hj
    cases (hw j).mp hj with
    | inl hold =>
      have := h.sent_of_waiting j hold
      omega
    | inr hnew => omega

theorem Filling.finish (h : Filling start final slots waiting sent)
    (hw : ∀ j, waiting' j → waiting j) (hw' : ∀ j, waiting j → waiting' j ∨ j = i) :
    Filling start final (update slots i (some (final i))) waiting' sent := by
  refine ⟨?_, fun j hj => h.sent_of_waiting j (hw j hj)⟩
  intro j hj
  by_cases hji : j = i
  · subst hji
    exact Or.inl (update_self _ _ _)
  · rw [update_of_ne hji]
    cases h.slot j hj with
    | inl hdone => exact Or.inl hdone
    | inr hwait => exact Or.inr ⟨hwait.1, (hw' j hwait.2).resolve_right hji⟩

theorem Filling.waiting_slot (h : Filling start final slots waiting sent) (hw : waiting i) :
    slots i = some (start i) ∨ slots i = some (final i) := by
  cases h.slot i (h.sent_of_waiting i hw) with
  | inl hdone => exact Or.inr hdone
  | inr hwait => exact Or.inl hwait.1

/-- When nothing waits, every slot is filled. -/
theorem Filling.all (h : Filling start final slots waiting sent) (hw : ∀ j, ¬ waiting j) :
    ∀ j < sent, slots j = some (final j) := by
  intro j hj
  cases h.slot j hj with
  | inl hdone => exact hdone
  | inr hwait => exact absurd hwait.2 (hw j)

end OsCourse.Gather
