import Mathlib.Algebra.BigOperators.Group.Finset.Piecewise
import Mathlib.Data.List.Induction

/-! Histories that grow at the end. `Guarded p l` says that each entry of `l` found
what it requires in the part of `l` before it; `entries k l` are those of one key. -/
namespace OsCourse.History
variable {α : Type*}

def Guarded (p : α → List α → Prop) (l : List α) : Prop :=
  ∀ pre x post, l = pre ++ x :: post → p x pre

variable {p : α → List α → Prop}

theorem Guarded.nil : Guarded p [] := by
  intro pre x post h
  simp at h

theorem Guarded.snoc {l : List α} {y : α} (h : Guarded p l) (hy : p y l) :
    Guarded p (l ++ [y]) := by
  intro pre x post he
  induction post using List.reverseRecOn with
  | nil =>
    obtain ⟨hl, hx⟩ := List.append_inj' he rfl
    cases hx
    exact hl ▸ hy
  | append_singleton post z _ =>
    rw [← List.cons_append, ← List.append_assoc] at he
    exact h pre x post (List.append_inj' he rfl).1

/-- Entry `a` is there and no entry `z` came after it. -/
def Unended (a z : α) (l : List α) : Prop := ∃ i, l[i]? = some a ∧ z ∉ l.drop (i + 1)

theorem unended_snoc {a z e : α} {l : List α} (hne : a ≠ z) :
    Unended a z (l ++ [e]) ↔ e = a ∨ (e ≠ z ∧ Unended a z l) := by
  constructor
  · intro h
    obtain ⟨i, hi, hz⟩ := h
    cases Nat.lt_or_ge i l.length with
    | inl hlt =>
      rw [List.getElem?_append_left hlt] at hi
      rw [List.drop_append_of_le_length hlt, List.mem_append, not_or] at hz
      exact Or.inr ⟨fun he => hz.2 (by simp [he]), i, hi, hz.1⟩
    | inr hge =>
      rw [List.getElem?_append_right hge, List.getElem?_singleton] at hi
      split at hi
      · exact Or.inl (Option.some.inj hi)
      · cases hi
  · intro h
    cases h with
    | inl he =>
      subst he
      exact ⟨l.length, by simp, by simp⟩
    | inr hold =>
      obtain ⟨he, i, hi, hz⟩ := hold
      have hlt : i < l.length := (List.getElem?_eq_some_iff.mp hi).1
      refine ⟨i, by rw [List.getElem?_append_left hlt]; exact hi, ?_⟩
      rw [List.drop_append_of_le_length hlt, List.mem_append, not_or]
      exact ⟨hz, fun hlast => he (List.mem_singleton.mp hlast).symm⟩

theorem Unended.later {a z : α} {l : List α} {i : Nat} (h : Unended a z l)
    (hend : z ∈ l.drop (i + 1)) : ∃ j, i < j ∧ l[j]? = some a ∧ z ∉ l.drop (j + 1) := by
  obtain ⟨j, hj, hz⟩ := h
  refine ⟨j, ?_, hj, hz⟩
  by_contra hle
  apply hz
  have hdrop : l.drop (i + 1) = (l.drop (j + 1)).drop (i - j) := by
    rw [List.drop_drop]
    congr 1
    omega
  rw [hdrop] at hend
  exact List.mem_of_mem_drop hend

section Entries
variable {κ ι : Type*} [DecidableEq κ] {l m : List (κ × ι)} {k k' : κ} {x : ι}

def entries (k : κ) (l : List (κ × ι)) : List ι := (l.filter fun e => e.1 = k).map Prod.snd

theorem entries_snoc_self : entries k (l ++ [(k, x)]) = entries k l ++ [x] := by
  simp [entries, List.filter_append]

theorem entries_snoc_ne (h : k ≠ k') : entries k' (l ++ [(k, x)]) = entries k' l := by
  simp [entries, List.filter_append, h]

theorem mem_of_mem_entries (h : x ∈ entries k l) : x ∈ l.map Prod.snd := by
  obtain ⟨e, he, rfl⟩ := List.mem_map.mp h
  exact List.mem_map_of_mem (List.mem_of_mem_filter he)

theorem mem_entries (h : (k, x) ∈ l) : x ∈ entries k l :=
  List.mem_map.mpr ⟨(k, x), List.mem_filter.mpr ⟨h, by simp⟩, rfl⟩

theorem entries_filter (p : ι → Bool) :
    entries k (l.filter fun e => p e.2) = (entries k l).filter p := by
  simp [entries, List.filter_filter, List.filter_map, Bool.and_comm, Function.comp_def]

theorem count_entries [DecidableEq ι] : (entries k l).count x = l.count (k, x) := by
  induction l with
  | nil => rfl
  | cons e l ih =>
    obtain ⟨k', y⟩ := e
    unfold entries at ih ⊢
    by_cases hk : k' = k
    · subst hk
      simp [List.count_cons, ih]
    · simp [ih, hk]

/-- Histories that agree key by key are equal up to the order. -/
theorem perm_of_entries (h : ∀ k, entries k l = entries k m) : l.Perm m := by
  classical
  rw [List.perm_iff_count]
  rintro ⟨k, x⟩
  rw [← count_entries, ← count_entries, h k]

theorem countP_entries [Fintype κ] (p : ι → Bool) :
    (l.map Prod.snd).countP p = ∑ k, (entries k l).countP p := by
  induction l with
  | nil => simp [entries]
  | cons e l ih =>
    have hone : ∀ k, (entries k (e :: l)).countP p =
        (entries k l).countP p + if k = e.1 then (if p e.2 then 1 else 0) else 0 := by
      intro k
      by_cases hk : e.1 = k
      · subst hk
        simp [entries, List.countP_cons]
      · simp [entries, hk, Ne.symm hk]
    rw [Finset.sum_congr rfl fun k _ => hone k, Finset.sum_add_distrib, ← ih]
    simp [List.countP_cons]

end Entries

end OsCourse.History
