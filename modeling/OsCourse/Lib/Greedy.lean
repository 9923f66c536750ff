import Mathlib.Algebra.Order.BigOperators.Group.List
import Mathlib.Algebra.Order.Ring.Int

/-! Serving a queue from its front for as long as the amount at hand covers the next
request. An amount that comes in two parts serves what the whole amount serves. -/
namespace OsCourse.Greedy
variable {α : Type*} (size : α → Int)

def served : Int → List α → List α
  | _, [] => []
  | u, x :: xs => if size x ≤ u then x :: served (u - size x) xs else []

def left (u : Int) (xs : List α) : Int := u - ((served size u xs).map size).sum

def rest (u : Int) (xs : List α) : List α := xs.drop (served size u xs).length

variable {size} {u v : Int} {x : α} {xs : List α}

theorem served_cons (h : size x ≤ u) :
    served size u (x :: xs) = x :: served size (u - size x) xs := by
  simp [served, h]

theorem served_stop (h : u < size x) : served size u (x :: xs) = [] := by
  simp [served, h]

theorem left_cons (h : size x ≤ u) : left size u (x :: xs) = left size (u - size x) xs := by
  unfold left
  rw [served_cons h, List.map_cons, List.sum_cons]
  omega

theorem rest_cons (h : size x ≤ u) : rest size u (x :: xs) = rest size (u - size x) xs := by
  unfold rest
  rw [served_cons h, List.length_cons, List.drop_succ_cons]

theorem left_stop (h : u < size x) : left size u (x :: xs) = u := by
  simp [left, served_stop h]

theorem rest_stop (h : u < size x) : rest size u (x :: xs) = x :: xs := by
  simp [rest, served_stop h]

theorem served_append_rest (size : α → Int) (u : Int) (xs : List α) :
    served size u xs ++ rest size u xs = xs := by
  induction xs generalizing u with
  | nil => rfl
  | cons x xs ih =>
    cases le_or_gt (size x) u with
    | inl hle =>
      rw [served_cons hle, rest_cons hle, List.cons_append, ih]
    | inr hlt =>
      rw [served_stop hlt, rest_stop hlt, List.nil_append]

theorem sum_served_nonneg (size : α → Int) (u : Int) {xs : List α}
    (hs : ∀ x ∈ xs, 0 ≤ size x) :
    0 ≤ ((served size u xs).map size).sum := by
  apply List.sum_nonneg
  intro n hn
  obtain ⟨y, hy, rfl⟩ := List.mem_map.mp hn
  apply hs
  rw [← served_append_rest size u xs]
  exact List.mem_append_left _ hy

theorem left_le (hs : ∀ x ∈ xs, 0 ≤ size x) : left size u xs ≤ u := by
  have hsum := sum_served_nonneg size u hs
  unfold left
  omega

/-- The second part of an amount serves on from where the first part stopped. -/
theorem served_add (u : Int) (xs : List α) (hv : 0 ≤ v) : served size (u + v) xs =
    served size u xs ++ served size (left size u xs + v) (rest size u xs) := by
  induction xs generalizing u with
  | nil => rfl
  | cons x xs ih =>
    cases le_or_gt (size x) u with
    | inl hle =>
      have hsub : u + v - size x = u - size x + v := by omega
      rw [served_cons (by omega), hsub, ih, served_cons hle, left_cons hle, rest_cons hle,
        List.cons_append]
    | inr hlt =>
      rw [served_stop hlt, left_stop hlt, rest_stop hlt, List.nil_append]

theorem left_add (hv : 0 ≤ v) : left size (u + v) xs =
    left size (left size u xs + v) (rest size u xs) := by
  have hserved : served size (u + v) xs = _ := served_add u xs hv
  have hsum := congrArg (fun ys => (ys.map size).sum) hserved
  simp only [List.map_append, List.sum_append] at hsum
  have hleft : left size u xs = u - ((served size u xs).map size).sum := rfl
  calc
    left size (u + v) xs = u + v - ((served size (u + v) xs).map size).sum := rfl
    _ = left size u xs + v -
        ((served size (left size u xs + v) (rest size u xs)).map size).sum := by omega

theorem rest_add (hv : 0 ≤ v) : rest size (u + v) xs =
    rest size (left size u xs + v) (rest size u xs) := by
  calc
    rest size (u + v) xs = xs.drop (served size (u + v) xs).length := rfl
    _ = (xs.drop (served size u xs).length).drop
        (served size (left size u xs + v) (rest size u xs)).length := by
      rw [served_add u xs hv, List.length_append, List.drop_drop]

theorem sum_served_eq_zero (hs : ∀ x ∈ xs, 0 < size x) :
    ((served size u xs).map size).sum = 0 ↔ ∀ x ∈ xs.head?, u < size x := by
  cases xs with
  | nil => simp [served]
  | cons x xs =>
    cases le_or_gt (size x) u with
    | inl hle =>
      have hx := hs x (by simp)
      have hxs := sum_served_nonneg size (u - size x)
        fun y hy => le_of_lt (hs y (List.mem_cons_of_mem x hy))
      rw [served_cons hle, List.map_cons, List.sum_cons]
      simp only [List.head?_cons, Option.mem_some_iff, forall_eq']
      omega
    | inr hlt =>
      simp [served_stop hlt, hlt]

/-- Amounts that leave the same remainder and the same queue were the same. -/
theorem amount_eq (hleft : left size u xs = left size v xs)
    (hrest : rest size u xs = rest size v xs) : u = v := by
  have hserved : served size u xs = served size v xs := by
    have happ := (served_append_rest size u xs).trans
      (served_append_rest size v xs).symm
    rw [hrest] at happ
    exact List.append_cancel_right happ
  unfold left at hleft
  rw [hserved] at hleft
  omega

/-- Some request for nothing stands behind requests that take the whole amount. -/
def UsedUp (size : α → Int) (u : Int) (xs : List α) : Prop :=
  ∃ before x after, xs = before ++ x :: after ∧ size x = 0 ∧ (before.map size).sum = u

theorem not_usedUp_nil : ¬ UsedUp size u [] := by
  intro h
  obtain ⟨before, x, after, he, _⟩ := h
  simp at he

theorem usedUp_cons :
    UsedUp size u (x :: xs) ↔ (size x = 0 ∧ u = 0) ∨ UsedUp size (u - size x) xs := by
  constructor
  · intro h
    obtain ⟨before, y, after, he, hy, hsum⟩ := h
    cases before with
    | nil =>
      cases he
      exact Or.inl ⟨hy, hsum.symm⟩
    | cons z before =>
      cases he
      rw [List.map_cons, List.sum_cons] at hsum
      exact Or.inr ⟨before, y, after, rfl, hy, by omega⟩
  · intro h
    cases h with
    | inl hfirst => exact ⟨[], x, xs, rfl, hfirst.1, hfirst.2.symm⟩
    | inr hbehind =>
      obtain ⟨before, y, after, he, hy, hsum⟩ := hbehind
      refine ⟨x :: before, y, after, by rw [he]; rfl, hy, ?_⟩
      rw [List.map_cons, List.sum_cons]
      omega

theorem usedUp_nonneg (hs : ∀ x ∈ xs, 0 ≤ size x) (h : UsedUp size u xs) : 0 ≤ u := by
  obtain ⟨before, x, after, rfl, _, rfl⟩ := h
  apply List.sum_nonneg
  intro n hn
  obtain ⟨y, hy, rfl⟩ := List.mem_map.mp hn
  exact hs y (List.mem_append_left _ hy)

theorem usedUp_of_nonpos (hs : ∀ y ∈ x :: xs, 0 ≤ size y) (hu : u ≤ 0) :
    UsedUp size u (x :: xs) ↔ size x ≤ u := by
  have hx : 0 ≤ size x := hs x (by simp)
  rw [usedUp_cons]
  constructor
  · intro h
    cases h with
    | inl hfirst => omega
    | inr hbehind =>
      have hleft := usedUp_nonneg (fun y hy => hs y (List.mem_cons_of_mem x hy)) hbehind
      omega
  · intro h
    exact Or.inl ⟨by omega, by omega⟩

end OsCourse.Greedy
