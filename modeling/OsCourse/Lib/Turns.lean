import Mathlib.Data.List.Basic

/-! Taking turns: who has more to do goes to the end of the queue. What comes out is what all do
in the first round, in the order of the queue, then what those that are left do in the second, and
so on. -/
namespace OsCourse.RoundRobin
variable {σ : Type*} {q : List (List (List σ))} {s : List (List σ)} {out : List σ} {n : Nat}

/-- `Turns q out`: the parties of the queue `q`, each with what it does in each of its turns, give
`out` when they take turns until all have ended. -/
inductive Turns : List (List (List σ)) → List σ → Prop
  | nil : Turns [] []
  | last {s : List σ} {q : List (List (List σ))} {out : List σ} : Turns q out →
      Turns ([s] :: q) (s ++ out)
  | more {s r : List σ} {rest : List (List σ)} {q : List (List (List σ))} {out : List σ} :
      Turns (q ++ [r :: rest]) out → Turns ((s :: r :: rest) :: q) (s ++ out)

/-- What the parties do in their turn number `r`. -/
def round (r : Nat) (q : List (List (List σ))) : List σ := q.flatMap fun s => (s[r]?).getD []

def rounds (n : Nat) (q : List (List (List σ))) : List σ := (List.range n).flatMap fun r => round r q

def left (q : List (List (List σ))) : List (List (List σ)) :=
  (q.map List.tail).filter fun s => !s.isEmpty

theorem left_cons_more {x r : List σ} {rest : List (List σ)} :
    left ((x :: r :: rest) :: q) = (r :: rest) :: left q := rfl

theorem left_cons_last {x : List σ} : left ([x] :: q) = left q := rfl

theorem turns_first {q' : List (List (List σ))} (h : ∀ s ∈ q, s ≠ [])
    (hrest : Turns (q' ++ left q) out) : Turns (q ++ q') (round 0 q ++ out) := by
  induction q generalizing q' with
  | nil => simpa [round, left] using hrest
  | cons s q ih =>
    have hq : ∀ s ∈ q, s ≠ [] := fun s hs => h s (List.mem_cons_of_mem _ hs)
    cases s with
    | nil => exact absurd rfl (h [] List.mem_cons_self)
    | cons x rest =>
      have hround : round 0 ((x :: rest) :: q) ++ out = x ++ (round 0 q ++ out) := by
        simp [round]
      rw [hround, List.cons_append]
      cases rest with
      | nil =>
        rw [left_cons_last] at hrest
        exact Turns.last (ih hq hrest)
      | cons r rest =>
        apply Turns.more
        rw [List.append_assoc]
        apply ih hq
        rw [left_cons_more] at hrest
        rwa [List.append_assoc]

theorem round_left (r : Nat) (q : List (List (List σ))) : round r (left q) = round (r + 1) q := by
  induction q with
  | nil => rfl
  | cons s q ih =>
    have hself : round (r + 1) (s :: q) = (s.tail[r]?).getD [] ++ round (r + 1) q := by
      simp [round]
    rw [hself, ← ih]
    unfold left round
    rw [List.map_cons, List.filter_cons]
    cases hs : s.tail with
    | nil => simp
    | cons x rest => simp

/-- What comes out, round after round. -/
theorem turns_rounds (n : Nat) (h : ∀ s ∈ q, s ≠ [] ∧ s.length ≤ n) : Turns q (rounds n q) := by
  induction n generalizing q with
  | zero =>
    cases q with
    | nil => exact Turns.nil
    | cons s q =>
      obtain ⟨hne, hlen⟩ := h s List.mem_cons_self
      exact absurd (List.eq_nil_of_length_eq_zero (Nat.le_zero.mp hlen)) hne
  | succ n ih =>
    have hleft : ∀ s ∈ left q, s ≠ [] ∧ s.length ≤ n := by
      intro s hs
      obtain ⟨hmem, hne⟩ := List.mem_filter.mp hs
      obtain ⟨s', hs', rfl⟩ := List.mem_map.mp hmem
      have hlen := (h s' hs').2
      rw [List.length_tail]
      exact ⟨by simpa using hne, by omega⟩
    have hturns : Turns (q ++ []) (round 0 q ++ rounds n (left q)) :=
      turns_first (fun s hs => (h s hs).1) (ih hleft)
    rw [List.append_nil] at hturns
    have hrounds : rounds (n + 1) q = round 0 q ++ rounds n (left q) := by
      unfold rounds
      rw [List.range_succ_eq_map, List.flatMap_cons, List.flatMap_map]
      simp only [round_left]
    rw [hrounds]
    exact hturns

end OsCourse.RoundRobin
