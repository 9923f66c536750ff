import OsCourse.Lib.Transition

/-! The bounded FIFO queue: what may happen to it, and what its runs deliver. -/
namespace OsCourse.BoundedFifo
open Transition
variable {α : Type*} {cap : Nat}

inductive Op (α : Type*) where
  | put (x : α)
  | get (x : α)
  deriving DecidableEq

inductive Step (cap : Nat) : List α → Op α → List α → Prop
  | put {q : List α} (x : α) : q.length < cap → Step cap q (.put x) (q ++ [x])
  | get {q : List α} (x : α) : Step cap (x :: q) (.get x) q

def puts : List (Op α) → List α
  | [] => []
  | .put x :: ops => x :: puts ops
  | .get _ :: ops => puts ops

def gets : List (Op α) → List α
  | [] => []
  | .put _ :: ops => gets ops
  | .get x :: ops => x :: gets ops

theorem puts_append (ops ops' : List (Op α)) : puts (ops ++ ops') = puts ops ++ puts ops' := by
  induction ops with
  | nil => rfl
  | cons op ops ih => cases op <;> simp [puts, ih]

theorem gets_append (ops ops' : List (Op α)) : gets (ops ++ ops') = gets ops ++ gets ops' := by
  induction ops with
  | nil => rfl
  | cons op ops ih => cases op <;> simp [gets, ih]

/-- What was got, then what the queue still holds, is what was put. -/
theorem delivered {q : List α} {ops : List (Op α)} (h : Runs (Step cap) [] ops q) :
    puts ops = gets ops ++ q := by
  induction h with
  | nil => rfl
  | snoc _ hstep ih =>
    rw [puts_append, gets_append, ih]
    cases hstep with
    | put x _ => simp [puts, gets]
    | get x => simp [puts, gets]

end OsCourse.BoundedFifo
