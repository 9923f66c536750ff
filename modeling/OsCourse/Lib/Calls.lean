import Mathlib.Algebra.Order.Ring.Nat
import OsCourse.Lib.Transition

/-! Calls that run together with others: a call returns `r` when no run of it gives another
result, none is stuck before its end and none goes on for ever. Steps marked `extra`, such
as spurious wakeups, may come at any time and need not come. -/
namespace OsCourse.Calls
open Transition
variable {σ ℓ ρ : Type*} {step : σ → ℓ → σ → Prop} {s t : σ} {extra : ℓ → Bool}
  {result : σ → Option ρ} {r r' : ρ}

structure Returns (step : σ → ℓ → σ → Prop) (s : σ) (extra : ℓ → Bool)
    (result : σ → Option ρ) (r : ρ) : Prop where
  right : ∀ ls t x, Runs step s ls t → result t = some x → x = r
  goesOn : ∀ ls t, Runs step s ls t → result t = none → ∃ l u, step t l u ∧ extra l = false
  bounded : ∃ n, ∀ ls t, Runs step s ls t → ls.length ≤ n * (ls.countP extra + 1)

theorem length_le {ahead : σ → Nat} {c : Nat}
    (hs : ∀ a l b, step a l b → ahead b + 1 ≤ ahead a + if extra l then c else 0)
    {ls : List ℓ} (h : Runs step s ls t) :
    ahead t + ls.length ≤ ahead s + c * ls.countP extra := by
  induction h with
  | nil => simp
  | @snoc t u ls l _ hstep ih =>
    have hlast := hs _ _ _ hstep
    rw [List.length_append, List.countP_append, List.countP_singleton, List.length_singleton]
    cases hl : extra l with
    | true =>
      simp only [hl, if_true] at hlast ⊢
      rw [Nat.mul_add, Nat.mul_one]
      omega
    | false =>
      simp only [hl, Bool.false_eq_true, if_false, Nat.add_zero] at hlast ⊢
      omega

theorem bounded_of_measure {ahead : σ → Nat} {c : Nat}
    (hs : ∀ a l b, step a l b → ahead b + 1 ≤ ahead a + if extra l then c else 0) :
    ∃ n, ∀ ls t, Runs step s ls t → ls.length ≤ n * (ls.countP extra + 1) := by
  refine ⟨ahead s + c, ?_⟩
  intro ls t hrun
  have hle := length_le hs hrun
  have hmul : (ahead s + c) * (ls.countP extra + 1) =
      ahead s * ls.countP extra + c * ls.countP extra + (ahead s + c) := by
    rw [Nat.mul_add, Nat.mul_one, Nat.add_mul]
  omega

/-- A measure bounds the runs also when only the steps from states of an invariant are known to
lower it. -/
theorem bounded_of_invariant {P : σ → Prop} {ahead : σ → Nat} {c : Nat} (hinit : P s)
    (hkeep : ∀ a l b, P a → step a l b → P b)
    (hs : ∀ a l b, P a → step a l b → ahead b + 1 ≤ ahead a + if extra l then c else 0) :
    ∃ n, ∀ ls t, Runs step s ls t → ls.length ≤ n * (ls.countP extra + 1) := by
  have hbound : ∃ n, ∀ ls t, Runs (fun a l b => P a ∧ step a l b) s ls t →
      ls.length ≤ n * (ls.countP extra + 1) :=
    bounded_of_measure fun a l b h => hs a l b h.1 h.2
  obtain ⟨n, hn⟩ := hbound
  refine ⟨n, ?_⟩
  intro ls t hrun
  apply hn ls t
  exact (hrun.mono_of hinit fun a l b ha h => ⟨⟨ha, h⟩, hkeep a l b ha h⟩).1

/-- The rule for a call: an invariant that keeps it going until it returns the right result. -/
theorem Returns.of_invariant {P : σ → Prop} {ahead : σ → Nat} {c : Nat} (hinit : P s)
    (hkeep : ∀ a l b, P a → step a l b → P b)
    (hright : ∀ a x, P a → result a = some x → x = r)
    (hnext : ∀ a, P a → result a = none → ∃ l u, step a l u ∧ extra l = false)
    (hahead : ∀ a l b, step a l b → ahead b + 1 ≤ ahead a + if extra l then c else 0) :
    Returns step s extra result r := by
  refine ⟨?_, ?_, bounded_of_measure hahead⟩
  · intro ls t x hrun hx
    have ht := hrun.invariant hinit hkeep
    exact hright t x ht hx
  · intro ls t hrun hnone
    have ht := hrun.invariant hinit hkeep
    exact hnext t ht hnone

/-- A call that does not stop has runs of every length without extra steps. -/
theorem Returns.long_run (h : Returns step s extra result r)
    (hnone : ∀ ls t, Runs step s ls t → result t = none) (n : Nat) :
    ∃ ls t, Runs step s ls t ∧ ls.countP extra = 0 ∧ ls.length = n := by
  induction n with
  | zero => exact ⟨[], s, Runs.nil s, rfl, rfl⟩
  | succ n ih =>
    obtain ⟨ls, t, hrun, hextra, hlen⟩ := ih
    obtain ⟨l, u, hstep, hl⟩ := h.goesOn ls t hrun (hnone ls t hrun)
    exact ⟨ls ++ [l], u, hrun.snoc hstep, by simp [hextra, hl], by simp [hlen]⟩

theorem Returns.exists_run (h : Returns step s extra result r) :
    ∃ ls t, Runs step s ls t ∧ result t = some r := by
  by_contra hno
  have hnone : ∀ ls t, Runs step s ls t → result t = none := by
    intro ls t hrun
    by_contra hsome
    obtain ⟨x, hx⟩ := Option.ne_none_iff_exists'.mp hsome
    have hr := h.right ls t x hrun hx
    exact hno ⟨ls, t, hrun, hr ▸ hx⟩
  obtain ⟨n, hn⟩ := h.bounded
  obtain ⟨ls, t, hrun, hextra, hlen⟩ := h.long_run hnone (n + 1)
  have hle := hn ls t hrun
  rw [hextra, hlen] at hle
  omega

theorem Returns.unique (h : Returns step s extra result r)
    (h' : Returns step s extra result r') : r = r' := by
  obtain ⟨ls, t, hrun, hr⟩ := h.exists_run
  exact h'.right ls t r hrun hr

theorem Returns.iff_eq (h : Returns step s extra result r) (r' : ρ) :
    Returns step s extra result r' ↔ r = r' := by
  constructor
  · intro h'
    exact h.unique h'
  · intro he
    exact he ▸ h

end OsCourse.Calls
